import Nomt.Lib.BitString
import Nomt.Lib.CompactTrie
import Nomt.Lib.BinarySearch
import Nomt.Lib.Bijective
import Nomt.Lib.ByteOrder
import Nomt.Lib.Triangular
import Nomt.Lib.Undo
import Nomt.Core.Trie
import Nomt.Core.Update
import Nomt.Core.BuildTrieCorrect
import Nomt.Lib.Frontier
import Nomt.Core.PathProof
import Nomt.Spec.TrieMap
import Nomt.Core.UpdateSpec
import Nomt.Core.PathProofCorrect
import Nomt.Core.MultiProof
import Nomt.Core.ProofSound
import Nomt.Core.MultiProofComplete
import Nomt.Core.PageId
import Nomt.Store.Bitbox
import Nomt.Beatree.Overflow
import Nomt.Store.Seglog
import Nomt.Store.Delta
import Nomt.Store.Rollback
import Nomt.Lib.Bits
import Nomt.Store.PageDiff
import Nomt.Store.Wal
import Nomt.Store.Sync
import Nomt.Store.Recover
import Nomt.Store.Replay
import Nomt.Beatree.BranchSearch
import Nomt.Beatree.LeafNode
import Nomt.Core.TriePos
import Nomt.Lib.PageChain
import Nomt.Beatree.FreeList
import Nomt.Beatree.FreeListStore
import Nomt.Beatree.FreeListSync
import Nomt.Beatree.FreeListPop
import Nomt.Beatree.BitOps
import Nomt.Store.SegmentFile
import Nomt.Cache.PageRegion
import Nomt.Cache.RwPassCell
import Nomt.Cache.RwPassSafety
import Nomt.Cache.PageCache
import Nomt.Merkle.UpdatePasses
import Nomt.Merkle.PageWalker
import Nomt.Core.PageLayout
import Nomt.Merkle.PageWalkerView

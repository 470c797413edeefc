import Nomt.Core.TriePos
import Nomt.Store.PageDiff

/-!
# The page walker (`nomt/src/merkle/page_walker.rs`)

`PageWalker` updates the merkle trie stored in pages, left to right. Each call moves it to a trie
position after the last: `advance_and_replace` rebuilds the sub-trie at a terminal with
`build_trie`, `advance_and_place_node` puts a given node there, and `advance` only moves; before
moving, the nodes below the point where the old and the new position part are compacted and
hashed up (`compact_up`). `conclude` hashes up to the root.

The walker keeps the pages on the path to its position in a stack, copied from a `PageSet` (or
fresh when it builds a sub-trie below a terminal), and hands each page it leaves to its output,
unless the page is elided: a page below the root's children whose sub-tree holds fewer than
`PAGE_ELISION_THRESHOLD` leaves is dropped and marked in its parent's `elided_children`. Leaf
counters travel up the stack for that decision (`handle_elision_threshold`).

The model follows the source call for call; a panic (`unwrap`, `assert!`, an out-of-range index,
a `usize` subtraction below zero, a failed `try_into`) is `none`. Nodes are the abstract `N` of
the trie model, with `TERMINATOR` as `0`; a page is its `NODES_PER_PAGE` node slots and its
elided-children field. Two representation choices: the `stack` vector is kept top first, so the
pages `build_stack` pushes deepest first and then reverses are prepended as found; and the
`visit` callback of `build_trie` is run over the list of `WriteNode` commands it returns, in order.
`#[cfg(test)]`'s `inhibit_elision` is a field, `false` in every walker `new` builds.
-/

namespace Nomt

/-- `ElidedChildren::new`. -/
def ElidedChildren.new : ElidedChildren := ⟨0⟩

/-- `ElidedChildren::set_elide`: sets or clears the child's bit. -/
def ElidedChildren.setElide (e : ElidedChildren) (childPageIndex : ChildPageIndex) (elide : Bool) :
    ElidedChildren :=
  let shift := childPageIndex.index.toUInt64
  if elide then ⟨e.elided ||| (1 <<< shift)⟩ else ⟨e.elided &&& ~~~(1 <<< shift)⟩

namespace Merkle

open TriePos

/-- `PAGE_ELISION_THRESHOLD`. -/
def PAGE_ELISION_THRESHOLD : Nat := 20

/-! ## Pages and their origin -/

/-- A page as the walker reads and writes it (`PageMut`, and `Page` once frozen): the nodes of its
slots and its elided-children field. -/
structure NodePage (N : Type) where
  nodes : Vector N NODES_PER_PAGE
  elidedChildren : ElidedChildren

namespace NodePage

variable {N : Type}

/-- `PageMut::node` (`read_node`): asserts `index < NODES_PER_PAGE`. -/
def node (page : NodePage N) (index : Nat) : Option N :=
  if h : index < NODES_PER_PAGE then some page.nodes[index] else none

/-- `PageMut::set_node` (`set_node`): asserts `index < NODES_PER_PAGE`. -/
def setNode (page : NodePage N) (index : Nat) (node : N) : Option (NodePage N) :=
  if h : index < NODES_PER_PAGE then some { page with nodes := page.nodes.set index node }
  else none

/-- `PageMut::set_elided_children`. -/
def setElidedChildren (page : NodePage N) (elidedChildren : ElidedChildren) : NodePage N :=
  { page with elidedChildren }

end NodePage

/-- `merkle::BucketInfo`: the walker passes it on; the shared cell of a dependent bucket is not
read here. -/
inductive BucketInfo
  | known (bucket : UInt64)
  | dependent
  | fresh
deriving DecidableEq, Repr

/-- `PageOrigin`: read from the hash table, or reconstructed with its leaf counters. -/
inductive PageOrigin
  | persisted (bucketInfo : BucketInfo)
  | reconstructed (pageLeavesCounter childrenLeavesCounter : Nat) (diff : PageDiff)

namespace PageOrigin

/-- `PageOrigin::bucket_info`. -/
def bucketInfo : PageOrigin → Option BucketInfo
  | .persisted bucketInfo => some bucketInfo
  | .reconstructed .. => none

/-- `PageOrigin::children_leaves_counter`. -/
def childrenLeavesCounter : PageOrigin → Option Nat
  | .reconstructed _ childrenLeavesCounter _ => some childrenLeavesCounter
  | .persisted _ => none

/-- `PageOrigin::page_leaves_counter`. -/
def pageLeavesCounter : PageOrigin → Option Nat
  | .reconstructed pageLeavesCounter _ _ => some pageLeavesCounter
  | .persisted _ => none

/-- `PageOrigin::page_diff`. -/
def pageDiff : PageOrigin → Option PageDiff
  | .reconstructed _ _ diff => some diff
  | .persisted _ => none

end PageOrigin

/-- The origin `down` gives a fresh page. -/
def freshOrigin : PageOrigin := .reconstructed 0 0 PageDiff.default

/-- The `PageSet` trait as the updating walker uses it: `get` a page, or make a `fresh` one. A
fresh page comes from the page pool and is not zeroed: its node slots are any values. -/
structure PageSet (N : Type) where
  get : PageId → Option (NodePage N × PageOrigin)
  fresh : PageId → NodePage N

/-- `StackPage`: a page on the walker's stack, with what the elision decision needs. -/
structure StackPage (N : Type) where
  pageId : PageId
  page : NodePage N
  diff : PageDiff
  bucketInfo : Option BucketInfo
  pageLeavesCounter : Option Nat
  prevChildrenLeavesCounter : Option Nat
  childrenLeavesCounter : Option Nat
  elidedChildren : ElidedChildren
  reconstructionDiff : Option PageDiff

namespace StackPage

variable {N : Type}

/-- `StackPage::new`. -/
def new (pageId : PageId) (page : NodePage N) (diff : PageDiff) (pageOrigin : PageOrigin) :
    StackPage N where
  elidedChildren := page.elidedChildren
  pageLeavesCounter := pageOrigin.pageLeavesCounter
  prevChildrenLeavesCounter := pageOrigin.childrenLeavesCounter
  childrenLeavesCounter := none
  reconstructionDiff := pageOrigin.pageDiff
  bucketInfo := pageOrigin.bucketInfo
  pageId
  page
  diff

/-- `StackPage::total_diff`: the reconstruction diff joined with the update's. -/
def totalDiff (sp : StackPage N) : PageDiff :=
  (sp.reconstructionDiff.map fun reconstructionDiff => reconstructionDiff.join sp.diff).getD sp.diff

end StackPage

/-- `UpdatedPage`. -/
structure UpdatedPage (N : Type) where
  pageId : PageId
  page : NodePage N
  diff : PageDiff
  bucketInfo : BucketInfo

/-- `ReconstructedPage`. -/
structure ReconstructedPage (N : Type) where
  pageId : PageId
  page : NodePage N
  childrenLeavesCounter : Nat
  diff : PageDiff

/-- `PageWalkerPageOutput`. -/
inductive PageWalkerPageOutput (N : Type)
  | updated (updatedPage : UpdatedPage N)
  | reconstructed (reconstructedPage : ReconstructedPage N)

/-- `Output`: the new root, or the nodes to place in the parent page's bottom layer. -/
inductive Output (N : Type)
  | root (node : N) (updatedPages : List (UpdatedPage N))
  | childPageRoots (roots : List (TriePos.TriePosition × N)) (updatedPages : List (UpdatedPage N))

/-- `PageWalker`. The `stack` is top first; `sibling_stack`, `child_page_roots` and
`output_pages` keep the vectors' order. -/
structure PageWalker (N : Type) where
  lastPosition : Option TriePos.TriePosition
  position : TriePos.TriePosition
  parentPage : Option PageId
  childPageRoots : List (TriePos.TriePosition × N)
  root : N
  outputPages : List (PageWalkerPageOutput N)
  stack : List (StackPage N)
  siblingStack : List (N × Nat)
  prevNode : Option N
  reconstruction : Bool
  inhibitElision : Bool

/-! ## Counting the leaves of a page -/

section CountLeaves

variable {N V : Type} (H : NodeHasher N V)

/-- The loop of `count_leaves`, `fuel` rounds at most: a depth-first walk of the page that goes
left below internal nodes, counts the leaves, and climbs past right children to the next right
sibling. Each round moves to a later node of the page, so `NODES_PER_PAGE` rounds are enough. -/
def countLeavesLoop (page : NodePage N) : Nat → TriePos.TriePosition → Nat → Option Nat
  | 0, _, _ => none
  | fuel + 1, pos, counter => do
    let node ← page.node pos.nodeIndex
    -- continue to the left child of an internal node above the page's last layer
    if H.nodeKind node = .internal ∧ pos.depthInPage ≠ pageDepth then
      let pos ← pos.down false
      countLeavesLoop page fuel pos counter
    else
      let counter := if H.nodeKind node = .leaf then counter + 1 else counter
      let pos ← climb pos.depth pos
      if pos.depth = 0 then pure counter
      else
        let pos ← pos.sibling
        countLeavesLoop page fuel pos counter
where
  /-- `while pos.depth() != initial_depth && pos.peek_last_bit() { pos.up(1) }`; a step up
  lowers the depth, so `depth` rounds are enough. -/
  climb : Nat → TriePos.TriePosition → Option TriePos.TriePosition
    | 0, pos => some pos
    | fuel + 1, pos => do
      if pos.depth = 0 then pure pos
      else
        let bit ← pos.peekLastBit
        if bit then
          let pos ← pos.up 1
          climb fuel pos
        else pure pos

/-- `count_leaves`: the leaves of the page alone, found from the root position of a page. -/
def countLeaves (page : NodePage N) : Option Nat := do
  let pos ← TriePos.TriePosition.new.down false
  countLeavesLoop H page NODES_PER_PAGE pos 0

end CountLeaves

/-! ## The walker -/

namespace PageWalker

variable {N V : Type} [Zero N] [DecidableEq N] (H : NodeHasher N V)

/-- `PageWalker::new_inner`. -/
def newInner (root : N) (parentPage : Option PageId) (reconstruction : Bool) : PageWalker N where
  lastPosition := none
  position := TriePos.TriePosition.new
  parentPage
  childPageRoots := []
  root
  outputPages := []
  stack := []
  siblingStack := []
  prevNode := none
  reconstruction
  inhibitElision := false

/-- `PageWalker::new`. -/
def new (root : N) (parentPage : Option PageId) : PageWalker N := newInner root parentPage false

/-- `PageWalker::set_inhibit_elision`, of the test build. -/
def setInhibitElision (w : PageWalker N) : PageWalker N := { w with inhibitElision := true }

/-- `PageWalker::siblings`. -/
def siblings (w : PageWalker N) : List (N × Nat) := w.siblingStack

/-- `node`: the node at the position, in the page on top of the stack. -/
def node (w : PageWalker N) : Option N := do
  let stackTop ← w.stack.head?
  stackTop.page.node w.position.nodeIndex

/-- `sibling_node`. -/
def siblingNode (w : PageWalker N) : Option N := do
  let stackTop ← w.stack.head?
  stackTop.page.node (siblingIndex w.position.nodeIndex)

/-- `set_node`: writes the node and marks its slot changed, or the page cleared when both nodes
of its first layer are `TERMINATOR`. -/
def setNode (w : PageWalker N) (node : N) : Option (PageWalker N) := do
  let nodeIndex := w.position.nodeIndex
  let siblingNode ← w.siblingNode
  let stackTop ← w.stack.head?
  let page ← stackTop.page.setNode nodeIndex node
  let diff ← if w.position.isFirstLayerInPage ∧ node = terminator ∧ siblingNode = terminator then
      some stackTop.diff.setCleared
    else stackTop.diff.setChanged nodeIndex
  pure { w with stack := { stackTop with page, diff } :: w.stack.tail }

/-- `set_sibling`. -/
def setSibling (w : PageWalker N) (node : N) : Option (PageWalker N) := do
  let nodeIndex := siblingIndex w.position.nodeIndex
  let stackTop ← w.stack.head?
  let page ← stackTop.page.setNode nodeIndex node
  let diff ← stackTop.diff.setChanged nodeIndex
  pure { w with stack := { stackTop with page, diff } :: w.stack.tail }

/-- `assert_page_in_scope`, as the condition it asserts. -/
def pageInScope (w : PageWalker N) : Option PageId → Bool
  | some pageId =>
    match w.parentPage with
    | some parentPage => pageId != parentPage && pageId.isDescendantOf parentPage
    | none => true
  | none => w.parentPage.isNone

/-- The `push_updated` closure. -/
def pushUpdated (outputPages : List (PageWalkerPageOutput N)) (updated : StackPage N) :
    List (PageWalkerPageOutput N) :=
  outputPages ++ [.updated ⟨updated.pageId, updated.page, updated.totalDiff,
    updated.bucketInfo.getD .fresh⟩]

/-- The `push_reconstructed` closure: the argument of `unwrap_or` is evaluated first, so a page
without a previous children counter panics. -/
def pushReconstructed (outputPages : List (PageWalkerPageOutput N))
    (reconstructed : StackPage N) : Option (List (PageWalkerPageOutput N)) := do
  let prevChildrenLeavesCounter ← reconstructed.prevChildrenLeavesCounter
  pure (outputPages ++ [.reconstructed ⟨reconstructed.pageId, reconstructed.page,
    reconstructed.childrenLeavesCounter.getD prevChildrenLeavesCounter,
    reconstructed.totalDiff⟩])

/-- The output of a page `handle_elision_threshold` keeps. -/
def pushOutput (w : PageWalker N) (stackPage : StackPage N) : Option (PageWalker N) :=
  if w.reconstruction then do
    let outputPages ← pushReconstructed w.outputPages stackPage
    pure { w with outputPages }
  else pure { w with outputPages := pushUpdated w.outputPages stackPage }

/-- The end of `handle_elision_threshold` where the page is kept: the parent forgets its
children's leaf counts and marks the page not elided. -/
def keepPage (w : PageWalker N) (stackPage parent : StackPage N) (rest : List (StackPage N)) :
    Option (PageWalker N) := do
  let childIndex ← stackPage.pageId.childIndexAtLevel (stackPage.pageId.depth - 1)
  let parent := { parent with
    childrenLeavesCounter := none
    prevChildrenLeavesCounter := none
    elidedChildren := parent.elidedChildren.setElide childIndex false }
  pushOutput { w with stack := parent :: rest } stackPage

/-- The elision of a page in `handle_elision_threshold`: the parent's children counter, where it
has one, moves by the changes of the page's and its children's leaf counts, and the parent marks
the page elided. A page read from the hash table goes to the output cleared. -/
def elidePage (w : PageWalker N) (stackPage parent : StackPage N) (rest : List (StackPage N))
    (pageLeavesCounter childrenLeavesCounter : Nat) : Option (PageWalker N) := do
  let parent ← match parent.childrenLeavesCounter.or parent.prevChildrenLeavesCounter with
    | some parentChildrenLeavesCounter => do
      let prevPageLeavesCounter := stackPage.pageLeavesCounter.getD 0
      let pageDelta : Int := pageLeavesCounter - prevPageLeavesCounter
      let prevChildrenLeavesCounter ← stackPage.prevChildrenLeavesCounter
      let childrenDelta : Int := childrenLeavesCounter - prevChildrenLeavesCounter
      let newParentChildrenLeavesCounter : Int :=
        parentChildrenLeavesCounter + pageDelta + childrenDelta
      -- `try_into().unwrap()` into `u64`
      if newParentChildrenLeavesCounter < 0 then none
      else pure { parent with childrenLeavesCounter := some newParentChildrenLeavesCounter.toNat }
    | none => pure parent
  let childIndex ← stackPage.pageId.childIndexAtLevel (stackPage.pageId.depth - 1)
  let parent := { parent with elidedChildren := parent.elidedChildren.setElide childIndex true }
  let w := { w with stack := parent :: rest }
  if w.reconstruction then pushOutput w stackPage
  else if stackPage.bucketInfo.isSome then
    pure { w with outputPages := pushUpdated w.outputPages { stackPage with
      diff := stackPage.diff.setCleared } }
  else pure w

/-- `handle_elision_threshold`: pops the top page and outputs it, elides it, or passes its leaf
count on to its parent. -/
def handleElisionThreshold (w : PageWalker N) : Option (PageWalker N) :=
  match w.stack with
  | [] => some w
  | stackPage :: rest =>
    let stackPage := if stackPage.pageId ≠ rootPageId then
        { stackPage with page := stackPage.page.setElidedChildren stackPage.elidedChildren }
      else stackPage
    let w := { w with stack := rest }
    match rest with
    | [] => pushOutput w stackPage
    | parent :: rest =>
      -- a child of the root page is never elided
      if stackPage.pageId.parentPageId = rootPageId then pushOutput w stackPage
      else
        match stackPage.childrenLeavesCounter.or stackPage.prevChildrenLeavesCounter with
        | some childrenLeavesCounter => do
          let pageLeavesCounter ← countLeaves H stackPage.page
          let elide := decide (pageLeavesCounter + childrenLeavesCounter < PAGE_ELISION_THRESHOLD)
            && !w.inhibitElision
          if elide then
            elidePage w stackPage parent rest pageLeavesCounter childrenLeavesCounter
          else keepPage w stackPage parent rest
        | none => keepPage w stackPage parent rest

/-- `up`: leaving the first layer of a page hands the page on. -/
def up (w : PageWalker N) : Option (PageWalker N) := do
  let w ← if w.position.depthInPage = 1 then handleElisionThreshold H w else pure w
  let position ← w.position.up 1
  pure { w with position }

/-- One bit of `down`: entering a page pushes it, fresh or from the page set. -/
def downBit (pageSet : PageSet N) (fresh : Bool) (w : PageWalker N) (bit : Bool) :
    Option (PageWalker N) := do
  let w ← if w.position.isRoot then do
      let (page, pageOrigin) ← if fresh then some (pageSet.fresh rootPageId, freshOrigin)
        else pageSet.get rootPageId
      pure { w with stack := StackPage.new rootPageId page PageDiff.default pageOrigin :: w.stack }
    else if w.position.depthInPage = pageDepth then do
      let parentStackPage ← w.stack.head?
      let childPageIndex ← w.position.childPageIndex
      let childPageId ← (parentStackPage.pageId.childPageId childPageIndex).toOption
      let (page, pageOrigin) ← if fresh then some (pageSet.fresh childPageId, freshOrigin)
        else pageSet.get childPageId
      pure { w with stack := StackPage.new childPageId page PageDiff.default pageOrigin :: w.stack }
    else pure w
  let position ← w.position.down bit
  pure { w with position }

/-- `down`: move down along `bitPath`, `fresh` telling whether the pages entered are new. -/
def down (pageSet : PageSet N) (w : PageWalker N) (bitPath : List Bool) (fresh : Bool) :
    Option (PageWalker N) :=
  bitPath.foldlM (downBit pageSet fresh) w

/-- The `visit` closure `replace_terminal` passes to `build_trie`, for one command. -/
def visitWriteNode (pageSet : PageSet N) (startPosition : TriePos.TriePosition) (w : PageWalker N)
    (control : WriteNode N V) : Option (PageWalker N) := do
  let node := control.node
  let up := control.up
  let down := control.down
  -- a fresh page may hold garbage in the slot of a `TERMINATOR` child
  let w ← match control with
    | .internal internalData _ => do
      let lastBit ← w.position.peekLastBit
      let zeroSibling := if lastBit then H.nodeKind internalData.left = .terminator
        else H.nodeKind internalData.right = .terminator
      if zeroSibling then w.setSibling terminator else pure w
    | _ => pure w
  -- jump to the sibling rather than pop and push the page
  let (w, down) ← if up ∧ down ≠ [] then do
      let lastBit ← w.position.peekLastBit
      if down.head? = some !lastBit then do
        let position ← w.position.sibling
        pure ({ w with position }, down.tail)
      else do
        let w ← PageWalker.up H w
        pure (w, down)
    else if up then do
      let w ← PageWalker.up H w
      pure (w, down)
    else pure (w, down)
  let fresh := decide (w.position.depth > startPosition.depth)
  let w ← if !fresh ∧ down ≠ [] then do
      -- the first bit enters a new page only at the end of the start's page or at the root
      let w ← PageWalker.down pageSet w (down.take 1)
        (decide (w.position.depthInPage = pageDepth) || w.position.isRoot)
      PageWalker.down pageSet w (down.drop 1) true
    else PageWalker.down pageSet w down true
  if w.position.isRoot then pure { w with root := node } else w.setNode node

/-- `replace_terminal`: the sub-trie of `ops` replaces the terminal at the position. -/
def replaceTerminal (pageSet : PageSet N) (w : PageWalker N) (ops : List (KeyPath × V)) :
    Option (PageWalker N) := do
  let node ← if w.position.isRoot then pure w.root else w.node
  let w := { w with prevNode := some node }
  -- during reconstruction the walk may start from an internal node
  if !w.reconstruction then guard (H.nodeKind node ≠ .internal)
  let startPosition := w.position
  let (_, controls) ← buildTrie H w.position.depth ops
  let w ← controls.foldlM (visitWriteNode H pageSet startPosition) w
  -- `build_trie` returns to the original position
  if !w.position.isRoot then do
    let stackTop ← w.stack.head?
    let pageId ← w.position.pageId
    guard (some stackTop.pageId = pageId)
  else guard w.stack.isEmpty
  pure w

/-- `place_node`. -/
def placeNode (w : PageWalker N) (node : N) : Option (PageWalker N) :=
  if w.position.isRoot then some { w with prevNode := some w.root, root := node }
  else do
    let prevNode ← w.node
    setNode { w with prevNode := some prevNode } node

/-- `compact_step`: the node of the parent of the position, from the node there and its sibling;
a leaf that moves up is cleared from its slot. -/
def compactStep (w : PageWalker N) : Option (N × PageWalker N) := do
  let node ← w.node
  let sibling ← w.siblingNode
  let bit ← w.position.peekLastBit
  match H.nodeKind node, H.nodeKind sibling with
  | .terminator, .terminator => pure (terminator, w)
  | .leaf, .terminator => do
    let w ← w.setNode terminator
    pure (node, w)
  | .terminator, .leaf => do
    let position ← w.position.sibling
    let w ← setNode { w with position } terminator
    pure (sibling, w)
  | _, _ =>
    let nodeData : InternalData N := if bit then ⟨sibling, node⟩ else ⟨node, sibling⟩
    pure (H.hashInternal nodeData, w)

/-- The `for i in 0..compact_layers` loop of `compact_up`, from round `i` on with `n` rounds
left: compact, go up, and write the node there, or hand it on once the stack is empty. -/
def compactUpLoop (compactLayers : Nat) : Nat → Nat → PageWalker N → Option (PageWalker N)
  | _, 0, w => some w
  | i, n + 1, w => do
    let (nextNode, w) ← compactStep H w
    let w ← PageWalker.up H w
    if w.stack.isEmpty then
      match w.parentPage with
      | none => pure { w with root := nextNode }
      | some _ => pure { w with childPageRoots := w.childPageRoots ++ [(w.position, nextNode)] }
    else
      -- save the final relevant sibling
      let w ← if i = compactLayers - 1 then do
          let node ← w.node
          pure { w with siblingStack := w.siblingStack ++ [(node, w.position.depth)] }
        else pure w
      let w ← w.setNode nextNode
      compactUpLoop compactLayers (i + 1) n w

/-- `compact_up`: compact and hash up to one below where the position parts from `targetPos`,
or to the top without a target. -/
def compactUp (w : PageWalker N) (targetPos : Option TriePos.TriePosition) : Option (PageWalker N) := do
  if w.stack.isEmpty then return w
  let (w, compactLayers) ← match targetPos with
    | some targetPos => do
      let currentDepth := w.position.depth
      let sharedDepth := w.position.sharedDepth targetPos
      -- prune the siblings below the shared depth
      let keepSiblingLen := (w.siblingStack.takeWhile fun s => decide (s.2 ≤ sharedDepth)).length
      let w := { w with siblingStack := w.siblingStack.take keepSiblingLen }
      -- `current_depth - (shared_depth + 1)` panics below zero
      if currentDepth < sharedDepth + 1 then none
      let compactLayers := currentDepth - (sharedDepth + 1)
      if compactLayers = 0 then
        match w.prevNode with
        | some prevNode =>
          pure ({ w with
            prevNode := none
            siblingStack := w.siblingStack ++ [(prevNode, currentDepth)] }, compactLayers)
        | none => pure (w, compactLayers)
      else pure ({ w with prevNode := none }, compactLayers)
    | none => pure ({ w with siblingStack := [] }, w.position.depth)
  compactUpLoop H compactLayers 0 compactLayers w

/-- The loop of `build_stack` from `curAncestor` up: the pages to push, deepest first, up to and
not including `target`, and no further than the root page. -/
def buildStackLoop (pageSet : PageSet N) (target : Option PageId) (curAncestor : PageId) :
    Option (List (StackPage N)) :=
  if some curAncestor = target then some []
  else do
    let (page, pageOrigin) ← pageSet.get curAncestor
    let stackPage := StackPage.new curAncestor page PageDiff.default pageOrigin
    if _hroot : curAncestor = rootPageId then pure [stackPage]
    else
      let pushed ← buildStackLoop pageSet target curAncestor.parentPageId
      pure (stackPage :: pushed)
termination_by curAncestor.depth
decreasing_by
  rw [PageId.depth, PageId.depth, PageId.parentPageId_path _hroot, List.length_dropLast]
  have := List.length_pos_iff.mpr (PageId.path_ne_nil _hroot)
  omega

/-- The `while !self.stack.is_empty()` loop of `build_stack`; each round pops one page. -/
def popAll : Nat → PageWalker N → Option (PageWalker N)
  | 0, w => some w
  | n + 1, w => do
    let w ← handleElisionThreshold H w
    popAll n w

/-- `build_stack`: move to the position, pushing the pages from the top of the stack (or the
parent page) down to the position's page; at the root, hand on every page. -/
def buildStack (pageSet : PageSet N) (w : PageWalker N) (position : TriePos.TriePosition) :
    Option (PageWalker N) := do
  let newPageId ← position.pageId
  guard (w.pageInScope newPageId)
  let w := { w with position }
  match newPageId with
  | none => popAll H w.stack.length w
  | some pageId =>
    let target := (w.stack.head?.map (·.pageId)).or w.parentPage
    let pushed ← buildStackLoop pageSet target pageId
    pure { w with stack := pushed ++ w.stack }

/-- The move every `advance` call starts with: compact up towards the new position, which must
come after the last. -/
def compactTowards (w : PageWalker N) (newPos : TriePos.TriePosition) : Option (PageWalker N) :=
  match w.lastPosition with
  | some pos => if newPos.path > pos.path then compactUp H w (some newPos) else none
  | none => some w

/-- `advance_and_replace`. -/
def advanceAndReplace (pageSet : PageSet N) (w : PageWalker N) (newPos : TriePos.TriePosition)
    (ops : List (KeyPath × V)) : Option (PageWalker N) := do
  let w ← compactTowards H w newPos
  let w ← buildStack H pageSet { w with lastPosition := some newPos } newPos
  replaceTerminal H pageSet w ops

/-- `advance_and_place_node`. -/
def advanceAndPlaceNode (pageSet : PageSet N) (w : PageWalker N) (newPos : TriePos.TriePosition)
    (node : N) : Option (PageWalker N) := do
  let w ← compactTowards H w newPos
  let w ← buildStack H pageSet { w with lastPosition := some newPos } newPos
  w.placeNode node

/-- `advance`: move on without changing the trie. -/
def advance (w : PageWalker N) (newPos : TriePos.TriePosition) : Option (PageWalker N) := do
  let w ← compactTowards H w newPos
  let pageId ← newPos.pageId
  guard (w.pageInScope pageId)
  pure { w with lastPosition := some newPos }

/-- `conclude`: hash up to the top and hand out the root, or the nodes for the parent page. -/
def conclude (w : PageWalker N) : Option (Output N) := do
  guard !w.reconstruction
  let w ← compactUp H w none
  -- a walker that does not reconstruct outputs updated pages only
  let updatedPages ← w.outputPages.mapM fun
    | .updated updatedPage => some updatedPage
    | .reconstructed _ => none
  pure (match w.parentPage with
    | none => .root w.root updatedPages
    | some _ => .childPageRoots w.childPageRoots updatedPages)

end PageWalker

end Merkle

end Nomt

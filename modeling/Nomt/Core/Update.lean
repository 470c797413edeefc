import Nomt.Core.Trie
import Nomt.Lib.ByteOrder
import Nomt.Lib.BinarySearch

/-!
# Trie update helpers (`core/src/update.rs`)

`shared_bits`, `leaf_ops_spliced` and `build_trie`. A panic of the source (an out-of-range
slice) is `none`. The `visit` callback of `build_trie` is the list of `WriteNode` commands it is
called with, in order; the `pending_siblings` vector is a list whose head is its last element.
-/

namespace Nomt

variable {N V : Type}

/-- `shared_bits`: the number of leading bits two bit slices agree on. -/
def sharedBits (a b : List Bool) : Nat :=
  ((a.zip b).takeWhile (fun p => p.1 == p.2)).length

theorem sharedBits_le_length_left (a b : List Bool) : sharedBits a b ≤ a.length := by
  unfold sharedBits
  calc ((a.zip b).takeWhile _).length ≤ (a.zip b).length := (List.takeWhile_sublist _).length_le
    _ ≤ a.length := by rw [List.length_zip]; exact Nat.min_le_left _ _

/-- `leaf_ops_spliced`: the operations with the prior leaf spliced in where its key does not
occur, deletions (`None`) dropped. -/
def leafOpsSpliced (leaf : Option (LeafData V)) (ops : List (KeyPath × Option V)) :
    List (KeyPath × V) :=
  let spliceIndex := leaf.bind fun leaf =>
    match RustSlice.binarySearchBy ops (fun x => compare x.1 leaf.keyPath) with
    | .ok _ => none
    | .error i => some i
  let preserveValue : Option (KeyPath × Option V) :=
    match spliceIndex, leaf with
    | some _, some leaf => some (leaf.keyPath, some leaf.valueHash)
    | _, _ => none
  let spliceIndex := spliceIndex.getD 0
  (ops.take spliceIndex ++ preserveValue.toList ++ ops.drop spliceIndex).filterMap
    fun (k, o) => o.map fun value => (k, value)

/-- `WriteNode`: a node computed by `build_trie`, with the cursor move that reaches it. -/
inductive WriteNode (N V : Type)
  | leaf (up : Bool) (down : List Bool) (leafData : LeafData V) (node : N)
  | internal (internalData : InternalData N) (node : N)
  | terminator

namespace WriteNode

/-- Whether to move up a step before writing the node. -/
def up : WriteNode N V → Bool
  | .leaf up .. => up
  | .internal .. => true
  | .terminator => false

/-- What path to follow down (after going up) before writing the node. -/
def down : WriteNode N V → List Bool
  | .leaf _ down .. => down
  | _ => []

/-- The node itself. -/
def node [Zero N] : WriteNode N V → N
  | .leaf _ _ _ node => node
  | .internal _ node => node
  | .terminator => Nomt.terminator

@[simp] theorem up_internal (d : InternalData N) (n : N) : (internal d n : WriteNode N V).up = true :=
  rfl

@[simp] theorem down_internal (d : InternalData N) (n : N) :
    (internal d n : WriteNode N V).down = [] := rfl

@[simp] theorem node_internal [Zero N] (d : InternalData N) (n : N) :
    (internal d n : WriteNode N V).node = n := rfl

@[simp] theorem up_leaf (up : Bool) (down : List Bool) (l : LeafData V) (n : N) :
    (leaf up down l n : WriteNode N V).up = up := rfl

@[simp] theorem down_leaf (up : Bool) (down : List Bool) (l : LeafData V) (n : N) :
    (leaf up down l n : WriteNode N V).down = down := rfl

@[simp] theorem node_leaf [Zero N] (up : Bool) (down : List Bool) (l : LeafData V) (n : N) :
    (leaf up down l n : WriteNode N V).node = n := rfl

end WriteNode

section BuildTrie

variable [Zero N] (H : NodeHasher N V)

/-- `common_after_prefix`: the bits two keys share after the first `skip`. -/
def commonAfterPrefix (skip : Nat) (k₁ k₂ : KeyPath) : Option Nat := do
  let x ← RustSlice.rangeFrom k₁.bits skip
  let y ← RustSlice.rangeFrom k₂.bits skip
  pure (sharedBits x y)

/-- Take the pending sibling at `layer` off the left frontier, or `TERMINATOR` if the top of the
frontier is at another layer. -/
def popSiblingAt (pending : List (N × Nat)) (layer : Nat) : N × List (N × Nat) :=
  match pending with
  | (node, l) :: rest => if l = layer then (node, rest) else (terminator, pending)
  | [] => (terminator, [])

/-- The hash-up loop of `build_trie`: one internal node per bit, from the deepest up, each over
the pending sibling of its layer or `TERMINATOR`. Returns the final layer and node, the frontier
and the `WriteNode::Internal` commands. -/
def buildTrieHashUp : List Bool → Nat → N → List (N × Nat) →
    Nat × N × List (N × Nat) × List (WriteNode N V)
  | [], layer, lastNode, pending => (layer, lastNode, pending, [])
  | bit :: bits, layer, lastNode, pending =>
    let (sibling, pending) := popSiblingAt pending layer
    let internalData : InternalData N :=
      if bit then ⟨sibling, lastNode⟩ else ⟨lastNode, sibling⟩
    let node := H.hashInternal internalData
    let (layer', node', pending', writes) := buildTrieHashUp bits (layer - 1) node pending
    (layer', node', pending', .internal internalData node :: writes)

/-- The depth of a leaf below the sub-trie root and the number of layers to hash up from it,
given the bits it shares with the previous (`n1`) and the next (`n2`) key. -/
def leafDepthAndHashUp : Option Nat → Option Nat → Nat × Nat
  | none, none => (0, 0)
  | none, some n2 => (n2 + 1, 0)
  | some n1, none => (n1 + 1, n1 + 1)
  | some n1, some n2 => (max n1 n2 + 1, n1 - n2)

/-- One round of the `while let Some(b)` loop of `build_trie`, for the leaf `b` between the
previous key `a` and the next key `c`. -/
def buildTrieStep (skip : Nat) (a : Option (KeyPath × V)) (b : KeyPath × V)
    (c : Option (KeyPath × V)) (pending : List (N × Nat)) :
    Option (List (N × Nat) × List (WriteNode N V)) := do
  let n1 ← a.mapM fun x => commonAfterPrefix skip x.1 b.1
  let n2 ← c.mapM fun x => commonAfterPrefix skip x.1 b.1
  let leafData : LeafData V := ⟨b.1, b.2⟩
  let leaf := H.hashLeaf leafData
  let (leafDepth, hashUpLayers) := leafDepthAndHashUp n1 n2
  let downStart := skip + n1.getD 0
  let leafEndBit := skip + leafDepth
  let down ← RustSlice.range b.1.bits downStart leafEndBit
  let upBits ← RustSlice.range b.1.bits skip leafEndBit
  -- `layer -= 1` never goes below zero: `hashUpLayers ≤ leafDepth`
  let (layer, lastNode, pending, writes) :=
    buildTrieHashUp H (upBits.reverse.take hashUpLayers) leafDepth leaf pending
  pure ((lastNode, layer) :: pending, .leaf n1.isSome down leafData leaf :: writes)

/-- The `while let Some(b)` loop of `build_trie` over the keys from `b` on, `a` the previous. -/
def buildTrieLoop (skip : Nat) : Option (KeyPath × V) → List (KeyPath × V) → List (N × Nat) →
    Option (List (N × Nat) × List (WriteNode N V))
  | _, [], pending => some (pending, [])
  | a, b :: rest, pending => do
    let (pending, writes) ← buildTrieStep H skip a b rest.head? pending
    let (pending, writes') ← buildTrieLoop skip (some b) rest pending
    pure (pending, writes ++ writes')

/-- `build_trie`: the root of the compact sub-trie at depth `skip` holding `ops`, with the
commands passed to `visit`. -/
def buildTrie (skip : Nat) (ops : List (KeyPath × V)) : Option (N × List (WriteNode N V)) :=
  match ops with
  | [] => some (terminator, [.terminator])
  | [(k, v)] =>
    let leafData : LeafData V := ⟨k, v⟩
    some (H.hashLeaf leafData, [.leaf false [] leafData (H.hashLeaf leafData)])
  | ops => do
    let (pending, writes) ← buildTrieLoop H skip none ops []
    pure ((pending.head?.map Prod.fst).getD terminator, writes)

end BuildTrie

end Nomt

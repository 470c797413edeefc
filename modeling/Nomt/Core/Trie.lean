import Nomt.Lib.CompactTrie

/-!
# The binary Merkle trie of `nomt-core`

Types of `core/src/trie.rs` and `core/src/hasher.rs`. A key path is the 256 bits of a 32-byte key
read most significant bit first (`view_bits::<Msb0>`), so the byte-wise order of `[u8; 32]` is the
lexicographic order of the bits. Nodes and value hashes are 32-byte strings that the code only
compares and hashes; the model takes their types as parameters `N` and `V`, with the all-zero
`TERMINATOR` as `0 : N`.

The canonical trie of a set of entries is `CompactTrie.root` at the schema of a `NodeHasher`:
`subtrieRoot H S d` is `root(S, d)`, the node at depth `d` of the compact trie holding `S`.
-/

namespace Nomt

/-- `KeyPath = [u8; 32]`, as its 256 bits, most significant bit of the first byte first. -/
structure KeyPath where
  bits : List Bool
  length_bits : bits.length = 256
deriving DecidableEq

/-- The order of `[u8; 32]`: lexicographic on bytes, hence on the bits of each byte. -/
instance : LT KeyPath := ⟨fun a b => a.bits < b.bits⟩

instance (a b : KeyPath) : Decidable (a < b) := inferInstanceAs (Decidable (a.bits < b.bits))

/-- `Ord for [u8; 32]`. -/
instance : Ord KeyPath := ⟨fun a b => compareOfLessAndEq a b⟩

theorem KeyPath.lt_def {a b : KeyPath} : a < b ↔ a.bits < b.bits := Iff.rfl

theorem KeyPath.bits_injective : Function.Injective KeyPath.bits := by
  rintro ⟨a, ha⟩ ⟨b, hb⟩ h
  cases h
  rfl

namespace KeyPath

/-- Keys are of one length, so `<` is parting to the left. -/
theorem lt_iff_before {a b : KeyPath} : a < b ↔ BitString.Before a.bits b.bits :=
  BitString.before_iff_of_length_eq (by rw [a.length_bits, b.length_bits])

theorem lt_irrefl (a : KeyPath) : ¬ a < a := BitString.lt_irrefl a.bits

theorem lt_trans {a b c : KeyPath} (hab : a < b) (hbc : b < c) : a < c :=
  lt_iff_before.mpr ((lt_iff_before.mp hab).trans (lt_iff_before.mp hbc))

theorem lt_asymm {a b : KeyPath} (h : a < b) : ¬ b < a := fun h' => lt_irrefl a (lt_trans h h')

theorem ne_of_lt {a b : KeyPath} (h : a < b) : a ≠ b := by
  rintro rfl
  exact lt_irrefl a h

theorem lt_trichotomy (a b : KeyPath) : a < b ∨ a = b ∨ b < a := by
  by_cases hab : a = b
  · exact Or.inr (Or.inl hab)
  · have hbits : a.bits ≠ b.bits := fun h => hab (bits_injective h)
    rcases BitString.before_or_before_of_length_eq (by rw [a.length_bits, b.length_bits]) hbits
      with h | h
    · exact Or.inl (lt_iff_before.mpr h)
    · exact Or.inr (Or.inr (lt_iff_before.mpr h))

@[simp] theorem compare_eq_lt {a b : KeyPath} : compare a b = .lt ↔ a < b := by
  simp only [compare, compareOfLessAndEq]
  split_ifs <;> simp_all

@[simp] theorem compare_eq_eq {a b : KeyPath} : compare a b = .eq ↔ a = b := by
  simp only [compare, compareOfLessAndEq]
  split_ifs with h₁ h₂
  · simp only [false_iff]
    rintro rfl
    exact lt_irrefl a h₁
  · simp [h₂]
  · simp [h₂]

@[simp] theorem compare_eq_gt {a b : KeyPath} : compare a b = .gt ↔ b < a := by
  simp only [compare, compareOfLessAndEq]
  split_ifs with h₁ h₂
  · simp only [false_iff]
    exact lt_asymm h₁
  · simp only [false_iff]
    rw [h₂]
    exact lt_irrefl b
  · simp only [true_iff]
    rcases lt_trichotomy a b with h | h | h
    · exact absurd h h₁
    · exact absurd h h₂
    · exact h

end KeyPath

/-- The key path starting with the bits `bs` and zero after them. -/
def KeyPath.ofPrefix (bs : List Bool) : KeyPath :=
  ⟨(bs ++ List.replicate 256 false).take 256,
    by rw [List.length_take, List.length_append, List.length_replicate]; omega⟩

/-- `TERMINATOR`: the all-zero node standing for an empty sub-trie. -/
def terminator {N : Type} [Zero N] : N := 0

/-- `LeafData`: the key path and value hash a leaf node commits to. -/
structure LeafData (V : Type) where
  keyPath : KeyPath
  valueHash : V
deriving DecidableEq

/-- `InternalData`: the two children an internal node commits to. -/
structure InternalData (N : Type) where
  left : N
  right : N
deriving DecidableEq

/-- `NodeKind`. -/
inductive NodeKind
  | terminator
  | leaf
  | internal
deriving DecidableEq, Repr

/-- The `NodeHasher` trait: leaf and internal hashing and the node-kind labelling. -/
structure NodeHasher (N V : Type) where
  hashLeaf : LeafData V → N
  hashInternal : InternalData N → N
  nodeKind : N → NodeKind

/-- The contract the `NodeHasher` documentation puts on an implementation: leaves and internal
nodes are labelled by their kind, and no hash is the all-zero `TERMINATOR`. -/
structure NodeHasher.Lawful {N V : Type} [Zero N] (H : NodeHasher N V) : Prop where
  nodeKind_hashLeaf : ∀ l, H.nodeKind (H.hashLeaf l) = .leaf
  nodeKind_hashInternal : ∀ i, H.nodeKind (H.hashInternal i) = .internal
  nodeKind_terminator : H.nodeKind terminator = .terminator

/-- The nodes of the free hasher: a node is the term it hashes. -/
inductive FreeNode (V : Type)
  | terminator
  | leaf (leafData : LeafData V)
  | internal (left right : FreeNode V)
deriving DecidableEq

instance {V : Type} : Zero (FreeNode V) := ⟨.terminator⟩

/-- The free hasher: injective, and with its kinds apart, it is the ideal hash function that
collision resistance approximates. -/
def freeHasher {V : Type} : NodeHasher (FreeNode V) V where
  hashLeaf := .leaf
  hashInternal i := .internal i.left i.right
  nodeKind
    | .terminator => .terminator
    | .leaf _ => .leaf
    | .internal .. => .internal

theorem freeHasher_lawful {V : Type} : (freeHasher (V := V)).Lawful where
  nodeKind_hashLeaf _ := rfl
  nodeKind_hashInternal _ := rfl
  nodeKind_terminator := rfl

theorem freeHasher_hashLeaf_injective {V : Type} : Function.Injective (freeHasher (V := V)).hashLeaf := by
  intro a b h
  cases h
  rfl

theorem freeHasher_hashInternal_injective {V : Type} :
    Function.Injective (freeHasher (V := V)).hashInternal := by
  rintro ⟨l, r⟩ ⟨l', r'⟩ h
  cases h
  rfl

/-! ## The canonical trie -/

section Canonical

variable {N V : Type} [Zero N]

/-- The trie schema of a hasher over `(KeyPath, ValueHash)` entries. -/
def schema (H : NodeHasher N V) : CompactTrie.Schema (KeyPath × V) N where
  key e := e.1.bits
  leaf e := H.hashLeaf ⟨e.1, e.2⟩
  branch l r := H.hashInternal ⟨l, r⟩
  empty := terminator

/-- `root(S, d)`: the node at depth `d` of the compact trie holding the entries `S`. -/
def subtrieRoot (H : NodeHasher N V) (S : List (KeyPath × V)) (d : Nat) : N :=
  CompactTrie.root (schema H) (256 - d) d S

/-- The leaf and internal nodes of the compact sub-trie holding `S` at position `p` of depth
`d`, with their positions, children before parents. -/
def subtrieNodes (H : NodeHasher N V) (S : List (KeyPath × V)) (d : Nat) (p : List Bool) :
    List (List Bool × N) :=
  CompactTrie.postorder (schema H) (256 - d) d p S

end Canonical

end Nomt

import Nomt.Core.Update
import Nomt.Spec.TrieMap

/-!
# What `leaf_ops_spliced` computes

On operations in ascending key order, all below a terminal position of a map's trie,
`leaf_ops_spliced` of the leaf found there gives the entries below that position of the map after
the operations (`leafOpsSpliced_eq_below`): the leaf stays unless an operation names its key, and
deletions are dropped. The binary search finds the leaf's key, or the point between the operations
below and above it (`binarySearchBy_spec` at the comparator of keys).
-/

namespace Nomt

variable {V : Type}

section Spliced

variable {ops : List (KeyPath × Option V)}

/-- Comparing the keys of ascending operations with one key is `Less`, then `Equal`, then
`Greater`. -/
theorem monotone_compare (hops : ops.Pairwise (fun a b => a.1 < b.1)) (k : KeyPath) :
    RustSlice.Monotone ops (fun x => compare x.1 k) := by
  intro i j hi hj hij
  show (compare ops[i].1 k).ctorIdx ≤ (compare ops[j].1 k).ctorIdx
  rcases Nat.lt_or_eq_of_le hij with hlt | rfl
  · have hij' : ops[i].1 < ops[j].1 := List.pairwise_iff_getElem.mp hops i j hi hj hlt
    -- the later key compares at least as high: an equal or greater earlier key forces `Greater`
    cases hc : compare ops[i].1 k with
    | lt => exact Nat.zero_le _
    | eq =>
      have hk : ops[i].1 = k := KeyPath.compare_eq_eq.mp hc
      rw [KeyPath.compare_eq_gt.mpr (hk ▸ hij')]
      decide
    | gt =>
      have hgt : compare ops[j].1 k = .gt :=
        KeyPath.compare_eq_gt.mpr (KeyPath.lt_trans (KeyPath.compare_eq_gt.mp hc) hij')
      exact Nat.le_of_eq (congrArg Ordering.ctorIdx hgt.symm)
  · exact Nat.le_refl _

/-- An element of the spliced operations, with deletions dropped, is an operation setting its key,
read back as an entry. -/
theorem mem_filterMap_set {l : List (KeyPath × Option V)} {e : KeyPath × V} :
    e ∈ l.filterMap (fun (k, o) => o.map fun value => (k, value)) ↔ (e.1, some e.2) ∈ l := by
  rw [List.mem_filterMap]
  constructor
  · rintro ⟨⟨k, o⟩, hmem, ho⟩
    obtain ⟨v, rfl, rfl⟩ := Option.map_eq_some_iff.mp ho
    exact hmem
  · intro h
    exact ⟨(e.1, some e.2), h, rfl⟩

theorem filterMap_set_sorted {l : List (KeyPath × Option V)}
    (hl : l.Pairwise (fun a b => a.1 < b.1)) :
    (l.filterMap (fun (k, o) => o.map fun value => (k, value))).Pairwise (fun a b => a.1 < b.1) :=
  hl.filterMap _ fun ⟨k, o⟩ ⟨k', o'⟩ hkk' b hb b' hb' => by
    obtain ⟨v, -, rfl⟩ := Option.map_eq_some_iff.mp hb
    obtain ⟨v', -, rfl⟩ := Option.map_eq_some_iff.mp hb'
    exact hkk'

/-- What `leaf_ops_spliced` does with the leaf: either it keeps the operations as they are and the
leaf's key is among them, or it puts the leaf between the operations below and above its key. -/
theorem leafOpsSpliced_cases (hops : ops.Pairwise (fun a b => a.1 < b.1))
    (leaf : Option (LeafData V)) :
    (leafOpsSpliced leaf ops = ops.filterMap (fun (k, o) => o.map fun value => (k, value)) ∧
        ∀ l, leaf = some l → ∃ op ∈ ops, op.1 = l.keyPath) ∨
      ∃ l i, leaf = some l ∧
        leafOpsSpliced leaf ops = (ops.take i ++ [(l.keyPath, some l.valueHash)] ++ ops.drop i).filterMap
          (fun (k, o) => o.map fun value => (k, value)) ∧
        (∀ op ∈ ops.take i, op.1 < l.keyPath) ∧ ∀ op ∈ ops.drop i, l.keyPath < op.1 := by
  cases leaf with
  | none =>
    left
    refine ⟨?_, fun l h => by cases h⟩
    simp [leafOpsSpliced]
  | some l =>
    have hspec := RustSlice.binarySearchBy_spec (monotone_compare hops l.keyPath)
    cases hsearch : RustSlice.binarySearchBy ops (fun x => compare x.1 l.keyPath) with
    | ok i =>
      -- the leaf's key is among the operations: they are kept as they are
      left
      obtain ⟨hi, heq⟩ := hspec.1 i hsearch
      refine ⟨by simp [leafOpsSpliced, hsearch], fun l' hl' => ?_⟩
      cases hl'
      exact ⟨ops[i], List.getElem_mem hi, KeyPath.compare_eq_eq.mp heq⟩
    | error i =>
      right
      obtain ⟨hle, hlt, hgt⟩ := hspec.2 i hsearch
      refine ⟨l, i, rfl, by simp [leafOpsSpliced, hsearch], fun op hop => ?_, fun op hop => ?_⟩
      · obtain ⟨j, hj, rfl⟩ := List.getElem_of_mem hop
        rw [List.getElem_take]
        exact KeyPath.compare_eq_lt.mp (hlt j (by simp at hj; omega) (by simp at hj; omega))
      · obtain ⟨j, hj, rfl⟩ := List.getElem_of_mem hop
        rw [List.getElem_drop]
        exact KeyPath.compare_eq_gt.mp (hgt (i + j) (by simp at hj; omega) (by omega))

/-- The entries `leaf_ops_spliced` gives: those the operations set, and the leaf unless an
operation names its key. -/
theorem mem_leafOpsSpliced (hops : ops.Pairwise (fun a b => a.1 < b.1))
    (leaf : Option (LeafData V)) {e : KeyPath × V} :
    e ∈ leafOpsSpliced leaf ops ↔
      (e.1, some e.2) ∈ ops ∨ (leaf = some ⟨e.1, e.2⟩ ∧ ∀ op ∈ ops, op.1 ≠ e.1) := by
  rcases leafOpsSpliced_cases hops leaf with ⟨heq, hkey⟩ | ⟨l, i, rfl, heq, hbelow, habove⟩
  · rw [heq, mem_filterMap_set]
    refine ⟨Or.inl, fun h => h.elim id fun ⟨hl, hne⟩ => ?_⟩
    obtain ⟨op, hop, hk⟩ := hkey _ hl
    exact absurd hk (hne op hop)
  · rw [heq, mem_filterMap_set]
    -- the leaf's key is none of the operations' keys: those below are smaller, the rest larger
    have hfresh : ∀ op ∈ ops, op.1 ≠ l.keyPath := by
      intro op hop
      rw [← List.take_append_drop i ops, List.mem_append] at hop
      rcases hop with hop | hop
      · exact KeyPath.ne_of_lt (hbelow op hop)
      · exact (KeyPath.ne_of_lt (habove op hop)).symm
    have hmem : (e.1, some e.2) ∈ ops.take i ++ [(l.keyPath, some l.valueHash)] ++ ops.drop i ↔
        (e.1, some e.2) ∈ ops ∨ (e.1, some e.2) = (l.keyPath, some l.valueHash) := by
      conv_rhs => rw [← List.take_append_drop i ops]
      simp only [List.mem_append, List.mem_singleton]
      tauto
    rw [hmem]
    constructor
    · rintro (h | h)
      · exact Or.inl h
      · simp only [Prod.mk.injEq, Option.some.injEq] at h
        obtain ⟨hk, hv⟩ := h
        exact Or.inr ⟨by rw [hk, hv], fun op hop => hk ▸ hfresh op hop⟩
    · rintro (h | ⟨hl, -⟩)
      · exact Or.inl h
      · cases hl
        exact Or.inr rfl

theorem leafOpsSpliced_sorted (hops : ops.Pairwise (fun a b => a.1 < b.1))
    (leaf : Option (LeafData V)) :
    (leafOpsSpliced leaf ops).Pairwise (fun a b => a.1 < b.1) := by
  rcases leafOpsSpliced_cases hops leaf with ⟨heq, -⟩ | ⟨l, i, -, heq, hbelow, habove⟩
  · rw [heq]
    exact filterMap_set_sorted hops
  · rw [heq]
    refine filterMap_set_sorted (List.pairwise_append.mpr ⟨?_, ?_, ?_⟩)
    · -- the operations below the leaf, then the leaf
      refine List.pairwise_append.mpr ⟨hops.sublist (List.take_sublist i ops), by simp,
        fun a ha b hb => ?_⟩
      rw [List.mem_singleton.mp hb]
      exact hbelow a ha
    · exact hops.sublist (List.drop_sublist i ops)
    · intro a ha b hb
      rcases List.mem_append.mp ha with ha | ha
      · -- an operation below the leaf against one above it
        rw [← List.take_append_drop i ops] at hops
        exact List.pairwise_append.mp hops |>.2.2 a ha b hb
      · rw [List.mem_singleton.mp ha]
        exact habove b hb

/-- At a terminal position, `leaf_ops_spliced` of its leaf and of operations below it is what lies
below it in the map after the operations. -/
theorem leafOpsSpliced_eq_below {M : TrieMap V} {p : List Bool} (h1 : (M.below p).length ≤ 1)
    (hops : ops.Pairwise (fun a b => a.1 < b.1)) (hunder : ∀ op ∈ ops, p <+: op.1.bits) :
    leafOpsSpliced (M.leafAt p) ops = (M.applyOps ops).below p := by
  refine TrieMap.eq_of_mem_iff (leafOpsSpliced_sorted hops _) (TrieMap.below_sorted _ p)
    fun e => ?_
  rw [mem_leafOpsSpliced hops, TrieMap.leafAt_eq_some_iff h1, TrieMap.mem_below,
    TrieMap.mem_below, TrieMap.mem_applyOps (hops.imp KeyPath.ne_of_lt)]
  constructor
  · rintro (h | ⟨⟨he, hp⟩, hne⟩)
    · exact ⟨Or.inl h, hunder _ h⟩
    · exact ⟨Or.inr ⟨hne, he⟩, hp⟩
  · rintro ⟨h | ⟨hne, he⟩, hp⟩
    · exact Or.inl h
    · exact Or.inr ⟨⟨he, hp⟩, hne⟩

/-- On operations in ascending key order, `leaf_ops_spliced` gives the map holding the leaf, or
nothing, with the operations applied: its entries in ascending key order, each key once. -/
theorem leafOpsSpliced_eq_applyOps (leaf : Option (LeafData V)) (ops : List (KeyPath × Option V))
    (hops : ops.Pairwise (fun a b => a.1 < b.1)) :
    leafOpsSpliced leaf ops = ((TrieMap.ofLeaf leaf).applyOps ops).entries ∧
      (leafOpsSpliced leaf ops).Pairwise (fun a b => a.1 < b.1) := by
  have hsorted := leafOpsSpliced_sorted hops leaf
  refine ⟨TrieMap.eq_of_mem_iff hsorted (TrieMap.sorted _) fun e => ?_, hsorted⟩
  rw [mem_leafOpsSpliced hops, TrieMap.mem_applyOps (hops.imp KeyPath.ne_of_lt),
    TrieMap.mem_ofLeaf]
  exact or_congr_right and_comm

/-- A leaf that an operation deletes, next to an operation setting a smaller key. -/
theorem leafOpsSpliced_eq_applyOps_delete_leaf :
    leafOpsSpliced (some ⟨KeyPath.ofPrefix [true], 1⟩)
        [(KeyPath.ofPrefix [false], some 2), (KeyPath.ofPrefix [true], none)] =
      ((TrieMap.ofLeaf (some ⟨KeyPath.ofPrefix [true], 1⟩)).applyOps
        [(KeyPath.ofPrefix [false], some 2), (KeyPath.ofPrefix [true], none)]).entries ∧
    (leafOpsSpliced (some ⟨KeyPath.ofPrefix [true], 1⟩)
        [(KeyPath.ofPrefix [false], some 2), (KeyPath.ofPrefix [true], none)]).Pairwise
      (fun a b => a.1 < b.1) :=
  leafOpsSpliced_eq_applyOps _ _ (by decide)

end Spliced

end Nomt

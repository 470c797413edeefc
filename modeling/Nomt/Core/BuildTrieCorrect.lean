import Nomt.Core.Update

/-!
# `build_trie` builds the canonical compact sub-trie

`build_trie` never recurses: it places each leaf at the depth its two neighbours force and keeps a
left frontier of pending siblings. This module proves that it computes `root(S, skip)` and that its
`WriteNode` commands, followed as cursor moves from the sub-trie's position, write exactly the
leaf and internal nodes of that sub-trie, each once at its own position, children before parents.

The argument is by induction over the sub-trie: a run of keys under a position `P` (a `Segment`)
is processed as if its root were placed at `P` and then hashed up to the layer its last key's
right neighbour asks for (`buildTrieLoop_segment`). A run of two or more keys splits at its first
divergent bit into two runs; the right one's hash-up first consumes the left one's pending root
and then climbs the chain of single-child branches between the divergence and `P`
(`buildTrieHashUp_chain`).
-/

namespace Nomt

open BitString

variable {N V : Type} [Zero N]

/-! ## The cursor of the `Visited` test helper -/

namespace Visited

/-- `Visited::visit` of the `update.rs` tests: move up a step if `up()`, then down `down()`. -/
def visit (cursor : List Bool) (w : WriteNode N V) : List Bool :=
  (if w.up then cursor.dropLast else cursor) ++ w.down

/-- The positions and nodes written by a sequence of commands from a starting cursor. -/
def run : List Bool → List (WriteNode N V) → List (List Bool × N)
  | _, [] => []
  | cursor, w :: ws => (visit cursor w, w.node) :: run (visit cursor w) ws

/-- The cursor after a sequence of commands. -/
def cursor : List Bool → List (WriteNode N V) → List Bool
  | c, [] => c
  | c, w :: ws => cursor (visit c w) ws

theorem run_append (c : List Bool) (ws₁ ws₂ : List (WriteNode N V)) :
    run c (ws₁ ++ ws₂) = run c ws₁ ++ run (cursor c ws₁) ws₂ := by
  induction ws₁ generalizing c with
  | nil => rfl
  | cons w ws ih => simp [run, cursor, ih]

omit [Zero N] in
theorem cursor_append (c : List Bool) (ws₁ ws₂ : List (WriteNode N V)) :
    cursor c (ws₁ ++ ws₂) = cursor (cursor c ws₁) ws₂ := by
  induction ws₁ generalizing c with
  | nil => rfl
  | cons w ws ih => simp [cursor, ih]

omit [Zero N] in
@[simp] theorem visit_internal (c : List Bool) (d : InternalData N) (n : N) :
    visit c (WriteNode.internal d n : WriteNode N V) = c.dropLast := by
  simp [visit]

end Visited

/-! ## Shared bits -/

theorem sharedBits_eq_commonPrefixLen (a b : List Bool) :
    sharedBits a b = commonPrefixLen a b := by
  induction a generalizing b with
  | nil => simp [sharedBits]
  | cons x as ih =>
    cases b with
    | nil => simp [sharedBits]
    | cons y bs =>
      by_cases h : x = y
      · subst h
        simp [sharedBits, ← ih]
      · simp [sharedBits, h, commonPrefixLen_cons_of_ne h]

/-- On keys sharing their first `skip` bits, `common_after_prefix` is the shared length past
`skip`. -/
theorem commonAfterPrefix_eq {skip : Nat} (hskip : skip ≤ 256) {k₁ k₂ : KeyPath}
    (htake : k₁.bits.take skip = k₂.bits.take skip) :
    commonAfterPrefix skip k₁ k₂ = some (commonPrefixLen k₁.bits k₂.bits - skip) := by
  have h₁ : skip ≤ k₁.bits.length := by rw [k₁.length_bits]; exact hskip
  have h₂ : skip ≤ k₂.bits.length := by rw [k₂.length_bits]; exact hskip
  simp [commonAfterPrefix, RustSlice.rangeFrom_of_le h₁, RustSlice.rangeFrom_of_le h₂,
    sharedBits_eq_commonPrefixLen, commonPrefixLen_drop htake h₁]

/-! ## The hash-up loop -/

section HashUp

variable (H : NodeHasher N V)

theorem buildTrieHashUp_append (bs₁ bs₂ : List Bool) (layer : Nat) (node : N)
    (pending : List (N × Nat)) :
    buildTrieHashUp H (bs₁ ++ bs₂) layer node pending =
      let r₁ := buildTrieHashUp H bs₁ layer node pending
      let r₂ := buildTrieHashUp H bs₂ r₁.1 r₁.2.1 r₁.2.2.1
      (r₂.1, r₂.2.1, r₂.2.2.1, r₁.2.2.2 ++ r₂.2.2.2) := by
  induction bs₁ generalizing layer node pending with
  | nil => rfl
  | cons b bs ih => simp only [List.cons_append, buildTrieHashUp, ih, List.cons_append]

theorem popSiblingAt_of_lt {pending : List (N × Nat)} {layer : Nat}
    (h : ∀ e ∈ pending, e.2 < layer) : popSiblingAt pending layer = (terminator, pending) := by
  cases pending with
  | nil => rfl
  | cons e rest =>
    have he : e.2 ≠ layer := Nat.ne_of_lt (h e (List.mem_cons_self ..))
    simp [popSiblingAt, he]

/-- The node of a sub-trie where all its (two or more) entries share bit `d`. -/
theorem subtrieRoot_of_bit_eq {S : List (KeyPath × V)} {d : Nat} (hd : d < 256)
    (h2 : 2 ≤ S.length) {b : Bool} (hb : ∀ x ∈ S, x.1.bits.getD d false = b) :
    subtrieRoot H S d =
      H.hashInternal (if b then ⟨terminator, subtrieRoot H S (d + 1)⟩
        else ⟨subtrieRoot H S (d + 1), terminator⟩) := by
  have hfuel : 256 - d = (256 - (d + 1)) + 1 := by omega
  rw [subtrieRoot, hfuel, CompactTrie.root_of_bit_eq (schema H) h2 hb]
  cases b <;> rfl

theorem subtrieNodes_of_bit_eq {S : List (KeyPath × V)} {d : Nat} (hd : d < 256)
    (h2 : 2 ≤ S.length) {b : Bool} (hb : ∀ x ∈ S, x.1.bits.getD d false = b) (p : List Bool) :
    subtrieNodes H S d p = subtrieNodes H S (d + 1) (p ++ [b]) ++ [(p, subtrieRoot H S d)] := by
  have hfuel : 256 - d = (256 - (d + 1)) + 1 := by omega
  rw [subtrieNodes, subtrieRoot, hfuel, CompactTrie.postorder_of_bit_eq (schema H) h2 hb]
  rfl

/-- Above the divergence point of a run of keys, hashing up with no pending sibling on the way
climbs the chain of single-child branches: it reaches the run's canonical node at every layer,
writes exactly the chain's nodes, and leaves the frontier as it was. -/
theorem buildTrieHashUp_chain {S : List (KeyPath × V)} (h2 : 2 ≤ S.length) {skip j : Nat}
    (hj : skip ≤ j) {pending : List (N × Nat)} (hpending : ∀ e ∈ pending, e.2 ≤ j - skip) :
    ∀ (n : Nat) (Q : List Bool), Q.length = j + n → j + n ≤ 256 →
      (∀ x ∈ S, x.1.bits.take (j + n) = Q) →
      ∃ ws, buildTrieHashUp H ((Q.drop j).reverse) (j + n - skip) (subtrieRoot H S (j + n))
          pending = (j - skip, subtrieRoot H S j, pending, ws) ∧
        subtrieNodes H S j (Q.take j) = subtrieNodes H S (j + n) Q ++ Visited.run Q ws ∧
        Visited.cursor Q ws = Q.take j
  | 0, Q, hQ, _, _ => by
    have hQj : Q.length ≤ j := by omega
    refine ⟨[], ?_, ?_, ?_⟩ <;>
      simp [List.drop_eq_nil_of_le hQj, List.take_of_length_le hQj, buildTrieHashUp, Visited.run,
        Visited.cursor]
  | n + 1, Q, hQ, hk, hS => by
    -- the last bit of `Q` is the bit every key of the run has at depth `j + n`
    obtain ⟨Q', b, rfl⟩ : ∃ Q' b, Q = Q' ++ [b] :=
      ⟨Q.dropLast, Q.getLast (by intro h; simp [h] at hQ), (List.dropLast_append_getLast _).symm⟩
    have hQ' : Q'.length = j + n := by simp at hQ; omega
    have hS' : ∀ x ∈ S, x.1.bits.take (j + n) = Q' := by
      intro x hx
      have h := congrArg (List.take (j + n)) (hS x hx)
      rw [List.take_take, Nat.min_eq_left (by omega)] at h
      rw [h, List.take_append_of_le_length (by omega), List.take_of_length_le (by omega)]
    have hbit : ∀ x ∈ S, x.1.bits.getD (j + n) false = b := by
      intro x hx
      have h := congrArg (fun l => l[j + n]?) (hS x hx)
      simp only [List.getElem?_take, show j + n < j + (n + 1) by omega, if_true] at h
      rw [List.getD_eq_getElem?_getD, h, List.getElem?_append_right (by omega)]
      simp [hQ']
    obtain ⟨ws, hrun, hnodes, hcur⟩ := buildTrieHashUp_chain h2 hj hpending n Q' hQ' (by omega) hS'
    refine ⟨.internal (if b then ⟨terminator, subtrieRoot H S (j + (n + 1))⟩
      else ⟨subtrieRoot H S (j + (n + 1)), terminator⟩) (subtrieRoot H S (j + n)) :: ws, ?_, ?_, ?_⟩
    · have hdrop : ((Q' ++ [b]).drop j).reverse = b :: (Q'.drop j).reverse := by
        rw [List.drop_append_of_le_length (by omega)]
        simp
      have hpop : popSiblingAt pending (j + (n + 1) - skip) = (terminator, pending) :=
        popSiblingAt_of_lt (fun e he => by have := hpending e he; omega)
      have hroot := subtrieRoot_of_bit_eq H (by omega) h2 hbit
      rw [hdrop, buildTrieHashUp, hpop]
      simp only
      rw [show j + (n + 1) - skip - 1 = j + n - skip by omega,
        show j + n + 1 = j + (n + 1) by omega] at *
      rw [← hroot, hrun]
    · rw [List.take_append_of_le_length (by omega : j ≤ Q'.length), hnodes,
        subtrieNodes_of_bit_eq H (by omega) h2 hbit Q']
      simp [Visited.run]
      rfl
    · simp [Visited.cursor, hcur, List.take_append_of_le_length (by omega : j ≤ Q'.length)]

end HashUp

/-! ## One round of the loop -/

section Step

variable (H : NodeHasher N V)

/-- The layer, below the sub-trie root, where the hash-up from `b` stops: one below its divergence
from the next key `c`, or the sub-trie root itself when `b` is last. -/
def targetLayer (skip : Nat) (b : KeyPath × V) (c : Option (KeyPath × V)) : Nat :=
  (c.map fun y => commonPrefixLen y.1.bits b.1.bits - skip + 1).getD 0

theorem leafDepthAndHashUp_hashUp_le (n1 n2 : Option Nat) :
    (leafDepthAndHashUp n1 n2).2 ≤ (leafDepthAndHashUp n1 n2).1 := by
  cases n1 <;> cases n2 <;> simp [leafDepthAndHashUp]
  all_goals omega

/-- A leaf hashes up to one below its divergence from the next key. -/
theorem leafDepthAndHashUp_sub (n1 n2 : Option Nat) :
    (leafDepthAndHashUp n1 n2).1 - (leafDepthAndHashUp n1 n2).2 =
      (n2.map (· + 1)).getD 0 := by
  cases n1 <;> cases n2 <;> simp [leafDepthAndHashUp]
  all_goals omega

theorem le_leafDepthAndHashUp (n1 n2 : Option Nat) :
    n1.getD 0 ≤ (leafDepthAndHashUp n1 n2).1 := by
  cases n1 <;> cases n2 <;> simp [leafDepthAndHashUp]
  all_goals omega

theorem buildTrieLoop_cons (skip : Nat) (a : Option (KeyPath × V)) (b : KeyPath × V)
    (rest : List (KeyPath × V)) (pending : List (N × Nat)) :
    buildTrieLoop H skip a (b :: rest) pending =
      (buildTrieStep H skip a b rest.head? pending).bind fun r =>
        (buildTrieLoop H skip (some b) rest r.1).map fun r' => (r'.1, r.2 ++ r'.2) := by
  simp only [buildTrieLoop]
  cases buildTrieStep H skip a b rest.head? pending <;> simp
  cases buildTrieLoop H skip (some _) rest _ <;> simp

/-- One round of the loop for a leaf that `build_trie` places at depth `skip + d`: the leaf is
written at the end of a cursor move and then hashed up to its target layer. -/
theorem buildTrieStep_eq {skip d : Nat} (hd256 : skip + d ≤ 256) {a c : Option (KeyPath × V)}
    {b : KeyPath × V}
    (ha : ∀ x ∈ a, x.1.bits.take skip = b.1.bits.take skip)
    (hc : ∀ y ∈ c, y.1.bits.take skip = b.1.bits.take skip)
    (hdepth : (leafDepthAndHashUp (a.map fun x => commonPrefixLen x.1.bits b.1.bits - skip)
      (c.map fun y => commonPrefixLen y.1.bits b.1.bits - skip)).1 = d)
    (pending : List (N × Nat)) :
    buildTrieStep H skip a b c pending =
      let hu := buildTrieHashUp H (((b.1.bits.take (skip + d)).drop
        (skip + targetLayer skip b c)).reverse) d (H.hashLeaf ⟨b.1, b.2⟩) pending
      some ((hu.2.1, hu.1) :: hu.2.2.1,
        .leaf a.isSome ((b.1.bits.take (skip + d)).drop
          (skip + ((a.map fun x => commonPrefixLen x.1.bits b.1.bits - skip).getD 0)))
          ⟨b.1, b.2⟩ (H.hashLeaf ⟨b.1, b.2⟩) :: hu.2.2.2) := by
  have hskip : skip ≤ 256 := by omega
  have hn1 : (a.mapM fun x => commonAfterPrefix skip x.1 b.1) =
      some (a.map fun x => commonPrefixLen x.1.bits b.1.bits - skip) := by
    cases a with
    | none => rfl
    | some x => simp [commonAfterPrefix_eq hskip (ha x rfl)]
  have hn2 : (c.mapM fun y => commonAfterPrefix skip y.1 b.1) =
      some (c.map fun y => commonPrefixLen y.1.bits b.1.bits - skip) := by
    cases c with
    | none => rfl
    | some y => simp [commonAfterPrefix_eq hskip (hc y rfl)]
  generalize hn1v : (a.map fun x => commonPrefixLen x.1.bits b.1.bits - skip) = n1 at hn1 hdepth ⊢
  generalize hn2v : (c.map fun y => commonPrefixLen y.1.bits b.1.bits - skip) = n2 at hn2 hdepth
  have hlen : b.1.bits.length = 256 := b.1.length_bits
  have hle := le_leafDepthAndHashUp n1 n2
  have hhu := leafDepthAndHashUp_hashUp_le n1 n2
  have hsub := leafDepthAndHashUp_sub n1 n2
  have htarget : targetLayer skip b c = (n2.map (· + 1)).getD 0 := by
    rw [← hn2v]
    cases c <;> rfl
  generalize hp : leafDepthAndHashUp n1 n2 = p at hdepth hle hhu hsub
  obtain ⟨ld, hu⟩ := p
  simp only at hdepth hle hhu hsub
  subst hdepth
  have hdown : RustSlice.range b.1.bits (skip + n1.getD 0) (skip + ld) =
      some ((b.1.bits.take (skip + ld)).drop (skip + n1.getD 0)) :=
    RustSlice.range_of_le (by omega) (by omega)
  have hup : RustSlice.range b.1.bits skip (skip + ld) =
      some ((b.1.bits.take (skip + ld)).drop skip) :=
    RustSlice.range_of_le (by omega) (by omega)
  -- the bits hashed up are the last `hu` of the leaf's path below the sub-trie root
  have hbits : ((b.1.bits.take (skip + ld)).drop skip).reverse.take hu =
      ((b.1.bits.take (skip + ld)).drop (skip + targetLayer skip b c)).reverse := by
    rw [List.take_reverse, List.drop_drop, htarget, ← hsub]
    congr 2
    simp
    omega
  simp only [buildTrieStep, hn1, hn2, Option.bind_eq_bind, Option.bind_some, hp, hdown, hup,
    hbits]
  rw [← hn1v, Option.isSome_map]
  rfl

end Step

/-! ## Runs of keys under one position -/

section Segment

omit [Zero N]

/-- In a list sorted by `R`, the head is related to, or is, every element. -/
theorem rel_or_eq_of_head? {α : Type} {R : α → α → Prop} {l : List α} {f x : α}
    (h : l.Pairwise R) (hf : l.head? = some f) (hx : x ∈ l) : R f x ∨ f = x := by
  cases l with
  | nil => cases hf
  | cons g tl =>
    cases hf
    rcases List.mem_cons.mp hx with rfl | hx
    · exact Or.inr rfl
    · exact Or.inl ((List.pairwise_cons.mp h).1 x hx)

/-- In a list sorted by `R`, every element is related to, or is, the last. -/
theorem rel_or_eq_of_getLast? {α : Type} {R : α → α → Prop} {l : List α} {z x : α}
    (h : l.Pairwise R) (hz : l.getLast? = some z) (hx : x ∈ l) : R x z ∨ x = z := by
  rw [← List.pairwise_reverse] at h
  rw [← List.head?_reverse] at hz
  exact (rel_or_eq_of_head? h hz (List.mem_reverse.mpr hx)).imp_right Eq.symm

/-- The cursor `build_trie` leaves before the leaf after `a`: one below the divergence of `a`
from that leaf, or the sub-trie root when there is no `a`. -/
def startCursor (skip : Nat) (a : Option (KeyPath × V)) (first : KeyPath × V) : List Bool :=
  match a with
  | some x => x.1.bits.take (commonPrefixLen x.1.bits first.1.bits + 1)
  | none => first.1.bits.take skip

variable (skip : Nat)

/-- `seg`, the keys from `first` to `last`, is the whole run of keys below the position `P` of
depth `skip + d`, between the previous key `a` and the keys `rest` after it; a run of a single key
sits exactly at the depth where `build_trie` places its leaf. -/
structure Segment (d : Nat) (P : List Bool) (a : Option (KeyPath × V)) (first last : KeyPath × V)
    (seg rest : List (KeyPath × V)) : Prop where
  head : seg.head? = some first
  getLast : seg.getLast? = some last
  length_eq : P.length = skip + d
  take_eq : ∀ x ∈ seg, x.1.bits.take (skip + d) = P
  share : ∀ x ∈ a.toList ++ seg ++ rest, x.1.bits.take skip = P.take skip
  sorted : (a.toList ++ seg ++ rest).Pairwise (fun x y => x.1 < y.1)
  prev : ∀ x ∈ a, commonPrefixLen x.1.bits first.1.bits < skip + d
  next : ∀ y ∈ rest.head?, commonPrefixLen y.1.bits last.1.bits < skip + d
  single : seg = [first] →
    (leafDepthAndHashUp (a.map fun x => commonPrefixLen x.1.bits first.1.bits - skip)
      (rest.head?.map fun y => commonPrefixLen y.1.bits first.1.bits - skip)).1 = d

variable {skip}

section Facts

variable {d : Nat} {P : List Bool} {a : Option (KeyPath × V)} {first last : KeyPath × V}
  {seg rest : List (KeyPath × V)} (hs : Segment skip d P a first last seg rest)
include hs

theorem Segment.sorted_seg : seg.Pairwise (fun x y => x.1 < y.1) :=
  hs.sorted.sublist ((List.sublist_append_right _ _).trans (List.sublist_append_left _ _))

theorem Segment.first_mem : first ∈ seg := List.mem_of_mem_head? hs.head

theorem Segment.last_mem : last ∈ seg := List.mem_of_mem_getLast? hs.getLast

theorem Segment.skip_le_cpl {x y : KeyPath × V} (hx : x ∈ a.toList ++ seg ++ rest)
    (hy : y ∈ a.toList ++ seg ++ rest) : skip ≤ commonPrefixLen x.1.bits y.1.bits := by
  have hlen : P.length ≤ 256 := by
    rw [← hs.take_eq first hs.first_mem, List.length_take, first.1.length_bits]
    omega
  have hP := hs.length_eq
  refine le_commonPrefixLen_iff.mpr ⟨by rw [x.1.length_bits]; omega,
    by rw [y.1.length_bits]; omega, ?_⟩
  rw [hs.share x hx, hs.share y hy]

/-- Every key of the run lies between its first and its last key. -/
theorem Segment.take_eq_first {m : Nat} (hm : m ≤ commonPrefixLen first.1.bits last.1.bits)
    {x : KeyPath × V} (hx : x ∈ seg) : x.1.bits.take m = first.1.bits.take m := by
  have h₁ := rel_or_eq_of_head? hs.sorted_seg hs.head hx
  have h₂ := rel_or_eq_of_getLast? hs.sorted_seg hs.getLast hx
  have hlen : ∀ y z : KeyPath × V, y.1.bits.length = z.1.bits.length := fun y z => by
    simp [KeyPath.length_bits]
  refine take_eq_of_between ?_ ?_ hm
  · rcases h₁ with h | rfl
    · exact Or.inl ((before_iff_of_length_eq (hlen _ _)).mp h)
    · exact Or.inr rfl
  · rcases h₂ with h | rfl
    · exact Or.inl ((before_iff_of_length_eq (hlen _ _)).mp h)
    · exact Or.inr rfl

theorem Segment.first_lt_last (h2 : 2 ≤ seg.length) : first.1 < last.1 := by
  have hne : first ≠ last := by
    intro h
    subst h
    obtain ⟨init, hinit⟩ : ∃ init, seg = init ++ [first] :=
      ⟨seg.dropLast, (List.dropLast_append_getLast? _ hs.getLast).symm⟩
    have hinit_ne : init ≠ [] := by rintro rfl; simp [hinit] at h2
    have hhead : init.head? = some first := by
      rw [← hs.head, hinit, List.head?_append]
      cases init with
      | nil => exact absurd rfl hinit_ne
      | cons g tl => rfl
    have hsorted := hs.sorted_seg
    rw [hinit, List.pairwise_append] at hsorted
    have := hsorted.2.2 first (List.mem_of_mem_head? hhead) first (List.mem_singleton_self _)
    exact BitString.lt_irrefl first.1.bits this
  rcases rel_or_eq_of_head? hs.sorted_seg hs.head hs.last_mem with h | h
  · exact h
  · exact absurd h hne

end Facts

end Segment

section Split

variable {skip d : Nat} {P : List Bool} {a : Option (KeyPath × V)} {first last : KeyPath × V}
  {seg rest : List (KeyPath × V)} (H : NodeHasher N V)

theorem take_succ_of_side {m : Nat} {b : Bool} {x : KeyPath × V} {Q : List Bool}
    (hx : x ∈ CompactTrie.side (schema H) m b seg) (hm : m < 256)
    (hQ : x.1.bits.take m = Q) : x.1.bits.take (m + 1) = Q ++ [b] := by
  have hb := (CompactTrie.mem_side (schema H)).mp hx
  have hlt : m < x.1.bits.length := by rw [x.1.length_bits]; exact hm
  rw [List.take_add_one, hQ, List.getElem?_eq_getElem hlt]
  have := hb.2
  simp only [CompactTrie.bit, schema, List.getD_eq_getElem?_getD, List.getElem?_eq_getElem hlt,
    Option.getD_some] at this
  simp [this]

/-- A run of two or more keys splits at the first bit where its first and last key differ into a
left run ending at `l₀` and a right run starting at `f₁`, which diverge exactly there. -/
theorem Segment.split (hs : Segment skip d P a first last seg rest) (h2 : 2 ≤ seg.length) :
    let m := commonPrefixLen first.1.bits last.1.bits
    ∃ l₀ f₁ : KeyPath × V,
      CompactTrie.side (schema H) m false seg ++ CompactTrie.side (schema H) m true seg = seg ∧
      commonPrefixLen f₁.1.bits l₀.1.bits = m ∧ skip + d ≤ m ∧ m < 256 ∧
      Segment skip (m + 1 - skip) (first.1.bits.take m ++ [false]) a first l₀
        (CompactTrie.side (schema H) m false seg) (CompactTrie.side (schema H) m true seg ++ rest) ∧
      Segment skip (m + 1 - skip) (first.1.bits.take m ++ [true]) (some l₀) f₁ last
        (CompactTrie.side (schema H) m true seg) rest := by
  intro m
  set seg₀ := CompactTrie.side (schema H) m false seg with hseg₀
  set seg₁ := CompactTrie.side (schema H) m true seg with hseg₁
  have hlt := hs.first_lt_last h2
  have hlen : first.1.bits.length = last.1.bits.length := by simp [KeyPath.length_bits]
  have hm256 : m < 256 := by
    have := commonPrefixLen_lt_of_lt hlen hlt
    rwa [first.1.length_bits] at this
  have hP := hs.length_eq
  have hP256 : skip + d ≤ 256 := by
    have := congrArg List.length (hs.take_eq first hs.first_mem)
    rw [List.length_take, first.1.length_bits] at this
    omega
  have hdm : skip + d ≤ m := le_commonPrefixLen_iff.mpr ⟨by rw [first.1.length_bits]; omega,
    by rw [last.1.length_bits]; omega,
    by rw [hs.take_eq first hs.first_mem, hs.take_eq last hs.last_mem]⟩
  have hshare : ∀ x ∈ seg, x.1.bits.take m = first.1.bits.take m :=
    fun x hx => hs.take_eq_first (Nat.le_refl m) hx
  obtain ⟨hfm, hlm⟩ := (lt_iff_of_length_eq hlen).mp hlt
  have hsplit : seg₀ ++ seg₁ = seg :=
    CompactTrie.side_append_side_of_sorted (w := 256) hs.sorted_seg
      (fun x _ => x.1.length_bits) hm256 (fun x hx y hy => (hshare x hx).trans (hshare y hy).symm)
  have hbitOf : ∀ x : KeyPath × V, ∀ c, x.1.bits[m]? = some c → CompactTrie.bit (schema H) x m = c :=
    fun x c h => by simp [CompactTrie.bit, schema, List.getD_eq_getElem?_getD, h]
  have hfirst₀ : first ∈ seg₀ :=
    (CompactTrie.mem_side (schema H)).mpr ⟨hs.first_mem, hbitOf first false hfm⟩
  have hlast₁ : last ∈ seg₁ :=
    (CompactTrie.mem_side (schema H)).mpr ⟨hs.last_mem, hbitOf last true hlm⟩
  obtain ⟨l₀, hl₀⟩ : ∃ l₀, seg₀.getLast? = some l₀ :=
    ⟨seg₀.getLast (List.ne_nil_of_mem hfirst₀), List.getLast?_eq_some_getLast _⟩
  obtain ⟨f₁, hf₁⟩ : ∃ f₁, seg₁.head? = some f₁ :=
    ⟨seg₁.head (List.ne_nil_of_mem hlast₁), List.head?_eq_some_head _⟩
  have hl₀mem : l₀ ∈ seg₀ := List.mem_of_mem_getLast? hl₀
  have hf₁mem : f₁ ∈ seg₁ := List.mem_of_mem_head? hf₁
  have hmem₀ : ∀ x ∈ seg₀, x ∈ seg := fun x hx => ((CompactTrie.mem_side (schema H)).mp hx).1
  have hmem₁ : ∀ x ∈ seg₁, x ∈ seg := fun x hx => ((CompactTrie.mem_side (schema H)).mp hx).1
  have hhead₀ : seg₀.head? = some first := by
    rw [← hs.head, ← hsplit, List.head?_append]
    cases h : seg₀.head? with
    | none => simp [List.head?_eq_none_iff.mp h] at hfirst₀
    | some g => rfl
  have hlast₁' : seg₁.getLast? = some last := by
    rw [← hs.getLast, ← hsplit, List.getLast?_append]
    cases h : seg₁.getLast? with
    | none => simp [List.getLast?_eq_none_iff.mp h] at hlast₁
    | some g => rfl
  -- the two runs diverge exactly at `m`
  have hbit₀ : ∀ x ∈ seg₀, x.1.bits[m]? = some false := fun x hx => by
    have hx' := take_succ_of_side H hx hm256 (hshare x (hmem₀ x hx))
    have := congrArg (fun l => l[m]?) hx'
    simpa [List.getElem?_take, show m < m + 1 by omega, List.getElem?_append_right,
      List.length_take, first.1.length_bits, Nat.min_eq_left (Nat.le_of_lt hm256)] using this
  have hbit₁ : ∀ x ∈ seg₁, x.1.bits[m]? = some true := fun x hx => by
    have hx' := take_succ_of_side H hx hm256 (hshare x (hmem₁ x hx))
    have := congrArg (fun l => l[m]?) hx'
    simpa [List.getElem?_take, show m < m + 1 by omega, List.getElem?_append_right,
      List.length_take, first.1.length_bits, Nat.min_eq_left (Nat.le_of_lt hm256)] using this
  have hcpl : commonPrefixLen f₁.1.bits l₀.1.bits = m :=
    commonPrefixLen_eq_of_getElem? (hbit₁ f₁ hf₁mem) (hbit₀ l₀ hl₀mem) (by decide)
      ((hshare f₁ (hmem₁ f₁ hf₁mem)).trans (hshare l₀ (hmem₀ l₀ hl₀mem)).symm)
  have hdepth : skip + (m + 1 - skip) = m + 1 := by omega
  have hPskip : P.take skip = first.1.bits.take skip := by
    rw [← hs.take_eq first hs.first_mem, List.take_take, Nat.min_eq_left (by omega)]
  have hQskip : ∀ c : Bool, (first.1.bits.take m ++ [c]).take skip = P.take skip := fun c => by
    rw [List.take_append_of_le_length (by simp [first.1.length_bits]; omega), List.take_take,
      Nat.min_eq_left (by omega), hPskip]
  refine ⟨l₀, f₁, hsplit, hcpl, hdm, hm256, ?_, ?_⟩
  · refine ⟨hhead₀, hl₀, by simp [first.1.length_bits]; omega, fun x hx => ?_, fun x hx => ?_,
      ?_, fun x hx => by have := hs.prev x hx; omega, fun y hy => ?_, fun h => ?_⟩
    · rw [hdepth]
      exact take_succ_of_side H hx hm256 (hshare x (hmem₀ x hx))
    · rw [hQskip]
      apply hs.share x
      simpa [← hsplit, List.append_assoc] using hx
    · simpa [← hsplit, List.append_assoc] using hs.sorted
    · have hy' : y = f₁ := by
        cases hseg : seg₁ with
        | nil => simp [hseg] at hf₁
        | cons g tl => simp_all
      subst hy'
      omega
    · -- a single key on the left sits one below the divergence
      have hl₀eq : l₀ = first := by rw [h] at hl₀; simpa using hl₀.symm
      subst hl₀eq
      have hnext : (seg₁ ++ rest).head? = some f₁ := by simp [List.head?_append, hf₁]
      rw [hnext]
      cases a with
      | none => simp [leafDepthAndHashUp, hcpl]; omega
      | some x =>
        have := hs.prev x rfl
        simp [leafDepthAndHashUp, hcpl]
        omega
  · refine ⟨hf₁, hlast₁', by simp [first.1.length_bits]; omega, fun x hx => ?_, fun x hx => ?_,
      ?_, fun x hx => ?_, fun y hy => by have := hs.next y hy; omega, fun h => ?_⟩
    · rw [hdepth]
      exact take_succ_of_side H hx hm256 (hshare x (hmem₁ x hx))
    · rw [hQskip]
      apply hs.share x
      simp only [Option.toList_some, List.mem_append, List.mem_singleton] at hx
      rcases hx with (rfl | hx) | hx
      · simp [hmem₀ _ hl₀mem]
      · simp [hmem₁ x hx]
      · simp [hx]
    · have hsub : ([l₀] ++ seg₁ ++ rest).Sublist (a.toList ++ seg ++ rest) := by
        rw [← hsplit, List.append_assoc, List.append_assoc, List.append_assoc]
        exact ((List.singleton_sublist.mpr hl₀mem).append_right _).trans
          (List.sublist_append_right _ _)
      exact hs.sorted.sublist hsub
    · simp only [Option.mem_def, Option.some.injEq] at hx
      subst hx
      rw [commonPrefixLen_comm, hcpl]
      omega
    · -- a single key on the right sits one below the divergence
      have hf₁eq : f₁ = last := by rw [h] at hlast₁'; simpa using hlast₁'
      subst hf₁eq
      have hcpl' : commonPrefixLen l₀.1.bits f₁.1.bits = m := by rw [commonPrefixLen_comm, hcpl]
      cases hr : rest.head? with
      | none => simp [leafDepthAndHashUp, hcpl']; omega
      | some y =>
        have := hs.next y hr
        simp [leafDepthAndHashUp, hcpl']
        omega

theorem subtrieRoot_split {S : List (KeyPath × V)} {m : Nat} (hm : m < 256)
    (h2 : 2 ≤ S.length) :
    subtrieRoot H S m = H.hashInternal ⟨subtrieRoot H (CompactTrie.side (schema H) m false S) (m + 1),
      subtrieRoot H (CompactTrie.side (schema H) m true S) (m + 1)⟩ := by
  have hfuel : 256 - m = (256 - (m + 1)) + 1 := by omega
  rw [subtrieRoot, hfuel, CompactTrie.root_succ_of_two_le (schema H) h2]
  rfl

theorem subtrieNodes_split {S : List (KeyPath × V)} {m : Nat} (hm : m < 256)
    (h2 : 2 ≤ S.length) (p : List Bool) :
    subtrieNodes H S m p =
      subtrieNodes H (CompactTrie.side (schema H) m false S) (m + 1) (p ++ [false]) ++
        subtrieNodes H (CompactTrie.side (schema H) m true S) (m + 1) (p ++ [true]) ++
          [(p, subtrieRoot H S m)] := by
  have hfuel : 256 - m = (256 - (m + 1)) + 1 := by omega
  rw [subtrieNodes, subtrieRoot, hfuel, CompactTrie.postorder_succ_of_two_le (schema H) h2]
  rfl

theorem subtrieRoot_singleton (b : KeyPath × V) (d : Nat) :
    subtrieRoot H [b] d = H.hashLeaf ⟨b.1, b.2⟩ := by
  simp [subtrieRoot, schema]

theorem subtrieNodes_singleton (b : KeyPath × V) (d : Nat) (p : List Bool) :
    subtrieNodes H [b] d p = [(p, H.hashLeaf ⟨b.1, b.2⟩)] := by
  simp [subtrieNodes, schema]

/-- The hash-up from the right half of a run split at `m`: it consumes the left half's pending
root, writes the run's node at the divergence, climbs the chain of single-child branches up to
the run's position of depth `skip + d`, and goes on from there as if the run's root had been placed
at that position. -/
theorem buildTrieHashUp_right {S : List (KeyPath × V)} (h2 : 2 ≤ S.length) {skip d m e : Nat}
    (hdm : skip + d ≤ m) (hm : m < 256) (he : e ≤ d) {Q : List Bool} (hQ : Q.length = m)
    (hS : ∀ x ∈ S, x.1.bits.take m = Q) {st : List (N × Nat)} (hst : ∀ x ∈ st, x.2 ≤ d) :
    ∃ wsC, buildTrieHashUp H (((Q ++ [true]).drop (skip + e)).reverse) (m + 1 - skip)
        (subtrieRoot H (CompactTrie.side (schema H) m true S) (m + 1))
        ((subtrieRoot H (CompactTrie.side (schema H) m false S) (m + 1), m + 1 - skip) :: st) =
      (let hu := buildTrieHashUp H (((Q.take (skip + d)).drop (skip + e)).reverse) d
        (subtrieRoot H S (skip + d)) st
      (hu.1, hu.2.1, hu.2.2.1,
        .internal ⟨subtrieRoot H (CompactTrie.side (schema H) m false S) (m + 1),
          subtrieRoot H (CompactTrie.side (schema H) m true S) (m + 1)⟩ (subtrieRoot H S m) ::
          (wsC ++ hu.2.2.2))) ∧
      subtrieNodes H S (skip + d) (Q.take (skip + d)) = subtrieNodes H S m Q ++ Visited.run Q wsC ∧
      Visited.cursor Q wsC = Q.take (skip + d) := by
  have hmj : skip + d + (m - (skip + d)) = m := by omega
  obtain ⟨wsC, hrunC, hnodesC, hcurC⟩ := buildTrieHashUp_chain H h2 (j := skip + d)
    (Nat.le_add_right skip d) (fun x (hx : x ∈ st) => by have := hst x hx; omega)
    (m - (skip + d)) Q (by omega) (by omega) (by rw [hmj]; exact hS)
  rw [hmj, show skip + d - skip = d by omega] at hrunC
  rw [hmj] at hnodesC
  refine ⟨wsC, ?_, hnodesC, hcurC⟩
  -- the bits hashed up: the divergence bit, the chain up to depth `skip + d`, then the rest
  have hQsplit : Q.drop (skip + e) = (Q.take (skip + d)).drop (skip + e) ++ Q.drop (skip + d) := by
    rw [← List.drop_append_of_le_length (by simp; omega), List.take_append_drop]
  have hbits : ((Q ++ [true]).drop (skip + e)).reverse =
      true :: ((Q.drop (skip + d)).reverse ++ ((Q.take (skip + d)).drop (skip + e)).reverse) := by
    rw [List.drop_append_of_le_length (by omega), hQsplit]
    simp
  have hpop : popSiblingAt ((subtrieRoot H (CompactTrie.side (schema H) m false S) (m + 1),
      m + 1 - skip) :: st) (m + 1 - skip) =
      (subtrieRoot H (CompactTrie.side (schema H) m false S) (m + 1), st) := by
    simp [popSiblingAt]
  rw [hbits, buildTrieHashUp, hpop]
  simp only [if_true]
  rw [← subtrieRoot_split H hm h2, show m + 1 - skip - 1 = m - skip by omega,
    buildTrieHashUp_append, hrunC]

end Split

omit [Zero N] in
/-- The leaf command of a run of one key moves the cursor from `startCursor` to the run's
position. -/
theorem visit_leaf_startCursor {skip d : Nat} {P : List Bool} {a : Option (KeyPath × V)}
    {b : KeyPath × V} {rest : List (KeyPath × V)} (hs : Segment skip d P a b b [b] rest)
    (l : LeafData V) (n : N) :
    Visited.visit (startCursor skip a b) (.leaf a.isSome (P.drop
      (skip + ((a.map fun x => commonPrefixLen x.1.bits b.1.bits - skip).getD 0))) l n) = P := by
  have hP := hs.length_eq
  have htake := hs.take_eq b (List.mem_singleton_self _)
  cases a with
  | none =>
    have hPskip : P.take skip = b.1.bits.take skip := by
      rw [← htake, List.take_take, Nat.min_eq_left (by omega)]
    simp [Visited.visit, startCursor, ← hPskip]
  | some x =>
    have hlt := hs.prev x rfl
    have hle := hs.skip_le_cpl (x := x) (y := b) (by simp) (by simp)
    have hlen : commonPrefixLen x.1.bits b.1.bits < x.1.bits.length := by
      rw [x.1.length_bits]
      have := congrArg List.length htake
      rw [List.length_take, b.1.length_bits] at this
      omega
    have hcpl : x.1.bits.take (commonPrefixLen x.1.bits b.1.bits) =
        P.take (commonPrefixLen x.1.bits b.1.bits) := by
      rw [take_commonPrefixLen, ← htake, List.take_take, Nat.min_eq_left (by omega)]
    simp only [Visited.visit, startCursor, WriteNode.up_leaf, Option.isSome_some, if_true,
      WriteNode.down_leaf, Option.map_some, Option.getD_some]
    rw [List.dropLast_eq_take, List.length_take, Nat.min_eq_left (by omega), List.take_take,
      Nat.min_eq_left (by omega), show commonPrefixLen x.1.bits b.1.bits + 1 - 1 =
      commonPrefixLen x.1.bits b.1.bits by omega, hcpl,
      show skip + (commonPrefixLen x.1.bits b.1.bits - skip) = commonPrefixLen x.1.bits b.1.bits
        by omega, List.take_append_drop]

/-! ## The loop over a run of keys -/

section Loop

variable (H : NodeHasher N V) {skip : Nat}

/-- A run of keys under a position `P` of depth `skip + d` leaves the loop as if the run's
canonical root had been placed at `P` and hashed up from there to the target layer of its last
key: the loop's commands for the run write exactly the run's canonical nodes, ending at `P`, and
then the hash-up commands. The frontier must hold nothing deeper than `d`. -/
theorem buildTrieLoop_segment (hskip : skip ≤ 256) :
    ∀ (n : Nat) (seg : List (KeyPath × V)) (d : Nat) (P : List Bool) (a : Option (KeyPath × V))
      (first last : KeyPath × V) (rest : List (KeyPath × V)) (st : List (N × Nat)),
      seg.length ≤ n → Segment skip d P a first last seg rest → (∀ e ∈ st, e.2 ≤ d) →
      ∃ ws, Visited.run (startCursor skip a first) ws = subtrieNodes H seg (skip + d) P ∧
        Visited.cursor (startCursor skip a first) ws = P ∧
        buildTrieLoop H skip a (seg ++ rest) st =
          let hu := buildTrieHashUp H ((P.drop (skip + targetLayer skip last rest.head?)).reverse)
            d (subtrieRoot H seg (skip + d)) st
          (buildTrieLoop H skip (some last) rest ((hu.2.1, hu.1) :: hu.2.2.1)).map
            fun r => (r.1, ws ++ hu.2.2.2 ++ r.2)
  | 0, seg, d, P, a, first, last, rest, st, hn, hs, _ => by
    have := hs.first_mem
    simp_all
  | n + 1, seg, d, P, a, first, last, rest, st, hn, hs, hst => by
    by_cases h2 : 2 ≤ seg.length
    · -- a run of two or more keys: the left half, then the right half and the climb
      obtain ⟨l₀, f₁, hsplit, hcpl, hdm, hm256, hs₀, hs₁⟩ := hs.split H h2
      generalize hm : commonPrefixLen first.1.bits last.1.bits = m at hsplit hcpl hdm hm256 hs₀ hs₁
      have hd₀ : skip + (m + 1 - skip) = m + 1 := by omega
      have hlen₀ : (CompactTrie.side (schema H) m false seg).length ≤ n := by
        have hl := congrArg List.length hsplit
        have := List.length_pos_of_mem hs₁.first_mem
        rw [List.length_append] at hl
        omega
      have hlen₁ : (CompactTrie.side (schema H) m true seg).length ≤ n := by
        have hl := congrArg List.length hsplit
        have := List.length_pos_of_mem hs₀.first_mem
        rw [List.length_append] at hl
        omega
      obtain ⟨ws₀, hrun₀, hcur₀, hloop₀⟩ := buildTrieLoop_segment hskip n _ _ _ _ _ _ _ st hlen₀ hs₀
        (fun e he => by have := hst e he; omega)
      obtain ⟨ws₁, hrun₁, hcur₁, hloop₁⟩ := buildTrieLoop_segment hskip n _ _ _ _ _ _ _
        ((subtrieRoot H (CompactTrie.side (schema H) m false seg) (skip + (m + 1 - skip)),
          m + 1 - skip) :: st) hlen₁ hs₁
        (fun e he => by
          rcases List.mem_cons.mp he with rfl | he
          · exact Nat.le_refl _
          · have := hst e he; omega)
      rw [hd₀] at hrun₀ hloop₀ hrun₁ hloop₁
      -- the right half starts where the left half's commands leave the cursor
      have hstart₁ : startCursor skip (some l₀) f₁ = first.1.bits.take m ++ [false] := by
        have := hs₀.take_eq l₀ hs₀.last_mem
        rw [hd₀] at this
        simp only [startCursor]
        rw [commonPrefixLen_comm, hcpl, this]
      rw [hstart₁] at hrun₁ hcur₁
      have hnext : (CompactTrie.side (schema H) m true seg ++ rest).head? = some f₁ := by
        rw [List.head?_append, hs₁.head]
        rfl
      have htarget₀ : targetLayer skip l₀ (CompactTrie.side (schema H) m true seg ++ rest).head? =
          m + 1 - skip := by
        simp [targetLayer, hnext, hcpl]
        omega
      have htarget : targetLayer skip last rest.head? ≤ d := by
        cases hr : rest.head? with
        | none => simp [targetLayer]
        | some y =>
          have hlt := hs.next y hr
          have hle := hs.skip_le_cpl (x := y) (y := last)
            (by simp [List.mem_of_mem_head? hr]) (by simp [hs.last_mem])
          simp [targetLayer]
          omega
      have hQlen : (first.1.bits.take m).length = m := by simp [first.1.length_bits]; omega
      obtain ⟨wsC, hhu, hnodesC, hcurC⟩ := buildTrieHashUp_right H h2 hdm hm256 htarget hQlen
        (fun x hx => hs.take_eq_first (by omega) hx) hst
      have hP : (first.1.bits.take m).take (skip + d) = P := by
        rw [List.take_take, Nat.min_eq_left hdm, hs.take_eq first hs.first_mem]
      rw [hP] at hnodesC hcurC hhu
      refine ⟨ws₀ ++ ws₁ ++ .internal ⟨subtrieRoot H (CompactTrie.side (schema H) m false seg) (m + 1),
          subtrieRoot H (CompactTrie.side (schema H) m true seg) (m + 1)⟩ (subtrieRoot H seg m) ::
          wsC, ?_, ?_, ?_⟩
      · rw [Visited.run_append, Visited.run_append, Visited.cursor_append, hrun₀, hcur₀, hrun₁, hcur₁,
          hnodesC, subtrieNodes_split H hm256 h2]
        simp [Visited.run]
      · rw [Visited.cursor_append, Visited.cursor_append, hcur₀, hcur₁]
        simpa [Visited.cursor] using hcurC
      · have hsplit' : seg ++ rest = CompactTrie.side (schema H) m false seg ++
            (CompactTrie.side (schema H) m true seg ++ rest) := by
          rw [← List.append_assoc, hsplit]
        have hdrop₀ : (first.1.bits.take m ++ [false]).drop (m + 1) = [] :=
          List.drop_eq_nil_of_le (by simp [hQlen])
        rw [hsplit', hloop₀, htarget₀, hd₀, hdrop₀]
        dsimp only at hloop₁ ⊢
        simp only [List.reverse_nil, buildTrieHashUp]
        rw [hloop₁, hhu]
        simp [Option.map_map, Function.comp_def, List.append_assoc]
    · -- a run of one key: one round of the loop
      obtain ⟨b, rfl⟩ : ∃ b, seg = [b] :=
        List.length_eq_one_iff.mp (by have := List.length_pos_of_mem hs.first_mem; omega)
      have hfirst : first = b := by simpa using hs.head.symm
      have hlast : last = b := by simpa using hs.getLast.symm
      subst first last
      have hP := hs.length_eq
      have htake := hs.take_eq b (List.mem_singleton_self _)
      have hd256 : skip + d ≤ 256 := by
        have := congrArg List.length htake
        rw [List.length_take, b.1.length_bits] at this
        omega
      have hPskip : P.take skip = b.1.bits.take skip := by
        rw [← htake, List.take_take, Nat.min_eq_left (by omega)]
      have hstep := buildTrieStep_eq H hd256 (a := a) (c := rest.head?) (b := b)
        (fun x hx => by rw [hs.share x (by simp [Option.mem_def.mp hx]), hPskip])
        (fun y hy => by
          rw [hs.share y (by simp [List.mem_of_mem_head? hy]), hPskip])
        (hs.single rfl) st
      refine ⟨[.leaf a.isSome (P.drop
        (skip + ((a.map fun x => commonPrefixLen x.1.bits b.1.bits - skip).getD 0)))
        ⟨b.1, b.2⟩ (H.hashLeaf ⟨b.1, b.2⟩)], ?_, ?_, ?_⟩
      · simp [Visited.run, visit_leaf_startCursor hs, subtrieNodes_singleton]
      · simp [Visited.cursor, visit_leaf_startCursor hs]
      · rw [List.singleton_append, buildTrieLoop_cons, hstep, htake, subtrieRoot_singleton]
        simp

end Loop

/-! ## `build_trie` -/

section BuildTrie

variable (H : NodeHasher N V) {skip : Nat} {ops : List (KeyPath × V)} {pre : List Bool}

/-- Strictly ascending keys sharing the first `skip` bits are entries of the sub-trie at
`pre`. -/
theorem under_of_sorted (hsorted : ops.Pairwise (fun x y => x.1 < y.1))
    (hshare : ∀ x ∈ ops, x.1.bits.take skip = pre) : CompactTrie.Under (schema H) 256 pre ops where
  width x _ := x.1.length_bits
  distinct := hsorted.imp fun {x y} hxy hkey => by
    have hlt : x.1.bits < y.1.bits := hxy
    have hk : x.1.bits = y.1.bits := hkey
    rw [hk] at hlt
    exact BitString.lt_irrefl _ hlt
  under x hx := by
    rw [← hshare x hx]
    exact List.take_prefix _ _

/-- On two or more keys `build_trie` runs its loop over the whole list as one run of keys at the
sub-trie root. -/
theorem buildTrie_of_two_le (hskip : skip ≤ 256) (hsorted : ops.Pairwise (fun x y => x.1 < y.1))
    (hpre : pre.length = skip) (hshare : ∀ x ∈ ops, x.1.bits.take skip = pre)
    (h2 : 2 ≤ ops.length) :
    ∃ ws, buildTrie H skip ops = some (subtrieRoot H ops skip, ws) ∧
      Visited.run pre ws = subtrieNodes H ops skip pre ∧ Visited.cursor pre ws = pre := by
  obtain ⟨first, hfirst⟩ : ∃ f, ops.head? = some f :=
    ⟨ops.head (by rintro rfl; simp at h2), List.head?_eq_some_head _⟩
  obtain ⟨last, hlast⟩ : ∃ l, ops.getLast? = some l :=
    ⟨ops.getLast (by rintro rfl; simp at h2), List.getLast?_eq_some_getLast _⟩
  have hpreskip : pre.take skip = pre := List.take_of_length_le (by omega)
  have hs : Segment skip 0 pre none first last ops [] :=
    { head := hfirst
      getLast := hlast
      length_eq := hpre
      take_eq := fun x hx => hshare x hx
      share := fun x hx => by
        rw [hpreskip]
        exact hshare x (by simpa using hx)
      sorted := by simpa using hsorted
      prev := by simp
      next := by simp
      single := fun h => by rw [h] at h2; simp at h2 }
  have hstart : startCursor skip none first = pre := hshare first (List.mem_of_mem_head? hfirst)
  obtain ⟨ws, hrun, hcur, hloop⟩ := buildTrieLoop_segment H hskip ops.length ops 0 pre none first
    last [] [] (Nat.le_refl _) hs (by simp)
  rw [hstart] at hrun hcur
  rw [List.append_nil] at hloop
  have hloop' : buildTrieLoop H skip none ops [] = some ([(subtrieRoot H ops skip, 0)], ws) := by
    simpa [targetLayer, List.drop_eq_nil_of_le (Nat.le_of_eq hpre), buildTrieHashUp,
      buildTrieLoop] using hloop
  refine ⟨ws, ?_, hrun, hcur⟩
  obtain ⟨a, b, t, rfl⟩ : ∃ a b t, ops = a :: b :: t := by
    rcases ops with _ | ⟨a, _ | ⟨b, t⟩⟩
    · simp at h2
    · simp at h2
    · exact ⟨a, b, t, rfl⟩
  simp [buildTrie, hloop']

/-- The commands of `build_trie` and the root it returns, for strictly ascending keys sharing the
first `skip` bits: the root is `root(ops, skip)`, and the commands, followed from `pre`, write the
postorder of the canonical sub-trie (only `TERMINATOR` for no keys) and come back to `pre`. -/
theorem buildTrie_run (hskip : skip ≤ 256) (hsorted : ops.Pairwise (fun x y => x.1 < y.1))
    (hpre : pre.length = skip) (hshare : ∀ x ∈ ops, x.1.bits.take skip = pre) :
    ∃ ws, buildTrie H skip ops = some (subtrieRoot H ops skip, ws) ∧
      Visited.cursor pre ws = pre ∧ (ops = [] → ws = [.terminator]) ∧
      (ops ≠ [] → Visited.run pre ws = subtrieNodes H ops skip pre) := by
  match ops, hsorted, hshare with
  | [], _, _ =>
    exact ⟨[.terminator], by simp [buildTrie, subtrieRoot, schema],
      by simp [Visited.cursor, Visited.visit, WriteNode.up, WriteNode.down], fun _ => rfl,
      fun h => absurd rfl h⟩
  | [b], _, _ =>
    refine ⟨[.leaf false [] ⟨b.1, b.2⟩ (H.hashLeaf ⟨b.1, b.2⟩)], by simp [buildTrie,
      subtrieRoot_singleton], by simp [Visited.cursor, Visited.visit], fun h => by simp at h,
      fun _ => ?_⟩
    simp [Visited.run, Visited.visit, subtrieNodes_singleton]
  | a :: b :: t, hsorted, hshare =>
    obtain ⟨ws, hbuild, hrun, hcur⟩ := buildTrie_of_two_le H hskip hsorted hpre hshare (by simp)
    exact ⟨ws, hbuild, hcur, fun h => by simp at h, fun _ => hrun⟩

/-- `build_trie` returns the canonical compact sub-trie root `root(ops, skip)`; its commands,
followed as cursor moves from `pre`, come back to `pre`, write exactly the node positions of the
canonical sub-trie, each with the canonical node of the keys below it, each once and no position
before one below it, and write the sub-trie root last. -/
theorem buildTrie_canonical (hskip : skip ≤ 256) (hsorted : ops.Pairwise (fun x y => x.1 < y.1))
    (hpre : pre.length = skip) (hshare : ∀ x ∈ ops, x.1.bits.take skip = pre) :
    ∃ ws, buildTrie H skip ops = some (subtrieRoot H ops skip, ws) ∧
      Visited.cursor pre ws = pre ∧ (ops = [] → ws = [.terminator]) ∧
      (ops ≠ [] →
        (∀ q x, (q, x) ∈ Visited.run pre ws ↔
          CompactTrie.IsNode (schema H) pre ops q ∧
            x = subtrieRoot H (CompactTrie.below (schema H) q ops) q.length) ∧
        (Visited.run pre ws).Pairwise (fun x y => ¬ x.1 <+: y.1) ∧
        (Visited.run pre ws).getLast? = some (pre, subtrieRoot H ops skip)) := by
  obtain ⟨ws, hbuild, hcur, hnil, hrun⟩ := buildTrie_run H hskip hsorted hpre hshare
  refine ⟨ws, hbuild, hcur, hnil, fun hne => ?_⟩
  have hU := under_of_sorted H hsorted hshare
  rw [hrun hne, subtrieNodes]
  refine ⟨fun q x => ?_, CompactTrie.postorder_pairwise _ _ _ _ _, ?_⟩
  · have := CompactTrie.mem_postorder_iff (256 - skip) pre ops (by rw [hpre]) hU q x
    rwa [hpre] at this
  · exact CompactTrie.postorder_getLast? _ hne (fun h2 => by
      have := hU.length_lt h2
      omega)

/-- `build_trie` at the trie root on the keys `0x00…` and `0x80…` under the free hasher. -/
theorem buildTrie_canonical_two_keys :
    ∃ ws, buildTrie freeHasher 0 [(KeyPath.ofPrefix [], 1), (KeyPath.ofPrefix [true], 2)] =
        some (subtrieRoot freeHasher [(KeyPath.ofPrefix [], 1), (KeyPath.ofPrefix [true], 2)] 0,
          ws) ∧
      Visited.cursor [] ws = [] ∧
      ([(KeyPath.ofPrefix [], 1), (KeyPath.ofPrefix [true], 2)] = [] → ws = [.terminator]) ∧
      ([(KeyPath.ofPrefix [], 1), (KeyPath.ofPrefix [true], 2)] ≠ [] →
        (∀ q x, (q, x) ∈ Visited.run [] ws ↔
          CompactTrie.IsNode (schema freeHasher) []
            [(KeyPath.ofPrefix [], 1), (KeyPath.ofPrefix [true], 2)] q ∧
            x = subtrieRoot freeHasher (CompactTrie.below (schema freeHasher) q
              [(KeyPath.ofPrefix [], 1), (KeyPath.ofPrefix [true], 2)]) q.length) ∧
        (Visited.run [] ws).Pairwise (fun x y => ¬ x.1 <+: y.1) ∧
        (Visited.run [] ws).getLast? = some ([], subtrieRoot freeHasher
          [(KeyPath.ofPrefix [], 1), (KeyPath.ofPrefix [true], 2)] 0)) :=
  buildTrie_canonical freeHasher (by decide) (by decide) rfl (by simp)

end BuildTrie

end Nomt

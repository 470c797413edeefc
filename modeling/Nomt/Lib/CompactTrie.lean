import Nomt.Lib.BitString

/-!
# Compact binary Merkle tries

A compact binary trie over entries keyed by bit strings: an empty sub-trie is the empty node, a
sub-trie holding one entry is that entry's leaf (at the highest position where it is alone), and
any other sub-trie is a branch over its two halves. `root` gives the node at depth `d` of the
entries it is handed, `postorder` lists the leaf and branch positions of that sub-trie, children
before parents, with their nodes.

Both are structurally recursive on a fuel argument bounding the remaining depth; for keys of a
fixed width `w` the fuel `w - d` is never exhausted while two distinct entries remain.
-/

namespace CompactTrie

/-- How entries are hashed into a trie: a key path per entry, the leaf node of an entry, the
branch node over two children and the empty node. -/
structure Schema (α N : Type) where
  key : α → List Bool
  leaf : α → N
  branch : N → N → N
  empty : N

variable {α N : Type} (σ : Schema α N)

/-- Bit `d` of an entry's key path (`false` beyond its end). -/
def bit (a : α) (d : Nat) : Bool := (σ.key a).getD d false

/-- The entries whose key has bit `b` at depth `d`. -/
def side (d : Nat) (b : Bool) (S : List α) : List α := S.filter (fun a => bit σ a d == b)

/-- The node of the compact sub-trie holding `S` at depth `d`, with fuel `n`. -/
def root : Nat → Nat → List α → N
  | _, _, [] => σ.empty
  | _, _, [a] => σ.leaf a
  | 0, _, _ :: _ :: _ => σ.empty
  | n + 1, d, S@(_ :: _ :: _) =>
    σ.branch (root n (d + 1) (side σ d false S)) (root n (d + 1) (side σ d true S))

/-- The leaf and branch nodes of the compact sub-trie holding `S` at position `p` (of depth `d`),
each with its position, children before parents. -/
def postorder : Nat → Nat → List Bool → List α → List (List Bool × N)
  | _, _, _, [] => []
  | _, _, p, [a] => [(p, σ.leaf a)]
  | 0, _, _, _ :: _ :: _ => []
  | n + 1, d, p, S@(_ :: _ :: _) =>
    postorder n (d + 1) (p ++ [false]) (side σ d false S) ++
      postorder n (d + 1) (p ++ [true]) (side σ d true S) ++ [(p, root σ (n + 1) d S)]

@[simp] theorem root_nil (n d : Nat) : root σ n d [] = σ.empty := by
  cases n <;> rfl

@[simp] theorem root_singleton (n d : Nat) (a : α) : root σ n d [a] = σ.leaf a := by
  cases n <;> rfl

theorem root_succ_of_two_le {n d : Nat} {S : List α} (h : 2 ≤ S.length) :
    root σ (n + 1) d S =
      σ.branch (root σ n (d + 1) (side σ d false S)) (root σ n (d + 1) (side σ d true S)) := by
  match S, h with
  | _ :: _ :: _, _ => rfl

@[simp] theorem postorder_nil (n d : Nat) (p : List Bool) : postorder σ n d p [] = [] := by
  cases n <;> rfl

@[simp] theorem postorder_singleton (n d : Nat) (p : List Bool) (a : α) :
    postorder σ n d p [a] = [(p, σ.leaf a)] := by
  cases n <;> rfl

theorem postorder_succ_of_two_le {n d : Nat} {p : List Bool} {S : List α}
    (h : 2 ≤ S.length) :
    postorder σ (n + 1) d p S =
      postorder σ n (d + 1) (p ++ [false]) (side σ d false S) ++
        postorder σ n (d + 1) (p ++ [true]) (side σ d true S) ++ [(p, root σ (n + 1) d S)] := by
  match S, h with
  | _ :: _ :: _, _ => rfl

/-! ## Sides of a sub-trie -/

theorem side_eq_self {d : Nat} {b : Bool} {S : List α} (h : ∀ a ∈ S, bit σ a d = b) :
    side σ d b S = S := by
  simp only [side]
  exact List.filter_eq_self.mpr (by simpa using h)

theorem side_eq_nil {d : Nat} {b : Bool} {S : List α} (h : ∀ a ∈ S, bit σ a d = b) :
    side σ d (!b) S = [] := by
  simp only [side]
  exact List.filter_eq_nil_iff.mpr (by intro a ha; simp [h a ha])

theorem side_cons (d : Nat) (b : Bool) (x : α) (xs : List α) :
    side σ d b (x :: xs) = if bit σ x d = b then x :: side σ d b xs else side σ d b xs := by
  by_cases h : bit σ x d = b <;> simp [side, h]

theorem mem_side {d : Nat} {b : Bool} {S : List α} {a : α} :
    a ∈ side σ d b S ↔ a ∈ S ∧ bit σ a d = b := by
  simp [side]

/-- The two sides of a sub-trie hold all its entries. -/
theorem length_side_add (d : Nat) (b : Bool) (S : List α) :
    S.length = (side σ d b S).length + (side σ d (!b) S).length := by
  rw [side, side, List.length_eq_length_filter_add (fun a => bit σ a d == b)]
  congr 2
  refine List.filter_congr fun a _ => ?_
  cases bit σ a d <;> cases b <;> rfl

/-- Below the divergence point of its entries, a sub-trie is a chain of branches whose other
child is empty. -/
theorem root_of_bit_eq {n d : Nat} {b : Bool} {S : List α} (h2 : 2 ≤ S.length)
    (h : ∀ a ∈ S, bit σ a d = b) :
    root σ (n + 1) d S =
      if b then σ.branch σ.empty (root σ n (d + 1) S)
      else σ.branch (root σ n (d + 1) S) σ.empty := by
  rw [root_succ_of_two_le σ h2]
  cases b
  · have hne := side_eq_nil σ h
    simp only [Bool.not_false] at hne
    simp [side_eq_self σ h, hne]
  · have hne := side_eq_nil σ h
    simp only [Bool.not_true] at hne
    simp [side_eq_self σ h, hne]

theorem postorder_of_bit_eq {n d : Nat} {b : Bool} {p : List Bool} {S : List α}
    (h2 : 2 ≤ S.length) (h : ∀ a ∈ S, bit σ a d = b) :
    postorder σ (n + 1) d p S =
      postorder σ n (d + 1) (p ++ [b]) S ++ [(p, root σ (n + 1) d S)] := by
  rw [postorder_succ_of_two_le σ h2]
  cases b
  · have hne := side_eq_nil σ h
    simp only [Bool.not_false] at hne
    simp [side_eq_self σ h, hne]
  · have hne := side_eq_nil σ h
    simp only [Bool.not_true] at hne
    simp [side_eq_self σ h, hne]

/-! ## Sorted entries

Entries strictly ascending by key, with keys of one width, form contiguous sub-tries: below a
shared prefix the entries with bit `0` come first. -/

section Sorted

variable {σ}

/-- A list splits into the entries with bit `0` at depth `d` followed by those with bit `1` when
no entry with bit `1` comes before one with bit `0`. -/
theorem side_append_side {d : Nat} {S : List α}
    (h : S.Pairwise (fun x y => bit σ y d = false → bit σ x d = false)) :
    side σ d false S ++ side σ d true S = S := by
  induction S with
  | nil => rfl
  | cons x xs ih =>
    rw [List.pairwise_cons] at h
    obtain ⟨hx, hxs⟩ := h
    cases hbx : bit σ x d
    · rw [side_cons, side_cons, if_pos hbx, if_neg (by simp [hbx]), List.cons_append, ih hxs]
    · -- everything after an entry with bit `1` has bit `1`
      have hall : ∀ y ∈ xs, bit σ y d = true := by
        intro y hy
        by_contra hy'
        have := hx y hy (by simpa using hy')
        rw [hbx] at this
        cases this
      have hfalse : side σ d false xs = [] := by
        simpa using side_eq_nil σ (b := true) hall
      rw [side_cons, side_cons, if_neg (by simp [hbx]), if_pos hbx, hfalse, side_eq_self σ hall,
        List.nil_append]

/-- Sorted entries sharing their first `d` bits split at bit `d` into a prefix and a suffix. -/
theorem side_append_side_of_sorted {w d : Nat} {S : List α}
    (hsorted : S.Pairwise (fun x y => σ.key x < σ.key y))
    (hwidth : ∀ x ∈ S, (σ.key x).length = w) (hd : d < w)
    (hshare : ∀ x ∈ S, ∀ y ∈ S, (σ.key x).take d = (σ.key y).take d) :
    side σ d false S ++ side σ d true S = S := by
  apply side_append_side
  refine List.Pairwise.imp_of_mem ?_ hsorted
  intro x y hx hy hxy hby
  have hlen : (σ.key x).length = (σ.key y).length := by rw [hwidth x hx, hwidth y hy]
  -- `x` and `y` share `d` bits, so they diverge at or after `d`
  have hle : d ≤ BitString.commonPrefixLen (σ.key x) (σ.key y) :=
    BitString.le_commonPrefixLen_iff.mpr ⟨by rw [hwidth x hx]; omega, by rw [hwidth y hy]; omega,
      hshare x hx y hy⟩
  obtain ⟨hx', hy'⟩ := (BitString.lt_iff_of_length_eq hlen).mp hxy
  rcases Nat.lt_or_eq_of_le hle with hlt | heq
  · have := BitString.getElem?_eq_of_lt_commonPrefixLen hlt
    simp only [bit, List.getD_eq_getElem?_getD] at hby ⊢
    rw [this]
    exact hby
  · simp only [bit, List.getD_eq_getElem?_getD] at hby
    rw [heq, hy'] at hby
    cases hby

end Sorted

/-! ## The nodes of a compact sub-trie

The positions `postorder` lists are the node positions of the compact sub-trie: a branch wherever
two or more entries lie below a position, a leaf where one entry lies below it and its parent
holds more, each node being the sub-trie of the entries below it (`mem_postorder_iff`). They are
listed once each, no position before one it is a prefix of (`postorder_pairwise`), and the root
comes last (`postorder_getLast?`). -/

/-- The entries below position `p`: those whose key extends `p`. -/
def below (p : List Bool) (S : List α) : List α := S.filter (fun a => p.isPrefixOf (σ.key a))

/-- `q` is a node position of the compact sub-trie at `p₀` holding `S`. -/
def IsNode (p₀ : List Bool) (S : List α) (q : List Bool) : Prop :=
  p₀ <+: q ∧ (2 ≤ (below σ q S).length ∨
    ((below σ q S).length = 1 ∧ (q = p₀ ∨ 2 ≤ (below σ q.dropLast S).length)))

instance (p₀ : List Bool) (S : List α) (q : List Bool) : Decidable (IsNode σ p₀ S q) :=
  inferInstanceAs (Decidable (_ ∧ _))

theorem mem_below {p : List Bool} {S : List α} {a : α} :
    a ∈ below σ p S ↔ a ∈ S ∧ p <+: σ.key a := by
  simp [below, List.isPrefixOf_iff_prefix]

theorem below_of_forall {p : List Bool} {S : List α} (h : ∀ a ∈ S, p <+: σ.key a) :
    below σ p S = S := by
  simp only [below]
  exact List.filter_eq_self.mpr (by simpa [List.isPrefixOf_iff_prefix] using h)

theorem bit_of_append_prefix {p : List Bool} {b : Bool} {a : α} (h : p ++ [b] <+: σ.key a) :
    bit σ a p.length = b := by
  obtain ⟨t, ht⟩ := h
  simp [bit, ← ht, List.getD_eq_getElem?_getD]

theorem append_prefix_of_bit {p : List Bool} {b : Bool} {a : α} (h : p <+: σ.key a)
    (hlen : p.length < (σ.key a).length) (hb : bit σ a p.length = b) : p ++ [b] <+: σ.key a := by
  obtain ⟨t, ht⟩ := h
  cases t with
  | nil => simp [← ht] at hlen
  | cons c t =>
    have hc : c = b := by simpa [bit, ← ht, List.getD_eq_getElem?_getD] using hb
    exact ⟨t, by simp [← ht, hc]⟩

/-- Below a position that fixes bit `p.length` to `b`, only the entries on side `b` remain. -/
theorem below_side {p q : List Bool} {b : Bool} {S : List α} (hq : p ++ [b] <+: q) :
    below σ q (side σ p.length b S) = below σ q S := by
  simp only [below, side, List.filter_filter]
  refine List.filter_congr fun a _ => ?_
  by_cases h : q <+: σ.key a
  · have hb := bit_of_append_prefix σ (hq.trans h)
    simp [List.isPrefixOf_iff_prefix.mpr h, hb]
  · have : q.isPrefixOf (σ.key a) = false :=
      Bool.eq_false_iff.mpr fun h' => h (List.isPrefixOf_iff_prefix.mp h')
    simp [this]

/-- A proper extension of `l` goes on from `l` with one bit: the first it adds. -/
theorem append_getD_isPrefix {l q : List Bool} (h : l <+: q) (hne : q ≠ l) :
    l ++ [q.getD l.length false] <+: q := by
  obtain ⟨t, rfl⟩ := h
  cases t with
  | nil => simp at hne
  | cons c t => exact ⟨t, by simp⟩

theorem eq_or_prefix_dropLast {l q : List Bool} (h : l <+: q) : q = l ∨ l <+: q.dropLast := by
  obtain ⟨t, rfl⟩ := h
  rcases List.eq_nil_or_concat t with rfl | ⟨t', c, rfl⟩
  · exact Or.inl (by simp)
  · exact Or.inr ⟨t', by simp [← List.append_assoc]⟩

/-- The entries of a sub-trie: keys of width `w`, pairwise distinct, all below `p₀`. -/
structure Under (w : Nat) (p₀ : List Bool) (S : List α) : Prop where
  width : ∀ a ∈ S, (σ.key a).length = w
  distinct : S.Pairwise (fun a b => σ.key a ≠ σ.key b)
  under : ∀ a ∈ S, p₀ <+: σ.key a

section Under

variable {σ} {w : Nat} {p₀ : List Bool} {S : List α}

theorem Under.below_eq (hU : Under σ w p₀ S) : below σ p₀ S = S := below_of_forall σ hU.under

/-- Two distinct keys of width `w` below `p₀` leave at least one bit below it. -/
theorem Under.length_lt (hU : Under σ w p₀ S) (h2 : 2 ≤ S.length) : p₀.length < w := by
  match S, h2 with
  | a :: b :: t, _ =>
    have hab := (List.pairwise_cons.mp hU.distinct).1 b (by simp)
    have ha := hU.under a (by simp)
    have hb := hU.under b (by simp)
    by_contra hw
    have hwa := hU.width a (by simp)
    have hwb := hU.width b (by simp)
    have hpa := ha.eq_of_length (by have := ha.length_le; omega)
    have hpb := hb.eq_of_length (by have := hb.length_le; omega)
    exact hab (hpa.symm.trans hpb)

theorem Under.onSide (hU : Under σ w p₀ S) (hw : p₀.length < w) (b : Bool) :
    Under σ w (p₀ ++ [b]) (side σ p₀.length b S) where
  width a ha := hU.width a ((mem_side σ).mp ha).1
  distinct := hU.distinct.sublist List.filter_sublist
  under a ha := by
    obtain ⟨ha, hb⟩ := (mem_side σ).mp ha
    exact append_prefix_of_bit σ (hU.under a ha) (by rw [hU.width a ha]; exact hw) hb

/-- A position past `p₀ ++ [b]` is a node of the sub-trie at `p₀` exactly when it is a node of
the side-`b` sub-trie at `p₀ ++ [b]`. -/
theorem Under.isNode_side_iff (hU : Under σ w p₀ S) (h2 : 2 ≤ S.length) {b : Bool}
    {q : List Bool} (hbq : p₀ ++ [b] <+: q) :
    IsNode σ (p₀ ++ [b]) (side σ p₀.length b S) q ↔ IsNode σ p₀ S q := by
  have hpq : p₀ <+: q := (List.prefix_append _ _).trans hbq
  have hne : q ≠ p₀ := by
    rintro rfl
    have := hbq.length_le
    simp only [List.length_append, List.length_singleton] at this
    omega
  unfold IsNode
  rw [below_side σ hbq]
  rcases eq_or_prefix_dropLast hbq with rfl | hdrop
  · simp [hne, hU.below_eq, h2]
  · have hne' : q ≠ p₀ ++ [b] := by
      rintro rfl
      have := hdrop.length_le
      simp only [List.dropLast_concat, List.length_append, List.length_singleton] at this
      omega
    rw [below_side σ hdrop]
    simp [hbq, hpq, hne, hne']

/-- The node positions of a sub-trie of two or more entries: its root and the node positions of
its two sides. -/
theorem Under.isNode_iff (hU : Under σ w p₀ S) (h2 : 2 ≤ S.length) {q : List Bool} :
    IsNode σ p₀ S q ↔ q = p₀ ∨ IsNode σ (p₀ ++ [false]) (side σ p₀.length false S) q ∨
      IsNode σ (p₀ ++ [true]) (side σ p₀.length true S) q := by
  constructor
  · rintro hq
    by_cases hqp : q = p₀
    · exact Or.inl hqp
    · have hbq := append_getD_isPrefix hq.1 hqp
      cases hb : q.getD p₀.length false
      · rw [hb] at hbq
        exact Or.inr (Or.inl ((hU.isNode_side_iff h2 hbq).mpr hq))
      · rw [hb] at hbq
        exact Or.inr (Or.inr ((hU.isNode_side_iff h2 hbq).mpr hq))
  · rintro (rfl | hq | hq)
    · exact ⟨List.prefix_refl _, Or.inl (by rw [hU.below_eq]; exact h2)⟩
    · exact (hU.isNode_side_iff h2 hq.1).mp hq
    · exact (hU.isNode_side_iff h2 hq.1).mp hq

/-- `postorder` lists exactly the node positions of the compact sub-trie, each with the sub-trie
of the entries below it. -/
theorem mem_postorder_iff : ∀ (n : Nat) (p₀ : List Bool) (S : List α), n = w - p₀.length →
    Under σ w p₀ S → ∀ q x, (q, x) ∈ postorder σ n p₀.length p₀ S ↔
      IsNode σ p₀ S q ∧ x = root σ (w - q.length) q.length (below σ q S)
  | _, p₀, [], _, _, q, x => by simp [IsNode, below]
  | _, p₀, [a], _, hU, q, x => by
    have hb : below σ p₀ [a] = [a] := hU.below_eq
    rw [postorder_singleton]
    simp only [List.mem_singleton, Prod.mk.injEq]
    constructor
    · rintro ⟨rfl, rfl⟩
      exact ⟨⟨List.prefix_refl _, Or.inr ⟨by simp [hb], Or.inl rfl⟩⟩, by simp [hb]⟩
    · rintro ⟨⟨hpq, h⟩, rfl⟩
      have hle : ∀ r, (below σ r [a]).length ≤ 1 := fun r => List.length_filter_le _ _
      have hq : q = p₀ := by
        rcases h with h | ⟨-, h | h⟩
        · have := hle q; omega
        · exact h
        · have := hle q.dropLast; omega
      subst hq
      simp [hb]
  | 0, p₀, a :: b :: t, hn, hU, q, x => by
    have := hU.length_lt (by simp)
    omega
  | n + 1, p₀, a :: b :: t, hn, hU, q, x => by
    have h2 : 2 ≤ (a :: b :: t).length := by simp
    have hw := hU.length_lt h2
    have ih₀ := mem_postorder_iff n (p₀ ++ [false]) _ (by simp; omega) (hU.onSide hw false)
    have ih₁ := mem_postorder_iff n (p₀ ++ [true]) _ (by simp; omega) (hU.onSide hw true)
    simp only [List.length_append, List.length_singleton] at ih₀ ih₁
    rw [postorder_succ_of_two_le σ h2]
    simp only [List.mem_append, List.mem_singleton, Prod.mk.injEq, ih₀, ih₁]
    constructor
    · rintro ((⟨hq, rfl⟩ | ⟨hq, rfl⟩) | ⟨rfl, rfl⟩)
      · exact ⟨(hU.isNode_iff h2).mpr (Or.inr (Or.inl hq)), by rw [below_side σ hq.1]⟩
      · exact ⟨(hU.isNode_iff h2).mpr (Or.inr (Or.inr hq)), by rw [below_side σ hq.1]⟩
      · exact ⟨(hU.isNode_iff h2).mpr (Or.inl rfl), by rw [hU.below_eq, hn]⟩
    · rintro ⟨hq, rfl⟩
      rcases (hU.isNode_iff h2).mp hq with rfl | hq | hq
      · exact Or.inr ⟨rfl, by rw [hU.below_eq, hn]⟩
      · exact Or.inl (Or.inl ⟨hq, by rw [below_side σ hq.1]⟩)
      · exact Or.inl (Or.inr ⟨hq, by rw [below_side σ hq.1]⟩)

end Under

theorem prefix_of_mem_postorder : ∀ (n d : Nat) (p : List Bool) (S : List α),
    ∀ e ∈ postorder σ n d p S, p <+: e.1
  | _, _, _, [], e, he => by simp at he
  | _, _, p, [a], e, he => by
    rw [postorder_singleton, List.mem_singleton] at he
    subst he
    exact List.prefix_refl _
  | 0, _, _, _ :: _ :: _, e, he => by simp [postorder] at he
  | n + 1, d, p, a :: b :: t, e, he => by
    rw [postorder_succ_of_two_le σ (by simp)] at he
    simp only [List.mem_append, List.mem_singleton] at he
    rcases he with (he | he) | rfl
    · exact (List.prefix_append _ _).trans (prefix_of_mem_postorder n _ _ _ e he)
    · exact (List.prefix_append _ _).trans (prefix_of_mem_postorder n _ _ _ e he)
    · exact List.prefix_refl _

/-- Positions on different sides of a branch are not prefixes of one another. -/
theorem not_prefix_of_sides {p x y : List Bool} (hx : p ++ [false] <+: x) (hy : p ++ [true] <+: y) :
    ¬ x <+: y := by
  intro hxy
  have hfy := hx.trans hxy
  have heq : p ++ [false] = p ++ [true] :=
    (List.prefix_of_prefix_length_le hfy hy (by simp)).eq_of_length (by simp)
  simp at heq

/-- No position of `postorder` comes before one of its prefixes, nor occurs twice: children come
before their parents. -/
theorem postorder_pairwise : ∀ (n d : Nat) (p : List Bool) (S : List α),
    (postorder σ n d p S).Pairwise (fun x y => ¬ x.1 <+: y.1)
  | _, _, _, [] => by simp
  | _, _, p, [a] => by simp
  | 0, _, _, _ :: _ :: _ => by simp [postorder]
  | n + 1, d, p, a :: b :: t => by
    rw [postorder_succ_of_two_le σ (by simp)]
    have hlong : ∀ (c : Bool) (e : List Bool × N), e ∈ postorder σ n (d + 1) (p ++ [c])
        (side σ d c (a :: b :: t)) → ¬ e.1 <+: p := fun c e he hep => by
      have := ((prefix_of_mem_postorder σ _ _ _ _ e he).trans hep).length_le
      simp only [List.length_append, List.length_singleton] at this
      omega
    rw [List.pairwise_append, List.pairwise_append]
    refine ⟨⟨postorder_pairwise n _ _ _, postorder_pairwise n _ _ _, fun x hx y hy => ?_⟩,
      by simp, fun x hx y hy => ?_⟩
    · exact not_prefix_of_sides (prefix_of_mem_postorder σ _ _ _ _ x hx)
        (prefix_of_mem_postorder σ _ _ _ _ y hy)
    · rw [List.mem_singleton] at hy
      subst hy
      rcases List.mem_append.mp hx with hx | hx
      · exact hlong false x hx
      · exact hlong true x hx

/-- The root of a non-empty sub-trie comes last, given fuel for a branch. -/
theorem postorder_getLast? {n d : Nat} {p : List Bool} {S : List α} (hS : S ≠ [])
    (hfuel : 2 ≤ S.length → 0 < n) :
    (postorder σ n d p S).getLast? = some (p, root σ n d S) := by
  match n, S, hS with
  | _, [a], _ => simp
  | 0, _ :: _ :: _, _ => simp at hfuel
  | n + 1, a :: b :: t, _ =>
    rw [postorder_succ_of_two_le σ (by simp)]
    simp

end CompactTrie

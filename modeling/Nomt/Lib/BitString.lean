import Mathlib.Data.List.Basic
import Mathlib.Order.Basic

/-!
# Bit strings: shared prefixes and the lexicographic order

Keys and trie positions are bit strings, most significant bit first. This module proves the
facts that every left-to-right trie algorithm rests on:

* `commonPrefixLen a b` is the length of the longest common prefix, and the first bit after it
  tells the lexicographic order (`lt_iff_commonPrefixLen`);
* of three strings parting left to right (`Before`), the outer two share exactly the shorter of
  the two shared prefixes, and those two are never equal (`commonPrefixLen_outer`);
* a strictly ascending list whose ends share a prefix shares it everywhere
  (`take_eq_of_between`);
* `compare` agrees with the order (`compare_eq_lt_iff`), and a string whose first bits are below
  a prefix is below every string with that prefix (`lt_of_take_lt`).
-/

namespace BitString

variable {α : Type} [DecidableEq α]

/-- The length of the longest common prefix of two lists. -/
def commonPrefixLen : List α → List α → Nat
  | a :: as, b :: bs => if a = b then commonPrefixLen as bs + 1 else 0
  | _, _ => 0

@[simp] theorem commonPrefixLen_nil_left (b : List α) : commonPrefixLen [] b = 0 := rfl

@[simp] theorem commonPrefixLen_nil_right (a : List α) : commonPrefixLen a [] = 0 := by
  cases a <;> rfl

@[simp] theorem commonPrefixLen_cons_self (x : α) (as bs : List α) :
    commonPrefixLen (x :: as) (x :: bs) = commonPrefixLen as bs + 1 := by
  simp [commonPrefixLen]

theorem commonPrefixLen_cons_of_ne {x y : α} (h : x ≠ y) (as bs : List α) :
    commonPrefixLen (x :: as) (y :: bs) = 0 := by
  simp [commonPrefixLen, h]

theorem commonPrefixLen_comm (a b : List α) : commonPrefixLen a b = commonPrefixLen b a := by
  induction a generalizing b with
  | nil => simp
  | cons x as ih =>
    cases b with
    | nil => simp
    | cons y bs =>
      by_cases h : x = y
      · subst h
        simp [ih]
      · rw [commonPrefixLen_cons_of_ne h, commonPrefixLen_cons_of_ne (Ne.symm h)]

theorem commonPrefixLen_le_left (a b : List α) : commonPrefixLen a b ≤ a.length := by
  induction a generalizing b with
  | nil => simp
  | cons x as ih =>
    cases b with
    | nil => simp
    | cons y bs =>
      by_cases h : x = y
      · subst h
        simpa using ih bs
      · simp [commonPrefixLen_cons_of_ne h]

theorem commonPrefixLen_le_right (a b : List α) : commonPrefixLen a b ≤ b.length :=
  commonPrefixLen_comm a b ▸ commonPrefixLen_le_left b a

@[simp] theorem commonPrefixLen_self (a : List α) : commonPrefixLen a a = a.length := by
  induction a with
  | nil => rfl
  | cons x as ih => simp [ih]

/-- A prefix is shared up to length `k` exactly when `k` is at most the shared length. -/
theorem le_commonPrefixLen_iff {a b : List α} {k : Nat} :
    k ≤ commonPrefixLen a b ↔ k ≤ a.length ∧ k ≤ b.length ∧ a.take k = b.take k := by
  induction a generalizing b k with
  | nil => cases k <;> simp
  | cons x as ih =>
    cases b with
    | nil => cases k <;> simp
    | cons y bs =>
      cases k with
      | zero => simp
      | succ k =>
        by_cases h : x = y
        · subst h
          simp [ih]
        · simp [commonPrefixLen_cons_of_ne h, h]

theorem take_commonPrefixLen (a b : List α) :
    a.take (commonPrefixLen a b) = b.take (commonPrefixLen a b) :=
  (le_commonPrefixLen_iff.mp (Nat.le_refl _)).2.2

/-- Right after the shared prefix the two lists differ, when both go on. -/
theorem getElem_commonPrefixLen_ne {a b : List α} (ha : commonPrefixLen a b < a.length)
    (hb : commonPrefixLen a b < b.length) :
    a[commonPrefixLen a b] ≠ b[commonPrefixLen a b] := by
  induction a generalizing b with
  | nil => simp at ha
  | cons x as ih =>
    cases b with
    | nil => simp at hb
    | cons y bs =>
      by_cases h : x = y
      · subst h
        simp only [commonPrefixLen_cons_self, List.length_cons, Nat.add_lt_add_iff_right] at ha hb
        simpa using ih ha hb
      · simp [commonPrefixLen_cons_of_ne h, h]

theorem commonPrefixLen_eq_length_of_isPrefix {a b : List α} (h : a <+: b) :
    commonPrefixLen a b = a.length := by
  obtain ⟨t, rfl⟩ := h
  induction a with
  | nil => simp
  | cons x as ih => simp [ih]

theorem getElem?_eq_of_lt_commonPrefixLen {a b : List α} {i : Nat}
    (hi : i < commonPrefixLen a b) : a[i]? = b[i]? := by
  have h := congrArg (fun l => l[i]?) (take_commonPrefixLen a b)
  simpa [List.getElem?_take, hi] using h

theorem commonPrefixLen_eq_of_take_eq {a b : List α} {k : Nat} (hka : k < a.length)
    (hkb : k < b.length) (htake : a.take k = b.take k) (hne : a[k] ≠ b[k]) :
    commonPrefixLen a b = k := by
  have hle : k ≤ commonPrefixLen a b :=
    le_commonPrefixLen_iff.mpr ⟨Nat.le_of_lt hka, Nat.le_of_lt hkb, htake⟩
  by_contra hk
  have h := getElem?_eq_of_lt_commonPrefixLen (Nat.lt_of_le_of_ne hle (Ne.symm hk))
  rw [List.getElem?_eq_getElem hka, List.getElem?_eq_getElem hkb] at h
  exact hne (Option.some.inj h)

theorem commonPrefixLen_eq_of_getElem? {a b : List α} {k : Nat} {x y : α} (ha : a[k]? = some x)
    (hb : b[k]? = some y) (hxy : x ≠ y) (htake : a.take k = b.take k) :
    commonPrefixLen a b = k := by
  obtain ⟨hka, hax⟩ := List.getElem?_eq_some_iff.mp ha
  obtain ⟨hkb, hby⟩ := List.getElem?_eq_some_iff.mp hb
  exact commonPrefixLen_eq_of_take_eq hka hkb htake (by rw [hax, hby]; exact hxy)

/-- Shared prefixes compose: `a, c` share at least what both `a, b` and `b, c` share. -/
theorem min_le_commonPrefixLen (a b c : List α) :
    min (commonPrefixLen a b) (commonPrefixLen b c) ≤ commonPrefixLen a c := by
  obtain ⟨ha, -, hab⟩ := le_commonPrefixLen_iff.mp (Nat.min_le_left (commonPrefixLen a b)
    (commonPrefixLen b c))
  obtain ⟨-, hc, hbc⟩ := le_commonPrefixLen_iff.mp (Nat.min_le_right (commonPrefixLen a b)
    (commonPrefixLen b c))
  exact le_commonPrefixLen_iff.mpr ⟨ha, hc, hab.trans hbc⟩

theorem commonPrefixLen_append (p a b : List α) :
    commonPrefixLen (p ++ a) (p ++ b) = p.length + commonPrefixLen a b := by
  induction p with
  | nil => simp
  | cons x p ih => simp [ih]; omega

/-- Past a shared prefix of length `s`, two lists share `s` fewer positions. -/
theorem commonPrefixLen_drop {a b : List α} {s : Nat} (htake : a.take s = b.take s)
    (hs : s ≤ a.length) : commonPrefixLen (a.drop s) (b.drop s) = commonPrefixLen a b - s := by
  have hlen : (a.take s).length = s := by simp [hs]
  conv_rhs => rw [← List.take_append_drop s a, ← List.take_append_drop s b, ← htake,
    commonPrefixLen_append, hlen]
  omega

/-! ## The lexicographic order on bit strings

`false < true`, and a proper prefix is below every extension, as for `BitSlice` and for byte
arrays read most significant bit first. -/

theorem bool_lt_iff {x y : Bool} : x < y ↔ x = false ∧ y = true := by
  cases x <;> cases y <;> decide

/-- Two bit strings compare by the first bit after their shared prefix, or by length when one
is a prefix of the other. -/
theorem lt_iff_commonPrefixLen {a b : List Bool} :
    a < b ↔ (commonPrefixLen a b = a.length ∧ a.length < b.length) ∨
      (a[commonPrefixLen a b]? = some false ∧ b[commonPrefixLen a b]? = some true) := by
  induction a generalizing b with
  | nil => cases b <;> simp
  | cons x as ih =>
    cases b with
    | nil => simp
    | cons y bs =>
      rw [List.cons_lt_cons_iff, bool_lt_iff]
      by_cases h : x = y
      · subst h
        simp [ih]
      · have hxy : (x = false ∧ y = true) ↔ ¬(x = true ∧ y = false) := by
          cases x <;> cases y <;> simp_all
        simp [commonPrefixLen_cons_of_ne h, h, hxy]

theorem lt_irrefl (a : List Bool) : ¬ a < a := by
  rw [lt_iff_commonPrefixLen, commonPrefixLen_self]
  simp

theorem ne_of_lt {a b : List Bool} (h : a < b) : a ≠ b := by
  rintro rfl
  exact lt_irrefl a h

/-- Of two bit strings of one length, the smaller has `false` right after the shared prefix
and the larger has `true`. -/
theorem lt_iff_of_length_eq {a b : List Bool} (hlen : a.length = b.length) :
    a < b ↔ a[commonPrefixLen a b]? = some false ∧ b[commonPrefixLen a b]? = some true := by
  rw [lt_iff_commonPrefixLen]
  constructor
  · rintro (⟨-, h⟩ | h)
    · omega
    · exact h
  · exact Or.inr

theorem lt_asymm {a b : List Bool} (h : a < b) : ¬ b < a := by
  intro h'
  rw [lt_iff_commonPrefixLen] at h h'
  rw [commonPrefixLen_comm b a] at h'
  rcases h with ⟨hpre, hlen⟩ | ⟨ha, hb⟩
  · rcases h' with ⟨hpre', hlen'⟩ | ⟨-, ha'⟩
    · omega
    · -- `a` ends where the two part, so it has no bit there
      rw [hpre, List.getElem?_eq_none (Nat.le_refl _)] at ha'
      cases ha'
  · rcases h' with ⟨hpre', -⟩ | ⟨hb', -⟩
    · rw [hpre', List.getElem?_eq_none (Nat.le_refl _)] at hb
      cases hb
    · rw [hb] at hb'
      cases hb'

theorem lt_trans {a b c : List Bool} (hab : a < b) (hbc : b < c) : a < c := by
  induction a generalizing b c with
  | nil =>
    cases c with
    | nil => exact absurd hbc (List.not_lt_nil b)
    | cons z cs => exact List.nil_lt_cons z cs
  | cons x as ih =>
    cases b with
    | nil => exact absurd hab (List.not_lt_nil _)
    | cons y bs =>
      cases c with
      | nil => exact absurd hbc (List.not_lt_nil _)
      | cons z cs =>
        rw [List.cons_lt_cons_iff, bool_lt_iff] at hab hbc ⊢
        -- the first bits decide unless both pairs agree on them
        rcases hab with ⟨rfl, rfl⟩ | ⟨rfl, hab⟩ <;> rcases hbc with ⟨hy, rfl⟩ | ⟨rfl, hbc⟩
        · cases hy
        · exact Or.inl ⟨rfl, rfl⟩
        · exact Or.inl ⟨hy, rfl⟩
        · exact Or.inr ⟨rfl, ih hab hbc⟩

theorem commonPrefixLen_lt_of_lt {a b : List Bool} (hlen : a.length = b.length) (h : a < b) :
    commonPrefixLen a b < a.length := by
  obtain ⟨ha, -⟩ := (lt_iff_of_length_eq hlen).mp h
  exact (List.getElem?_eq_some_iff.mp ha).1

/-! ## Strings that part

`Before a b`: right after their shared prefix `a` has `false` and `b` has `true`. Between strings
neither of which is a prefix of the other, and between strings of one length, it is `<`. -/

/-- `a` parts from `b` to the left. -/
def Before (a b : List Bool) : Prop :=
  a[commonPrefixLen a b]? = some false ∧ b[commonPrefixLen a b]? = some true

instance (a b : List Bool) : Decidable (Before a b) := inferInstanceAs (Decidable (_ ∧ _))

theorem before_iff_of_length_eq {a b : List Bool} (hlen : a.length = b.length) :
    a < b ↔ Before a b :=
  lt_iff_of_length_eq hlen

theorem Before.lt {a b : List Bool} (h : Before a b) : a < b :=
  lt_iff_commonPrefixLen.mpr (Or.inr h)

theorem before_iff_lt {a b : List Bool} (hab : ¬ a <+: b) : Before a b ↔ a < b := by
  refine ⟨Before.lt, fun h => ?_⟩
  rcases lt_iff_commonPrefixLen.mp h with ⟨hcpl, -⟩ | h
  · -- sharing all of `a` makes `a` a prefix of `b`
    have := take_commonPrefixLen a b
    rw [hcpl, List.take_length] at this
    exact absurd (this ▸ List.take_prefix _ b) hab
  · exact h

/-- Two strings neither of which is a prefix of the other part one way or the other. -/
theorem before_or_before_of_not_isPrefix {a b : List Bool} (hab : ¬ a <+: b) (hba : ¬ b <+: a) :
    Before a b ∨ Before b a := by
  -- where they stop agreeing, both still go on: otherwise one is the shared prefix
  have hlt : commonPrefixLen a b < a.length := by
    by_contra hge
    have hcpl : commonPrefixLen a b = a.length :=
      Nat.le_antisymm (commonPrefixLen_le_left a b) (by omega)
    have htake := take_commonPrefixLen a b
    rw [hcpl, List.take_length] at htake
    exact hab (htake ▸ List.take_prefix _ b)
  have hlt' : commonPrefixLen a b < b.length := by
    by_contra hge
    have hcpl : commonPrefixLen a b = b.length :=
      Nat.le_antisymm (commonPrefixLen_le_right a b) (by omega)
    have htake := take_commonPrefixLen a b
    rw [hcpl, List.take_length] at htake
    exact hba (htake ▸ List.take_prefix _ a)
  have hdiff := getElem_commonPrefixLen_ne hlt hlt'
  unfold Before
  rw [commonPrefixLen_comm b a, List.getElem?_eq_getElem hlt, List.getElem?_eq_getElem hlt']
  cases ha : a[commonPrefixLen a b] <;> cases hb : b[commonPrefixLen a b] <;> simp_all

/-- Two distinct strings of one length part one way or the other. -/
theorem before_or_before_of_length_eq {a b : List Bool} (hlen : a.length = b.length)
    (hne : a ≠ b) : Before a b ∨ Before b a :=
  before_or_before_of_not_isPrefix (fun h => hne (h.eq_of_length hlen))
    (fun h => hne (h.eq_of_length hlen.symm).symm)

theorem Before.lt_length_left {a b : List Bool} (h : Before a b) :
    commonPrefixLen a b < a.length :=
  (List.getElem?_eq_some_iff.mp h.1).1

theorem Before.lt_length_right {a b : List Bool} (h : Before a b) :
    commonPrefixLen a b < b.length :=
  (List.getElem?_eq_some_iff.mp h.2).1

theorem Before.not_isPrefix {a b : List Bool} (h : Before a b) : ¬ a <+: b := by
  intro hp
  have := h.lt_length_left
  rw [commonPrefixLen_eq_length_of_isPrefix hp] at this
  exact Nat.lt_irrefl _ this

theorem Before.not_isPrefix_symm {a b : List Bool} (h : Before a b) : ¬ b <+: a := by
  intro hp
  have := h.lt_length_right
  rw [commonPrefixLen_comm, commonPrefixLen_eq_length_of_isPrefix hp] at this
  exact Nat.lt_irrefl _ this

/-- Strings that part have no common extension. -/
theorem Before.not_isPrefix_of_isPrefix {a b k : List Bool} (h : Before a b) (ha : a <+: k) :
    ¬ b <+: k := by
  intro hb
  rcases Nat.le_total a.length b.length with hle | hle
  · exact h.not_isPrefix (List.prefix_of_prefix_length_le ha hb hle)
  · exact h.not_isPrefix_symm (List.prefix_of_prefix_length_le hb ha hle)

/-- Strings that part go on parting at the same place when extended. -/
theorem Before.commonPrefixLen_extend {a b a' b' : List Bool} (h : Before a b) (ha : a <+: a')
    (hb : b <+: b') : commonPrefixLen a' b' = commonPrefixLen a b := by
  obtain ⟨s, rfl⟩ := ha
  obtain ⟨t, rfl⟩ := hb
  have hla := h.lt_length_left
  have hlb := h.lt_length_right
  refine commonPrefixLen_eq_of_getElem? (x := false) (y := true) ?_ ?_ (by decide) ?_
  · rw [List.getElem?_append_left hla]
    exact h.1
  · rw [List.getElem?_append_left hlb]
    exact h.2
  · rw [List.take_append_of_le_length (Nat.le_of_lt hla),
      List.take_append_of_le_length (Nat.le_of_lt hlb)]
    exact take_commonPrefixLen a b

theorem Before.extend {a b a' b' : List Bool} (h : Before a b) (ha : a <+: a') (hb : b <+: b') :
    Before a' b' := by
  unfold Before
  rw [h.commonPrefixLen_extend ha hb]
  obtain ⟨s, rfl⟩ := ha
  obtain ⟨t, rfl⟩ := hb
  rw [List.getElem?_append_left h.lt_length_left, List.getElem?_append_left h.lt_length_right]
  exact h

/-- A string parting from `b` parts the same way from every prefix of `b` that goes past the
parting point. -/
theorem Before.take_right {a b : List Bool} (h : Before a b) {m : Nat}
    (hm : commonPrefixLen a b < m) : Before a (b.take m) := by
  have hbm : (b.take m)[commonPrefixLen a b]? = some true := by
    rw [List.getElem?_take, if_pos hm]
    exact h.2
  have hcpl : commonPrefixLen a (b.take m) = commonPrefixLen a b := by
    refine commonPrefixLen_eq_of_getElem? h.1 hbm (by decide) ?_
    rw [List.take_take, Nat.min_eq_left (Nat.le_of_lt hm)]
    exact take_commonPrefixLen a b
  unfold Before
  rw [hcpl]
  exact ⟨h.1, hbm⟩

theorem Before.take_left {a b : List Bool} (h : Before a b) {m : Nat}
    (hm : commonPrefixLen a b < m) : Before (a.take m) b := by
  have ham : (a.take m)[commonPrefixLen a b]? = some false := by
    rw [List.getElem?_take, if_pos hm]
    exact h.1
  have hcpl : commonPrefixLen (a.take m) b = commonPrefixLen a b := by
    refine commonPrefixLen_eq_of_getElem? ham h.2 (by decide) ?_
    rw [List.take_take, Nat.min_eq_left (Nat.le_of_lt hm)]
    exact take_commonPrefixLen a b
  unfold Before
  rw [hcpl]
  exact ⟨ham, h.2⟩

section Triple

variable {a b c : List Bool}

/-- In `a`, `b`, `c` parting left to right, the middle string's bits at the two parting points
are `true` and `false`, so the two shared lengths differ. -/
theorem Before.commonPrefixLen_ne (hab : Before a b) (hbc : Before b c) :
    commonPrefixLen a b ≠ commonPrefixLen b c := by
  intro h
  have hb₁ := hab.2
  rw [h, hbc.1] at hb₁
  simp at hb₁

/-- In `a`, `b`, `c` parting left to right, the outer pair shares exactly the shorter shared
prefix. -/
theorem commonPrefixLen_outer (hab : Before a b) (hbc : Before b c) :
    commonPrefixLen a c = min (commonPrefixLen a b) (commonPrefixLen b c) := by
  have hne := hab.commonPrefixLen_ne hbc
  have hmin := min_le_commonPrefixLen a b c
  -- the strings `a` and `c` differ at the smaller parting point
  have hdiff : a[min (commonPrefixLen a b) (commonPrefixLen b c)]? ≠
      (c)[min (commonPrefixLen a b) (commonPrefixLen b c)]? := by
    rcases Nat.lt_or_gt_of_ne hne with hlt | hgt
    · rw [Nat.min_eq_left (Nat.le_of_lt hlt), hab.1, ← getElem?_eq_of_lt_commonPrefixLen hlt,
        hab.2]
      simp
    · rw [Nat.min_eq_right (Nat.le_of_lt hgt), hbc.2, getElem?_eq_of_lt_commonPrefixLen hgt,
        hbc.1]
      simp
  by_contra hcon
  exact hdiff (getElem?_eq_of_lt_commonPrefixLen (Nat.lt_of_le_of_ne hmin (Ne.symm hcon)))

theorem Before.trans (hab : Before a b) (hbc : Before b c) : Before a c := by
  unfold Before
  rw [commonPrefixLen_outer hab hbc]
  rcases Nat.lt_or_gt_of_ne (hab.commonPrefixLen_ne hbc) with hlt | hgt
  · rw [Nat.min_eq_left (Nat.le_of_lt hlt), ← getElem?_eq_of_lt_commonPrefixLen hlt]
    exact hab
  · rw [Nat.min_eq_right (Nat.le_of_lt hgt), getElem?_eq_of_lt_commonPrefixLen hgt]
    exact hbc

/-- A string between two others shares every prefix the outer two share. -/
theorem take_eq_of_between (hab : Before a b ∨ a = b) (hbc : Before b c ∨ b = c) {m : Nat}
    (hm : m ≤ commonPrefixLen a c) : b.take m = a.take m := by
  rcases hab with hab | rfl
  · rcases hbc with hbc | rfl
    · rw [commonPrefixLen_outer hab hbc] at hm
      exact ((le_commonPrefixLen_iff.mp (Nat.le_trans hm (Nat.min_le_left _ _))).2.2).symm
    · exact ((le_commonPrefixLen_iff.mp hm).2.2).symm
  · rfl

end Triple

/-- A string strictly between two others shares every prefix the outer two share: where it
parted from the lower one, the upper one would be below it. -/
theorem take_eq_of_lt_of_lt {a x b : List Bool} (hax : a < x) (hxb : x < b) {m : Nat}
    (hm : m ≤ commonPrefixLen a b) : x.take m = a.take m := by
  suffices hc : m ≤ commonPrefixLen a x from ((le_commonPrefixLen_iff.mp hc).2.2).symm
  by_contra hlt
  have hca : commonPrefixLen a x < commonPrefixLen a b := by omega
  -- `a` and `x` part at their shared length: `a` has `false` there and `x` has `true`
  obtain ⟨ha, hx⟩ : a[commonPrefixLen a x]? = some false ∧ x[commonPrefixLen a x]? = some true := by
    rcases lt_iff_commonPrefixLen.mp hax with ⟨hpre, -⟩ | h
    · have := commonPrefixLen_le_left a b
      omega
    · exact h
  -- `b` agrees with `a` up to and including that bit, so `b` parts from `x` to the left there
  have hb : b[commonPrefixLen a x]? = some false := by
    rw [← getElem?_eq_of_lt_commonPrefixLen hca]
    exact ha
  have htake : b.take (commonPrefixLen a x) = x.take (commonPrefixLen a x) := by
    rw [← take_commonPrefixLen a x]
    exact ((le_commonPrefixLen_iff.mp (Nat.le_of_lt hca)).2.2).symm
  have hbx : Before b x := by
    unfold Before
    rw [commonPrefixLen_eq_of_getElem? hb hx (by decide) htake]
    exact ⟨hb, hx⟩
  exact lt_asymm hxb hbx.lt

/-- `take_eq_of_lt_of_lt`, with either end allowed to be the string itself. -/
theorem take_eq_of_le_of_le {a x b : List Bool} (hax : a < x ∨ a = x) (hxb : x < b ∨ x = b)
    {m : Nat} (hm : m ≤ commonPrefixLen a b) : x.take m = a.take m := by
  rcases hax with hax | rfl
  · rcases hxb with hxb | rfl
    · exact take_eq_of_lt_of_lt hax hxb hm
    · exact ((le_commonPrefixLen_iff.mp hm).2.2).symm
  · rfl

/-! ## Comparing with `compare`

`Ord::cmp` on bit slices and byte arrays is `compare` on bit strings, and it agrees with the
lexicographic order. A string whose first bits are below (above) a prefix is below (above) every
string with that prefix. -/

theorem compare_eq_lt_iff {a b : List Bool} : compare a b = .lt ↔ a < b := by
  induction a generalizing b with
  | nil =>
    cases b with
    | nil => simp
    | cons y bs => simp [List.compare_nil_cons, List.nil_lt_cons]
  | cons x as ih =>
    cases b with
    | nil => simp [List.compare_cons_nil, List.not_lt_nil]
    | cons y bs =>
      rw [List.compare_cons_cons, List.cons_lt_cons_iff, ← ih]
      cases x <;> cases y <;> cases compare as bs <;> decide

theorem compare_eq_eq_iff {a b : List Bool} : compare a b = .eq ↔ a = b :=
  Std.LawfulEqOrd.compare_eq_iff_eq

theorem compare_eq_gt_iff {a b : List Bool} : compare a b = .gt ↔ b < a := by
  rw [Std.OrientedOrd.eq_swap, Ordering.swap_eq_gt, compare_eq_lt_iff]

theorem lt_of_take_lt {k p a : List Bool} (h : k.take p.length < p) (ha : p <+: a) : k < a := by
  obtain ⟨t, rfl⟩ := ha
  induction p generalizing k with
  | nil => exact absurd h (List.not_lt_nil _)
  | cons q p ih =>
    cases k with
    | nil => exact List.nil_lt_cons _ _
    | cons x k =>
      rw [List.length_cons, List.take_succ_cons, List.cons_lt_cons_iff] at h
      rw [List.cons_append, List.cons_lt_cons_iff]
      exact h.imp_right fun h => ⟨h.1, ih h.2⟩

theorem lt_of_lt_take {k p a : List Bool} (h : p < k.take p.length) (ha : p <+: a) : a < k := by
  obtain ⟨t, rfl⟩ := ha
  induction p generalizing k with
  | nil => exact absurd h (List.not_lt_nil _)
  | cons q p ih =>
    cases k with
    | nil => exact absurd h (List.not_lt_nil _)
    | cons x k =>
      rw [List.length_cons, List.take_succ_cons, List.cons_lt_cons_iff] at h
      rw [List.cons_append, List.cons_lt_cons_iff]
      exact h.imp_right fun h => ⟨h.1, ih h.2⟩

end BitString

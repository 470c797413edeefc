import Mathlib.Data.List.Basic

/-!
# The depth-first order of bounded paths

Paths of at most `D` letters, each at most `top`, ordered lexicographically, are in depth-first
order: a path comes before its extensions, and its extensions come before the paths that branch
off to its right. The extensions of `x` are then an interval: they run from `x` to its largest
extension `maxExt D top x`, `x` followed by `top` up to depth `D` (`le_maxExt_of_prefix`). An
interval `[e, maxExt m]` whose lower end lies beyond every proper prefix of `m` holds every
extension of each path it holds (`le_maxExt_of_prefix_of_mem`): it is a union of whole subtrees.
-/

namespace PathOrder

variable {α : Type} {D : Nat} {top : α}

/-- The largest extension of `x` of depth at most `D`: `x` followed by `top` to depth `D`. -/
def maxExt (D : Nat) (top : α) (x : List α) : List α :=
  x ++ List.replicate (D - x.length) top

theorem maxExt_cons (b : α) (m : List α) :
    maxExt D top (b :: m) = b :: maxExt (D - 1) top m := by
  rw [maxExt, maxExt, List.length_cons, List.cons_append, Nat.sub_sub, Nat.add_comm 1]

/-- The proper prefixes of a nonempty path are the prefixes of its `dropLast`. -/
theorem prefix_dropLast_iff {l x : List α} (hx : x ≠ []) : l <+: x.dropLast ↔ l <+: x ∧ l ≠ x := by
  obtain ⟨y, a, rfl⟩ := List.eq_nil_or_concat x |>.resolve_left hx
  rw [List.concat_eq_append, List.dropLast_concat, List.prefix_concat_iff]
  constructor
  · intro h
    refine ⟨.inr h, fun heq => ?_⟩
    have hlen := h.length_le
    rw [heq, List.length_append, List.length_singleton] at hlen
    omega
  · rintro ⟨h | h, hne⟩
    · exact absurd h hne
    · exact h

variable [LE α]

/-- A path of at most `D` letters, each at most `top`. -/
def Bounded (D : Nat) (top : α) (y : List α) : Prop :=
  y.length ≤ D ∧ ∀ a ∈ y, a ≤ top

theorem Bounded.of_prefix {x y : List α} (hy : Bounded D top y) (hxy : x <+: y) :
    Bounded D top x :=
  ⟨Nat.le_trans hxy.length_le hy.1, fun a ha => hy.2 a (hxy.subset ha)⟩

variable [LT α] [Std.IsLinearOrder α] [Std.LawfulOrderLT α]

omit [LT α] [Std.LawfulOrderLT α] in
theorem Bounded.maxExt {x : List α} (hx : Bounded D top x) : Bounded D top (maxExt D top x) := by
  refine ⟨?_, fun a ha => ?_⟩
  · rw [PathOrder.maxExt, List.length_append, List.length_replicate]
    have := hx.1
    omega
  · rcases List.mem_append.mp ha with ha | ha
    · exact hx.2 a ha
    · rw [List.eq_of_mem_replicate ha]
      exact Std.le_refl top

/-- A path of letters at most `top` is at most `top` repeated to its length or beyond. -/
theorem le_replicate {s : List α} {k : Nat} (hlen : s.length ≤ k) (hle : ∀ a ∈ s, a ≤ top) :
    s ≤ List.replicate k top := by
  induction s generalizing k with
  | nil => exact List.nil_le _
  | cons a s ih =>
    obtain ⟨k, rfl⟩ : ∃ k', k = k' + 1 := ⟨k - 1, by rw [List.length_cons] at hlen; omega⟩
    have htail : s ≤ List.replicate k top :=
      ih (by rw [List.length_cons] at hlen; omega) fun b hb => hle b (List.mem_cons_of_mem a hb)
    rw [List.replicate_succ, List.cons_le_cons_iff]
    rcases Std.le_iff_lt_or_eq.mp (hle a List.mem_cons_self) with hlt | heq
    · exact .inl hlt
    · exact .inr ⟨heq, htail⟩

/-- Every extension of `x` lies at or below the largest one. -/
theorem le_maxExt_of_prefix {x y : List α} (hxy : x <+: y) (hy : Bounded D top y) :
    y ≤ maxExt D top x := by
  obtain ⟨s, rfl⟩ := hxy
  apply List.append_left_le
  refine le_replicate ?_ fun a ha => hy.2 a (List.mem_append_right x ha)
  have hlen := hy.1
  rw [List.length_append] at hlen
  omega

/-- A proper prefix comes first. -/
theorem lt_of_prefix_of_ne {x y : List α} (hxy : x <+: y) (hne : x ≠ y) : x < y :=
  (List.le_iff_lt_or_eq.mp hxy.le).resolve_right hne

/-- Largest extensions are ordered as their paths are, unless one path is a proper prefix of the
other: a path up to the largest extension of `m` has its own largest extension up to it too. -/
theorem maxExt_le_maxExt {p m : List α} (hp : Bounded D top p) (hle : p ≤ maxExt D top m)
    (hproper : ¬(p <+: m ∧ p ≠ m)) : maxExt D top p ≤ maxExt D top m := by
  induction p generalizing m D with
  | nil =>
    -- `[]` is a prefix of `m`, so `m` is `[]`
    have hm : m = [] := Classical.byContradiction fun hm => hproper ⟨List.nil_prefix, Ne.symm hm⟩
    rw [hm]
    exact List.le_refl _
  | cons a p ih =>
    cases m with
    | nil =>
      -- `a :: p` extends `[]`
      exact le_maxExt_of_prefix List.nil_prefix hp.maxExt
    | cons b m =>
      rw [maxExt_cons] at hle
      rw [maxExt_cons, maxExt_cons, List.cons_le_cons_iff]
      rcases List.cons_le_cons_iff.mp hle with hlt | ⟨rfl, hle'⟩
      · exact .inl hlt
      · -- the same first letter: compare the tails one level down
        have hp' : Bounded (D - 1) top p :=
          ⟨by have := hp.1; rw [List.length_cons] at this; omega,
            fun c hc => hp.2 c (List.mem_cons_of_mem a hc)⟩
        have hproper' : ¬(p <+: m ∧ p ≠ m) := fun ⟨hpm, hne⟩ =>
          hproper ⟨List.prefix_cons_inj a |>.mpr hpm, fun h => hne (List.cons.inj h).2⟩
        exact .inr ⟨rfl, ih hp' hle' hproper'⟩

/-- An interval `[e, maxExt m]` whose lower end lies beyond every proper prefix of `m` holds every
extension of each path it holds. -/
theorem le_maxExt_of_prefix_of_mem {e m p q : List α}
    (hm : ∀ l, l <+: m → l ≠ m → l < e) (he : e ≤ p) (hp : p ≤ maxExt D top m)
    (hpq : p <+: q) (hq : Bounded D top q) : e ≤ q ∧ q ≤ maxExt D top m := by
  have hpm : ¬(p <+: m ∧ p ≠ m) := fun ⟨hpm, hne⟩ => List.lt_irrefl e
    (List.lt_of_le_of_lt he (hm p hpm hne))
  refine ⟨List.le_trans he hpq.le, ?_⟩
  calc q ≤ maxExt D top p := le_maxExt_of_prefix hpq hq
    _ ≤ maxExt D top m := maxExt_le_maxExt (hq.of_prefix hpq) hp hpm

/-- Conversely, the paths from `x` to its largest extension all extend `x`. -/
theorem prefix_of_le_maxExt {x y : List α} (hxy : x ≤ y) (hy : y ≤ maxExt D top x) : x <+: y := by
  induction x generalizing y D with
  | nil => exact List.nil_prefix
  | cons a x ih =>
    cases y with
    | nil => exact absurd (List.le_nil.mp hxy) (List.cons_ne_nil a x)
    | cons b y =>
      rw [maxExt_cons] at hy
      rcases List.cons_le_cons_iff.mp hxy with hab | ⟨rfl, hxy'⟩
      · exact absurd hab (List.not_lt_of_cons_le_cons hy)
      · exact (List.prefix_cons_inj a).mpr (ih hxy' (List.le_of_cons_le_cons hy))

/-- A prefix of `y` that comes before some `x ≤ y` is a prefix of `x`. -/
theorem prefix_of_lt_of_le {p x y : List α} (hpy : p <+: y) (hpx : p < x) (hxy : x ≤ y) :
    p <+: x := by
  induction p generalizing x y with
  | nil => exact List.nil_prefix
  | cons a p ih =>
    obtain ⟨y', rfl⟩ : ∃ y', y = a :: y' := by
      obtain ⟨s, hs⟩ := hpy
      exact ⟨p ++ s, hs.symm⟩
    cases x with
    | nil => exact absurd hpx (List.not_lt_nil _)
    | cons b x =>
      rcases List.cons_lt_cons_iff.mp hpx with hab | ⟨rfl, hpx'⟩
      · exact absurd hab (List.not_lt_of_cons_le_cons hxy)
      · exact (List.prefix_cons_inj a).mpr
          (ih ((List.prefix_cons_inj a).mp hpy) hpx' (List.le_of_cons_le_cons hxy))

/-! ### One-letter paths -/

/-- A one-letter path comes before exactly the paths that start at or after its letter. -/
theorem singleton_le_cons_iff {a x : α} {rest : List α} : [a] ≤ x :: rest ↔ a ≤ x := by
  rw [List.cons_le_cons_iff]
  constructor
  · rintro (h | ⟨rfl, _⟩)
    · exact Std.le_of_lt h
    · exact Std.le_refl a
  · intro h
    rcases Std.le_iff_lt_or_eq.mp h with h | rfl
    · exact .inl h
    · exact .inr ⟨rfl, List.nil_le rest⟩

/-- The extensions of `[b]` and the paths that branch off to its left are the bounded paths
whose first letter is at most `b`. -/
theorem cons_le_maxExt_singleton_iff {b x : α} {rest : List α} (hy : Bounded D top (x :: rest)) :
    x :: rest ≤ maxExt D top [b] ↔ x ≤ b := by
  have hrest : rest ≤ maxExt (D - 1) top [] := by
    refine le_maxExt_of_prefix List.nil_prefix ⟨?_, fun a ha => hy.2 a (List.mem_cons_of_mem x ha)⟩
    have := hy.1
    rw [List.length_cons] at this
    omega
  rw [maxExt_cons, List.cons_le_cons_iff]
  constructor
  · rintro (h | ⟨rfl, _⟩)
    · exact Std.le_of_lt h
    · exact Std.le_refl x
  · intro h
    rcases Std.le_iff_lt_or_eq.mp h with h | rfl
    · exact .inl h
    · exact .inr ⟨rfl, hrest⟩

omit [LE α] [Std.IsLinearOrder α] [Std.LawfulOrderLT α] in
/-- The subtrees of `[b]` end before a later letter's begin. -/
theorem maxExt_singleton_lt_singleton {a b : α} (h : b < a) : maxExt D top [b] < [a] := by
  rw [maxExt_cons]
  exact List.cons_lt_cons_iff.mpr (.inl h)

end PathOrder

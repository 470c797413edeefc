import Mathlib.Data.List.Perm.Basic
import Mathlib.Data.List.Forall2

/-!
# Maps over lists: `filterMap` across an update, `mapM` in `Option`

Counting the entries of a list that a test picks out, before and after one entry is replaced:
up to order, the picks after the update and the old entry's pick are the picks before it and the
new entry's pick (`filterMap_set_perm`).

A loop that pushes the result of a fallible call for each entry, and panics at the first failure,
is `mapM` in `Option`: it succeeds exactly when every call does, and then holds the results in
order (`mapM_eq_some_iff`), and it fails exactly when some call does (`mapM_eq_none_iff`).
-/

namespace List

variable {α β : Type}

theorem filterMap_cons_eq_toList_append (f : α → Option β) (a : α) (l : List α) :
    (a :: l).filterMap f = (f a).toList ++ l.filterMap f := by
  rw [filterMap_cons]
  cases f a <;> rfl

/-- Replacing the entry `a` at `i` by `b` trades `a`'s pick for `b`'s, up to order. -/
theorem filterMap_set_perm (f : α → Option β) {l : List α} {i : Nat} {a b : α}
    (h : l[i]? = some a) :
    ((l.set i b).filterMap f ++ (f a).toList).Perm (l.filterMap f ++ (f b).toList) := by
  induction l generalizing i with
  | nil => cases h
  | cons x l ih =>
    cases i with
    | zero =>
      -- the head is replaced
      cases h
      rw [set_cons_zero, filterMap_cons_eq_toList_append, filterMap_cons_eq_toList_append,
        append_assoc, append_assoc]
      exact perm_append_comm.trans (by rw [append_assoc]; exact perm_append_comm_assoc _ _ _)
    | succ i =>
      rw [set_cons_succ, filterMap_cons_eq_toList_append, filterMap_cons_eq_toList_append,
        append_assoc, append_assoc]
      exact (ih h).append_left _

/-- Replacing an entry by one with the same pick keeps the picks, up to order. -/
theorem filterMap_set_perm_of_eq (f : α → Option β) {l : List α} {i : Nat} {a b : α}
    (h : l[i]? = some a) (hab : f b = f a) : ((l.set i b).filterMap f).Perm (l.filterMap f) := by
  have := filterMap_set_perm f (b := b) h
  rw [hab] at this
  exact (perm_append_right_iff _).mp this

/-- `mapM` in `Option` succeeds with `l'` exactly when each call succeeds with the entry of `l'`
at its place. -/
theorem mapM_eq_some_iff {f : α → Option β} {l : List α} {l' : List β} :
    l.mapM f = some l' ↔ Forall₂ (fun a b => f a = some b) l l' := by
  induction l generalizing l' with
  | nil =>
    rw [mapM_nil, forall₂_nil_left_iff]
    exact ⟨fun h => (Option.some.inj h).symm, fun h => by rw [h]; rfl⟩
  | cons a l ih =>
    rw [forall₂_cons_left_iff, mapM_cons]
    simp only [Option.bind_eq_bind, Option.bind_eq_some_iff, Option.pure_def, Option.some.injEq,
      ih]
    constructor
    · rintro ⟨b, hb, bs, hbs, rfl⟩
      exact ⟨b, bs, hb, hbs, rfl⟩
    · rintro ⟨b, bs, hb, hbs, rfl⟩
      exact ⟨b, hb, bs, hbs, rfl⟩

/-- The results of a `mapM` in `Option` that succeeds are the calls' results, place by place. -/
theorem getElem?_eq_bind_of_mapM_eq_some {f : α → Option β} {l : List α} {l' : List β}
    (h : l.mapM f = some l') (i : Nat) : l'[i]? = l[i]?.bind f := by
  induction l generalizing l' i with
  | nil =>
    rw [mapM_nil] at h
    cases h
    rfl
  | cons a l ih =>
    obtain ⟨b, bs, hb, hbs, rfl⟩ := forall₂_cons_left_iff.mp (mapM_eq_some_iff.mp h)
    cases i with
    | zero => exact hb.symm
    | succ i => exact ih (mapM_eq_some_iff.mpr hbs) i

theorem length_eq_of_mapM_eq_some {f : α → Option β} {l : List α} {l' : List β}
    (h : l.mapM f = some l') : l'.length = l.length :=
  (mapM_eq_some_iff.mp h).length_eq.symm

/-- Lists related place by place through two maps have equal images. -/
theorem map_eq_map_of_forall₂ {γ : Type} {f : α → γ} {g : β → γ} {l : List α} {l' : List β}
    (h : Forall₂ (fun a b => g b = f a) l l') : l'.map g = l.map f := by
  induction h with
  | nil => rfl
  | cons hab _ ih => rw [map_cons, map_cons, hab, ih]

/-- `mapM` in `Option` fails exactly when one of its calls does. -/
theorem mapM_eq_none_iff {f : α → Option β} {l : List α} :
    l.mapM f = none ↔ ∃ a ∈ l, f a = none := by
  induction l with
  | nil => simp
  | cons a l ih =>
    cases hfa : f a with
    | none => simp [hfa]
    | some b =>
      have hcons : (a :: l).mapM f = (l.mapM f).map (b :: ·) := by
        rw [mapM_cons, hfa]
        cases l.mapM f <;> rfl
      rw [hcons, Option.map_eq_none_iff, ih]
      simp [hfa]

end List

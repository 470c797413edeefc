import Mathlib.Data.List.Basic

/-!
# Rust's `slice::binary_search_by`

The standard library's binary search keeps a `base` and a `size`, halves `size` on every round
without an early exit, and compares once more at the end:

```text
size = len; if size == 0 { return Err(0) }; base = 0
while size > 1 { half = size / 2; mid = base + half
                 base = if f(s[mid]) == Greater { base } else { mid }; size -= half }
cmp = f(s[base]); if cmp == Equal { Ok(base) } else { Err(base + (cmp == Less) as usize) }
```

`Ok i` is `.ok i` and `Err i` is `.error i`. For a comparator that is monotone along the slice
(`Less`, then `Equal`, then `Greater`) the result is an `Equal` index when there is one, and
otherwise the point where the comparator turns from `Less` to `Greater` (`binarySearchBy_spec`).
-/

namespace RustSlice

variable {α : Type}

/-- The halving loop of `binary_search_by`, with `fuel` bounding its rounds. -/
def binarySearchLoop (s : List α) (f : α → Ordering) : Nat → Nat → Nat → Nat
  | 0, base, _ => base
  | fuel + 1, base, size =>
    if 1 < size then
      let mid := base + size / 2
      let base := if (s[mid]?.map f) = some .gt then base else mid
      binarySearchLoop s f fuel base (size - size / 2)
    else base

/-- `slice::binary_search_by`. The loop runs fewer than `s.length` rounds. -/
def binarySearchBy (s : List α) (f : α → Ordering) : Except Nat Nat :=
  if s.length = 0 then .error 0
  else
    let base := binarySearchLoop s f s.length 0 s.length
    match s[base]?.map f with
    | some .eq => .ok base
    | some .lt => .error (base + 1)
    | _ => .error base

/-- The halving loop of `binary_search_by` with a comparator that may panic (`none`). -/
def binarySearchLoopOption (s : List α) (f : α → Option Ordering) : Nat → Nat → Nat → Option Nat
  | 0, base, _ => some base
  | fuel + 1, base, size =>
    if 1 < size then
      let mid := base + size / 2
      match s[mid]? with
      | some x => do
        let cmp ← f x
        binarySearchLoopOption s f fuel (if cmp = .gt then base else mid) (size - size / 2)
      | none => binarySearchLoopOption s f fuel mid (size - size / 2)
    else some base

/-- `slice::binary_search_by` with a comparator that may panic, as one indexing a slice does. -/
def binarySearchByOption (s : List α) (f : α → Option Ordering) : Option (Except Nat Nat) :=
  if s.length = 0 then some (.error 0)
  else do
    let base ← binarySearchLoopOption s f s.length 0 s.length
    match s[base]? with
    | some x => do
      match ← f x with
      | .eq => some (.ok base)
      | .lt => some (.error (base + 1))
      | .gt => some (.error base)
    | none => some (.error base)

/-- A comparator is monotone along `s`: `Less` before `Equal` before `Greater`. -/
def Monotone (s : List α) (f : α → Ordering) : Prop :=
  ∀ i j (hi : i < s.length) (hj : j < s.length), i ≤ j → (f s[i]).ctorIdx ≤ (f s[j]).ctorIdx

section Spec

variable {s : List α} {f : α → Ordering}

/-- The loop invariant: the answer lies in `[base, base + size)`, everything from
`base + size` on compares `Greater`, and `base` only moves onto elements that do not. -/
def LoopInv (s : List α) (f : α → Ordering) (base size : Nat) : Prop :=
  1 ≤ size ∧ base + size ≤ s.length ∧
    (base = 0 ∨ ∃ h : base < s.length, f s[base] ≠ .gt) ∧
    ∀ j (hj : j < s.length), base + size ≤ j → f s[j] = .gt

theorem ordering_gt_of_ctorIdx_le {o o' : Ordering} (h : o.ctorIdx ≤ o'.ctorIdx)
    (ho : o = .gt) : o' = .gt := by
  subst ho
  cases o' <;> simp_all [Ordering.ctorIdx]

theorem loopInv_step (hmono : Monotone s f) {base size : Nat} (hinv : LoopInv s f base size)
    (hsize : 1 < size) :
    LoopInv s f (if (s[base + size / 2]?.map f) = some .gt then base else base + size / 2)
      (size - size / 2) := by
  obtain ⟨h1, hlen, hbase, hgt⟩ := hinv
  have hmid : base + size / 2 < s.length := by omega
  rw [List.getElem?_eq_getElem hmid]
  by_cases hcmp : f s[base + size / 2] = .gt
  · simp only [Option.map_some, hcmp, if_true]
    refine ⟨by omega, by omega, hbase, fun j hj hle => ?_⟩
    by_cases hj' : base + size ≤ j
    · exact hgt j hj hj'
    · exact ordering_gt_of_ctorIdx_le (hmono _ _ hmid hj (by omega)) hcmp
  · simp only [Option.map_some, Option.some.injEq, hcmp, if_false]
    exact ⟨by omega, by omega, Or.inr ⟨hmid, hcmp⟩, fun j hj hle => hgt j hj (by omega)⟩

theorem loopInv_loop (hmono : Monotone s f) :
    ∀ (fuel base size : Nat), LoopInv s f base size → size ≤ fuel + 1 →
      LoopInv s f (binarySearchLoop s f fuel base size) 1
  | 0, base, size, hinv, hfuel => by
    have hsize : size = 1 := by have := hinv.1; omega
    subst hsize
    exact hinv
  | fuel + 1, base, size, hinv, hfuel => by
    simp only [binarySearchLoop]
    split
    · exact loopInv_loop hmono fuel _ _ (loopInv_step hmono hinv ‹_›) (by omega)
    · have hsize : size = 1 := by have := hinv.1; omega
      subst hsize
      exact hinv

/-- What `binary_search_by` returns for a monotone comparator: `Ok i` only at an `Equal`
element, and `Err i` only at the boundary between `Less` and `Greater`. -/
theorem binarySearchBy_spec (hmono : Monotone s f) :
    (∀ i, binarySearchBy s f = .ok i → ∃ h : i < s.length, f s[i] = .eq) ∧
    (∀ i, binarySearchBy s f = .error i →
      i ≤ s.length ∧ (∀ j (hj : j < s.length), j < i → f s[j] = .lt) ∧
        ∀ j (hj : j < s.length), i ≤ j → f s[j] = .gt) := by
  unfold binarySearchBy
  by_cases hnil : s.length = 0
  · simp only [hnil, if_true]
    refine ⟨fun i h => (by cases h), fun i h => ?_⟩
    cases h
    exact ⟨by omega, fun j hj => by omega, fun j hj => by omega⟩
  simp only [hnil, if_false]
  have hinv : LoopInv s f (binarySearchLoop s f s.length 0 s.length) 1 :=
    loopInv_loop hmono s.length 0 s.length ⟨by omega, by omega, Or.inl rfl, fun j hj h => by omega⟩
    (by omega)
  generalize binarySearchLoop s f s.length 0 s.length = base at hinv
  obtain ⟨-, hlen, hbase, hgt⟩ := hinv
  have hb : base < s.length := by omega
  rw [List.getElem?_eq_getElem hb]
  simp only [Option.map_some]
  -- every element before `base` compares at most as `s[base]` does
  have hbefore : ∀ j (hj : j < s.length), j < base →
      (f s[j]).ctorIdx ≤ (f s[base]).ctorIdx := fun j hj hjb => hmono _ _ hj hb (by omega)
  cases hcmp : f s[base] with
  | eq =>
    dsimp only
    refine ⟨fun i h => ?_, fun i h => (by cases h)⟩
    cases h
    exact ⟨hb, hcmp⟩
  | lt =>
    dsimp only
    refine ⟨fun i h => (by cases h), fun i h => ?_⟩
    cases h
    refine ⟨by omega, fun j hj hji => ?_, fun j hj hji => hgt j hj (by omega)⟩
    by_cases hjb : j = base
    · subst hjb
      exact hcmp
    · have := hbefore j hj (by omega)
      rw [hcmp] at this
      cases hfj : f s[j] <;> simp_all [Ordering.ctorIdx]
  | gt =>
    dsimp only
    refine ⟨fun i h => (by cases h), fun i h => ?_⟩
    cases h
    have hzero : base = 0 := by
      rcases hbase with h0 | ⟨_, hne⟩
      · exact h0
      · exact absurd hcmp hne
    subst hzero
    refine ⟨by omega, fun j hj hji => by omega, fun j hj hji => ?_⟩
    by_cases hj0 : j = 0
    · subst hj0
      exact hcmp
    · exact hgt j hj (by omega)

/-- Whatever the comparator, `Ok i` is an index where it returns `Equal`. -/
theorem binarySearchBy_eq_ok {i : Nat} (h : binarySearchBy s f = .ok i) :
    ∃ hi : i < s.length, f s[i] = .eq := by
  unfold binarySearchBy at h
  split_ifs at h
  generalize binarySearchLoop s f s.length 0 s.length = base at h
  cases hb : s[base]? with
  | none => simp [hb] at h
  | some x =>
    obtain ⟨hlt, rfl⟩ := List.getElem?_eq_some_iff.mp hb
    simp only [hb, Option.map_some] at h
    cases hcmp : f s[base] <;> simp only [hcmp, reduceCtorEq, Except.ok.injEq] at h
    subst h
    exact ⟨hlt, hcmp⟩

/-- Along a slice sorted by `compare` on a projection, comparing the projection with a fixed
value is monotone. -/
theorem monotone_compare_of_pairwise {β : Type} [Ord β] [Std.TransOrd β] (g : α → β)
    (hs : s.Pairwise fun a b => compare (g a) (g b) = .lt) (k : β) :
    Monotone s fun x => compare (g x) k := by
  intro i j hi hj hij
  show (compare (g s[i]) k).ctorIdx ≤ (compare (g s[j]) k).ctorIdx
  rcases Nat.lt_or_eq_of_le hij with hlt | rfl
  · -- the later element compares above the earlier one, so at least as high against `k`
    have hgt : compare (g s[j]) (g s[i]) = .gt :=
      Std.OrientedCmp.gt_of_lt (List.pairwise_iff_getElem.mp hs i j hi hj hlt)
    cases hc : compare (g s[i]) k with
    | lt => exact Nat.zero_le _
    | eq =>
      rw [Std.TransCmp.gt_of_gt_of_eq hgt hc]
      decide
    | gt => exact Nat.le_of_eq (congrArg Ordering.ctorIdx (Std.TransCmp.gt_trans hgt hc).symm)
  · exact Nat.le_refl _

end Spec

/-! ## Comparators that may panic

The search with a comparator that may panic returns, when it does not panic, what the search
with any total comparator agreeing with it returns: the elements it compares are the same. -/

section Option

variable {s : List α} {f : α → Option Ordering} {g : α → Ordering}

theorem binarySearchLoopOption_of_agree (hfg : ∀ x ∈ s, ∀ c ∈ f x, c = g x) :
    ∀ (fuel base size : Nat), ∀ r ∈ binarySearchLoopOption s f fuel base size,
      r = binarySearchLoop s g fuel base size
  | 0, base, size, r, hr => by
    cases hr
    rfl
  | fuel + 1, base, size, r, hr => by
    rw [Option.mem_def] at hr
    by_cases hsize : 1 < size
    · simp only [binarySearchLoopOption, binarySearchLoop, if_pos hsize] at hr ⊢
      cases hmid : s[base + size / 2]? with
      | none =>
        rw [hmid] at hr
        simpa using binarySearchLoopOption_of_agree hfg fuel _ _ r hr
      | some x =>
        rw [hmid] at hr
        obtain ⟨c, hc, hrec⟩ := Option.bind_eq_some_iff.mp hr
        -- the probe compares as the total comparator does
        obtain rfl := hfg x (List.mem_of_getElem? hmid) c hc
        simpa using binarySearchLoopOption_of_agree hfg fuel _ _ r hrec
    · simp only [binarySearchLoopOption, binarySearchLoop, if_neg hsize] at hr ⊢
      exact (Option.some.inj hr).symm

theorem binarySearchLoopOption_of_total (hfg : ∀ x ∈ s, f x = some (g x)) :
    ∀ (fuel base size : Nat),
      binarySearchLoopOption s f fuel base size = some (binarySearchLoop s g fuel base size)
  | 0, base, size => rfl
  | fuel + 1, base, size => by
    by_cases hsize : 1 < size
    · simp only [binarySearchLoopOption, binarySearchLoop, if_pos hsize]
      cases hmid : s[base + size / 2]? with
      | none => simpa using binarySearchLoopOption_of_total hfg fuel _ _
      | some x =>
        simpa [hfg x (List.mem_of_getElem? hmid)] using binarySearchLoopOption_of_total hfg fuel _ _
    · simp only [binarySearchLoopOption, binarySearchLoop, if_neg hsize]

/-- A search that does not panic returns what the search with an agreeing total comparator
returns. -/
theorem binarySearchByOption_of_agree (hfg : ∀ x ∈ s, ∀ c ∈ f x, c = g x) :
    ∀ r ∈ binarySearchByOption s f, r = binarySearchBy s g := by
  intro r hr
  rw [Option.mem_def] at hr
  by_cases hnil : s.length = 0
  · simp only [binarySearchByOption, binarySearchBy, if_pos hnil] at hr ⊢
    exact (Option.some.inj hr).symm
  · simp only [binarySearchByOption, binarySearchBy, if_neg hnil] at hr ⊢
    obtain ⟨base, hbase, hr⟩ := Option.bind_eq_some_iff.mp hr
    rw [binarySearchLoopOption_of_agree hfg _ _ _ base hbase] at hr
    generalize binarySearchLoop s g s.length 0 s.length = b at hr ⊢
    cases hb : s[b]? with
    | none =>
      rw [hb] at hr
      simpa using (Option.some.inj hr).symm
    | some x =>
      rw [hb] at hr
      obtain ⟨c, hc, hr⟩ := Option.bind_eq_some_iff.mp hr
      obtain rfl := hfg x (List.mem_of_getElem? hb) c hc
      cases hcmp : g x <;> simp only [hcmp, Option.some.injEq] at hr <;> simp [hcmp, ← hr]

/-- A comparator that never panics on the slice makes the search not panic. -/
theorem binarySearchByOption_of_total (hfg : ∀ x ∈ s, f x = some (g x)) :
    binarySearchByOption s f = some (binarySearchBy s g) := by
  by_cases hnil : s.length = 0
  · simp only [binarySearchByOption, binarySearchBy, if_pos hnil]
  · simp only [binarySearchByOption, binarySearchBy, if_neg hnil,
      binarySearchLoopOption_of_total hfg]
    generalize binarySearchLoop s g s.length 0 s.length = b
    cases hb : s[b]? with
    | none => simp [hb]
    | some x =>
      simp only [hb, hfg x (List.mem_of_getElem? hb), Option.map_some, Option.bind_eq_bind,
        Option.bind_some]
      cases g x <;> rfl

/-- Searching a mapped slice is searching the slice with the map folded into the comparator. -/
theorem binarySearchLoopOption_map {β : Type} (g : β → α) (t : List β) :
    ∀ (fuel base size : Nat), binarySearchLoopOption (t.map g) f fuel base size =
      binarySearchLoopOption t (fun x => f (g x)) fuel base size
  | 0, _, _ => rfl
  | fuel + 1, base, size => by
    simp only [binarySearchLoopOption, List.getElem?_map]
    cases t[base + size / 2]? <;> simp [binarySearchLoopOption_map g t fuel]

theorem binarySearchByOption_map {β : Type} (g : β → α) (t : List β) :
    binarySearchByOption (t.map g) f = binarySearchByOption t (fun x => f (g x)) := by
  simp only [binarySearchByOption, List.length_map, binarySearchLoopOption_map]
  by_cases hnil : t.length = 0
  · simp only [if_pos hnil]
  · simp only [if_neg hnil]
    cases binarySearchLoopOption t (fun x => f (g x)) t.length 0 t.length with
    | none => rfl
    | some b =>
      simp only [Option.bind_eq_bind, Option.bind_some, List.getElem?_map]
      cases t[b]? <;> rfl

end Option

end RustSlice

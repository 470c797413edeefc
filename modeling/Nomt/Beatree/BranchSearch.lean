import Nomt.Lib.BitString

/-!
# Searching a branch node (`nomt/src/beatree/ops/mod.rs`, `ops/update/branch_updater.rs`)

A branch node holds `n` separators in ascending order; the first `prefix_compressed` of them share
a bit prefix that the node stores once. `find_key_pos` first compares the key with that prefix: a
key below it is below every separator, and a key above it is above every separator when all of
them are compressed. Otherwise it binary-searches the keys `get_key` reconstructs, from a given
lower bound, and stops at an equal key. `search_branch` turns its answer into the last separator
at or below the key, and `BaseBranch::find_key` moves the lower bound along ascending keys.

Keys and separators are bit strings, most significant bit first: comparing two `[u8; 32]` with
`cmp` is comparing their 256-bit strings lexicographically. A node is seen through what the search
reads of it (`BranchView`); how `get_key` rebuilds a key from the node's bytes is not modelled
here.

`findKeyPos_fast_path` shows that the two shortcuts agree with the plain search: `find_key_pos`
finds an equal key when there is one, and otherwise returns the first index from the lower bound
whose key is above the searched one (`firstAbove`).
-/

namespace Nomt.Beatree

open BitString

/-- What the search reads of a `BranchNode`: `n()`, `prefix_compressed()`, `prefix()`, the key
`get_key` reconstructs at each index, and `node_pointer`. -/
structure BranchView where
  n : Nat
  prefixCompressed : Nat
  nodePrefix : List Bool
  key : Nat → List Bool
  nodePointer : Nat → UInt32

namespace BranchView

/-! ## The search -/

/-- The `while low < high` loop of `find_key_pos`. -/
def findKeyPosLoop (b : BranchView) (key : List Bool) (low high : Nat) : Bool × Nat :=
  if low < high then
    let mid := low + (high - low) / 2
    match compare key (b.key mid) with
    | .eq => (true, mid)
    | .lt => findKeyPosLoop b key low mid
    | .gt => findKeyPosLoop b key (mid + 1) high
  else (false, high)
termination_by high - low

/-- `find_key_pos`: `none` where slicing the key's bits to the prefix's length panics. -/
def findKeyPos (b : BranchView) (key : List Bool) (low : Option Nat) : Option (Bool × Nat) :=
  if b.nodePrefix.length ≤ key.length then
    match compare (key.take b.nodePrefix.length) b.nodePrefix with
    | .lt => some (false, 0)
    | .gt =>
      if b.n = b.prefixCompressed then some (false, b.n)
      else some (b.findKeyPosLoop key (low.getD 0) b.n)
    | .eq => some (b.findKeyPosLoop key (low.getD 0) b.n)
  else none

/-- `search_branch`: the last separator at or below the key, with its node pointer. -/
def searchBranch (b : BranchView) (key : List Bool) : Option (Option (Nat × UInt32)) :=
  (b.findKeyPos key none).map fun (found, pos) =>
    if found then some (pos, b.nodePointer pos)
    else if pos = 0 then none
    else some (pos - 1, b.nodePointer (pos - 1))

/-! ## What a well-formed node promises -/

/-- A node as `BranchNodeBuilder` writes it: ascending 256-bit keys, the first `prefix_compressed`
of them starting with the prefix, and no prefix when no separator is compressed. -/
structure WellFormed (b : BranchView) : Prop where
  prefixCompressed_le : b.prefixCompressed ≤ b.n
  length_key : ∀ i < b.n, (b.key i).length = 256
  key_lt : ∀ i j, i < j → j < b.n → b.key i < b.key j
  nodePrefix_isPrefix : ∀ i < b.prefixCompressed, b.nodePrefix <+: b.key i
  nodePrefix_nil : b.prefixCompressed = 0 → b.nodePrefix = []

/-- The least index from `low` whose key is above `key`, or `n` when there is none. -/
def firstAbove (b : BranchView) (key : List Bool) (low : Nat) : Nat :=
  if low < b.n then
    if key < b.key low then low else b.firstAbove key (low + 1)
  else b.n
termination_by b.n - low

/-! ## The loop -/

/-- What the loop of `find_key_pos` keeps: every key below `low` is below the searched key, every
key from `high` on is above it, and `low ≤ high ≤ n`. -/
structure LoopInv (b : BranchView) (key : List Bool) (low high : Nat) : Prop where
  low_le : low ≤ high
  high_le : high ≤ b.n
  below : ∀ i < low, i < b.n → b.key i < key
  above : ∀ i, high ≤ i → i < b.n → key < b.key i

variable {b : BranchView} {key : List Bool}

theorem WellFormed.lt_of_le (hwf : b.WellFormed) {i j : Nat} (hij : i ≤ j) (hj : j < b.n)
    (h : key < b.key i) : key < b.key j := by
  rcases Nat.lt_or_eq_of_le hij with hij | rfl
  · exact BitString.lt_trans h (hwf.key_lt i j hij hj)
  · exact h

theorem WellFormed.lt_of_ge (hwf : b.WellFormed) {i j : Nat} (hij : i ≤ j) (hj : j < b.n)
    (h : b.key j < key) : b.key i < key := by
  rcases Nat.lt_or_eq_of_le hij with hij | rfl
  · exact BitString.lt_trans (hwf.key_lt i j hij hj) h
  · exact h

theorem WellFormed.key_injective (hwf : b.WellFormed) {i j : Nat} (hi : i < b.n) (hj : j < b.n)
    (h : b.key i = b.key j) : i = j := by
  rcases Nat.lt_trichotomy i j with hij | hij | hij
  · exact absurd h (BitString.ne_of_lt (hwf.key_lt i j hij hj))
  · exact hij
  · exact absurd h.symm (BitString.ne_of_lt (hwf.key_lt j i hij hi))

/-- A step that finds the middle key above the searched one moves `high` down to it. -/
theorem LoopInv.step_lt (hwf : b.WellFormed) {low high : Nat} (h : LoopInv b key low high)
    (hlt : low < high) (hc : key < b.key (low + (high - low) / 2)) :
    LoopInv b key low (low + (high - low) / 2) where
  low_le := by omega
  high_le := by have := h.high_le; omega
  below := h.below
  above i hi hin := hwf.lt_of_le hi hin hc

/-- A step that finds the middle key below the searched one moves `low` past it. -/
theorem LoopInv.step_gt (hwf : b.WellFormed) {low high : Nat} (h : LoopInv b key low high)
    (hlt : low < high) (hc : b.key (low + (high - low) / 2) < key) :
    LoopInv b key (low + (high - low) / 2 + 1) high where
  low_le := by omega
  high_le := h.high_le
  below i hi hin := hwf.lt_of_ge (Nat.le_of_lt_succ hi) (by have := h.high_le; omega) hc
  above := h.above

/-- The loop finds an equal key, or stops at the point where the keys turn from below the
searched one to above it. -/
theorem findKeyPosLoop_spec (hwf : b.WellFormed) {low high : Nat} (h : LoopInv b key low high) :
    (∃ i, b.findKeyPosLoop key low high = (true, i) ∧ i < b.n ∧ b.key i = key) ∨
    (∃ j, b.findKeyPosLoop key low high = (false, j) ∧ low ≤ j ∧ LoopInv b key j j) := by
  fun_induction b.findKeyPosLoop key low high with
  | case1 low high hlt mid hc =>
    exact .inl ⟨mid, rfl, by have := h.high_le; omega, (compare_eq_eq_iff.mp hc).symm⟩
  | case2 low high hlt mid hc ih =>
    rcases ih (h.step_lt hwf hlt (compare_eq_lt_iff.mp hc)) with hfound | ⟨j, hj, hle, hinv⟩
    · exact .inl hfound
    · exact .inr ⟨j, hj, hle, hinv⟩
  | case3 low high hlt mid hc ih =>
    rcases ih (h.step_gt hwf hlt (compare_eq_gt_iff.mp hc)) with hfound | ⟨j, hj, hle, hinv⟩
    · exact .inl hfound
    · exact .inr ⟨j, hj, by omega, hinv⟩
  | case4 low high hge =>
    -- the loop is over: every key below `high` is below `low`
    refine .inr ⟨high, rfl, h.low_le, ⟨Nat.le_refl _, h.high_le, fun i hi hin => ?_, h.above⟩⟩
    exact h.below i (by omega) hin

/-! ## The shortcuts -/

/-- The prefix is no longer than the keys, so slicing a key to it does not panic. -/
theorem WellFormed.length_nodePrefix_le (hwf : b.WellFormed) :
    b.nodePrefix.length ≤ 256 := by
  by_cases hc : b.prefixCompressed = 0
  · rw [hwf.nodePrefix_nil hc]
    exact Nat.zero_le _
  · have h0 : 0 < b.prefixCompressed := Nat.pos_of_ne_zero hc
    rw [← hwf.length_key 0 (Nat.lt_of_lt_of_le h0 hwf.prefixCompressed_le)]
    exact (hwf.nodePrefix_isPrefix 0 h0).length_le

/-- A key whose first bits are below the prefix is below every key of the node. -/
theorem WellFormed.lt_key_of_take_lt (hwf : b.WellFormed)
    (h : key.take b.nodePrefix.length < b.nodePrefix) {i : Nat} (hi : i < b.n) :
    key < b.key i := by
  -- a prefix exists only over compressed separators, the first of which is key 0
  have hc : 0 < b.prefixCompressed := by
    refine Nat.pos_of_ne_zero fun hc => ?_
    rw [hwf.nodePrefix_nil hc] at h
    exact List.not_lt_nil _ h
  have h0 : key < b.key 0 :=
    BitString.lt_of_take_lt h (hwf.nodePrefix_isPrefix 0 hc)
  exact hwf.lt_of_le (Nat.zero_le i) hi h0

/-- A key whose first bits are above the prefix is above every compressed key. -/
theorem WellFormed.key_lt_of_lt_take (hwf : b.WellFormed)
    (h : b.nodePrefix < key.take b.nodePrefix.length) {i : Nat} (hi : i < b.prefixCompressed) :
    b.key i < key :=
  BitString.lt_of_lt_take h (hwf.nodePrefix_isPrefix i hi)

/-- What `find_key_pos` returns from a lower bound below which every key is below the searched
one: an index of an equal key, or the point where the keys turn from below to above. -/
theorem findKeyPos_cases (hwf : b.WellFormed) (hk : key.length = 256) {low : Nat}
    (hlow : ∀ i < low, i < b.n → b.key i < key) :
    (∃ i, b.findKeyPos key (some low) = some (true, i) ∧ i < b.n ∧ b.key i = key) ∨
    (∃ j, b.findKeyPos key (some low) = some (false, j) ∧ (low ≤ j ∨ j = b.n) ∧
      LoopInv b key j j) := by
  have hlen : b.nodePrefix.length ≤ key.length := hk ▸ hwf.length_nodePrefix_le
  -- the binary search, from `low` or from past the end
  have hloop : (∃ i, some (b.findKeyPosLoop key low b.n) = some (true, i) ∧ i < b.n ∧
        b.key i = key) ∨
      (∃ j, some (b.findKeyPosLoop key low b.n) = some (false, j) ∧ (low ≤ j ∨ j = b.n) ∧
        LoopInv b key j j) := by
    by_cases hle : low ≤ b.n
    · rcases findKeyPosLoop_spec hwf ⟨hle, Nat.le_refl _, hlow, fun i hi hin => absurd hin (by omega)⟩
        with ⟨i, hi, hfound⟩ | ⟨j, hj, hlj, hinv⟩
      · exact .inl ⟨i, by rw [hi], hfound⟩
      · exact .inr ⟨j, by rw [hj], .inl hlj, hinv⟩
    · refine .inr ⟨b.n, by rw [findKeyPosLoop, if_neg (by omega)], .inr rfl,
        ⟨Nat.le_refl _, Nat.le_refl _, fun i _ hin => hlow i (by omega) hin,
          fun i hi hin => absurd hin (by omega)⟩⟩
  rw [findKeyPos, if_pos hlen]
  rcases hcmp : compare (key.take b.nodePrefix.length) b.nodePrefix <;>
    dsimp only [Option.getD_some]
  · -- below the prefix: below every key, so nothing lies below `low`
    have hall := fun i (hi : i < b.n) => hwf.lt_key_of_take_lt (compare_eq_lt_iff.mp hcmp) hi
    refine .inr ⟨0, rfl, ?_, ⟨Nat.le_refl _, Nat.zero_le _,
      fun i hi => absurd hi (Nat.not_lt_zero _), fun i _ hin => hall i hin⟩⟩
    by_cases hn : b.n = 0
    · exact .inr hn.symm
    · refine .inl (Nat.le_of_not_lt fun hpos => ?_)
      exact BitString.lt_asymm (hall 0 (Nat.pos_of_ne_zero hn)) (hlow 0 hpos (Nat.pos_of_ne_zero hn))
  · exact hloop
  · split_ifs with hn
    · -- above the prefix, and every separator is compressed: above every key
      refine .inr ⟨b.n, rfl, .inr rfl, ⟨Nat.le_refl _, Nat.le_refl _, fun i _ hin => ?_,
        fun i hi hin => absurd hin (by omega)⟩⟩
      exact hwf.key_lt_of_lt_take (compare_eq_gt_iff.mp hcmp) (hn ▸ hin)
    · exact hloop

/-- The point where the keys turn from below to above is the first key above, from any lower
bound at or before it. -/
theorem firstAbove_eq {j : Nat} (h : LoopInv b key j j) {low : Nat} (hlow : low ≤ j ∨ j = b.n) :
    b.firstAbove key low = j := by
  fun_induction b.firstAbove key low with
  | case1 low hlt habove =>
    -- a key above the searched one is not below `j`
    refine Nat.le_antisymm ?_ (Nat.le_of_not_lt fun hlj => ?_)
    · rcases hlow with hlow | rfl
      · exact hlow
      · exact Nat.le_of_lt hlt
    · exact BitString.lt_asymm habove (h.below low hlj hlt)
  | case2 low hlt habove ih =>
    -- the key at `low` is not above, so `j` lies past it
    have hlj : low < j := Nat.lt_of_not_le fun hjl => habove (h.above low hjl hlt)
    exact ih (.inl hlj)
  | case3 low hge =>
    rcases hlow with hlow | rfl
    · have := h.high_le
      omega
    · rfl

/-- `find_key_pos` with a lower bound below which every key is below the searched one agrees with
the plain search: it finds the index of an equal key, and otherwise returns the first index from
the bound whose key is above; `search_branch` then returns the last separator at or below the
key, and nothing exactly when every separator is above it. -/
theorem findKeyPos_fast_path_correct {b : BranchView} (hwf : b.WellFormed) {k : List Bool}
    (hk : k.length = 256) {low : Nat} (hlow : ∀ i < low, i < b.n → b.key i < k) :
    (∀ i, b.findKeyPos k (some low) = some (true, i) ↔ i < b.n ∧ b.key i = k) ∧
    ((∀ i < b.n, b.key i ≠ k) → b.findKeyPos k (some low) = some (false, b.firstAbove k low)) ∧
    ∃ r, b.searchBranch k = some r ∧ (r = none ↔ ∀ i < b.n, k < b.key i) ∧
      ∀ i p, r = some (i, p) → i < b.n ∧ (b.key i < k ∨ b.key i = k) ∧
        (∀ j, i < j → j < b.n → k < b.key j) ∧ p = b.nodePointer i := by
  refine ⟨fun i => ⟨fun hi => ?_, fun ⟨hin, hki⟩ => ?_⟩, fun hne => ?_, ?_⟩
  · -- a found index holds the key
    rcases findKeyPos_cases hwf hk hlow with ⟨i', hi', hin, hki⟩ | ⟨j, hj, -, -⟩
    · rw [hi'] at hi
      cases hi
      exact ⟨hin, hki⟩
    · rw [hj] at hi
      cases hi
  · -- an equal key is found, at its own index
    rcases findKeyPos_cases hwf hk hlow with ⟨i', hi', hin', hki'⟩ | ⟨j, -, -, hinv⟩
    · rw [hi', hwf.key_injective hin hin' (hki.trans hki'.symm)]
    · rcases Nat.lt_or_ge i j with hij | hij
      · exact absurd hki (BitString.ne_of_lt (hinv.below i hij hin))
      · exact absurd hki.symm (BitString.ne_of_lt (hinv.above i hij hin))
  · -- no equal key: the first key above
    rcases findKeyPos_cases hwf hk hlow with ⟨i, -, hin, hki⟩ | ⟨j, hj, hlj, hinv⟩
    · exact absurd hki (hne i hin)
    · rw [hj, firstAbove_eq hinv hlj]
  · -- `search_branch` searches from 0
    have hsearch : b.searchBranch k = (b.findKeyPos k (some 0)).map fun (found, pos) =>
        if found then some (pos, b.nodePointer pos)
        else if pos = 0 then none
        else some (pos - 1, b.nodePointer (pos - 1)) := rfl
    rw [hsearch]
    rcases findKeyPos_cases hwf hk fun i (hi : i < 0) => absurd hi (Nat.not_lt_zero _) with
      ⟨i, hi, hin, hki⟩ | ⟨j, hj, -, hinv⟩
    · -- the equal key is the last at or below it
      refine ⟨some (i, b.nodePointer i), by rw [hi]; rfl, ⟨(fun h => nomatch h), fun hall => ?_⟩,
        ?_⟩
      · exact absurd hki.symm (BitString.ne_of_lt (hall i hin))
      · rintro i' p ⟨⟩
        exact ⟨hin, .inr hki, fun j hij hjn => hki ▸ hwf.key_lt i j hij hjn, rfl⟩
    · rw [hj]
      by_cases hj0 : j = 0
      · -- every key is above
        subst hj0
        refine ⟨none, rfl, ⟨fun _ i hin => hinv.above i (Nat.zero_le i) hin, fun _ => rfl⟩, ?_⟩
        rintro i p ⟨⟩
      · -- the key before the turning point
        have hpred : j - 1 < b.n := by have := hinv.high_le; omega
        refine ⟨some (j - 1, b.nodePointer (j - 1)), by simp only [hj0, Option.map_some,
          Bool.false_eq_true, if_false], ⟨(fun h => nomatch h), fun hall => ?_⟩, ?_⟩
        · exact (BitString.lt_asymm (hall (j - 1) hpred) (hinv.below (j - 1) (by omega) hpred)).elim
        · rintro i p ⟨⟩
          exact ⟨hpred, .inl (hinv.below (j - 1) (by omega) hpred),
            fun i hi hin => hinv.above i (by omega) hin, rfl⟩

/-- Searches of three nodes, one per path of `find_key_pos` past the first shortcut. A node of three
separators `100…`, `110…`, `111…` under the prefix `1`, searched from the lower bound 1 (the
separator at 0 is below the key): for `101…` the binary search narrows `high` from 3 to 2 to 1 and
ends between separators; for `110…` it finds the separator at 1. A node of two separators under
the prefix `0`, all compressed, searched for `1…`: the second shortcut returns `n` unsearched. -/
theorem findKeyPos_fast_path_correct_three_searches :
    (∃ b : BranchView, b.WellFormed ∧ b.n = 3 ∧ ∃ k : List Bool, k.length = 256 ∧
      (∀ i < 1, i < b.n → b.key i < k) ∧
      (∀ i, b.findKeyPos k (some 1) = some (true, i) ↔ i < b.n ∧ b.key i = k) ∧
      ((∀ i < b.n, b.key i ≠ k) → b.findKeyPos k (some 1) = some (false, b.firstAbove k 1)) ∧
      ∃ r, b.searchBranch k = some r ∧ (r = none ↔ ∀ i < b.n, k < b.key i) ∧
        ∀ i p, r = some (i, p) → i < b.n ∧ (b.key i < k ∨ b.key i = k) ∧
          (∀ j, i < j → j < b.n → k < b.key j) ∧ p = b.nodePointer i) ∧
    (∃ b : BranchView, b.WellFormed ∧ b.n = 3 ∧ ∃ k : List Bool, k.length = 256 ∧
      (∀ i < 1, i < b.n → b.key i < k) ∧ b.key 1 = k ∧
      (∀ i, b.findKeyPos k (some 1) = some (true, i) ↔ i < b.n ∧ b.key i = k) ∧
      ((∀ i < b.n, b.key i ≠ k) → b.findKeyPos k (some 1) = some (false, b.firstAbove k 1)) ∧
      ∃ r, b.searchBranch k = some r ∧ (r = none ↔ ∀ i < b.n, k < b.key i) ∧
        ∀ i p, r = some (i, p) → i < b.n ∧ (b.key i < k ∨ b.key i = k) ∧
          (∀ j, i < j → j < b.n → k < b.key j) ∧ p = b.nodePointer i) ∧
    (∃ b : BranchView, b.WellFormed ∧ b.n = 2 ∧ b.prefixCompressed = 2 ∧
      ∃ k : List Bool, k.length = 256 ∧ b.nodePrefix < k.take b.nodePrefix.length ∧
      (∀ i, b.findKeyPos k (some 0) = some (true, i) ↔ i < b.n ∧ b.key i = k) ∧
      ((∀ i < b.n, b.key i ≠ k) → b.findKeyPos k (some 0) = some (false, b.firstAbove k 0)) ∧
      ∃ r, b.searchBranch k = some r ∧ (r = none ↔ ∀ i < b.n, k < b.key i) ∧
        ∀ i p, r = some (i, p) → i < b.n ∧ (b.key i < k ∨ b.key i = k) ∧
          (∀ j, i < j → j < b.n → k < b.key j) ∧ p = b.nodePointer i) := by
  -- separators that first differ at bit 1 or bit 2
  have lt_one : ∀ (x : Bool) (r r' : List Bool), x :: false :: r < x :: true :: r' := fun x r r' =>
    List.cons_lt_cons_iff.mpr (.inr ⟨rfl, List.cons_lt_cons_iff.mpr (.inl (by decide))⟩)
  have lt_two : ∀ (x y : Bool) (r r' : List Bool), x :: y :: false :: r < x :: y :: true :: r' :=
    fun x y r r' => List.cons_lt_cons_iff.mpr (.inr ⟨rfl, lt_one y r r'⟩)
  have hlen : ∀ (x y z : Bool), (x :: y :: z :: List.replicate 253 false).length = 256 :=
    fun _ _ _ => by simp only [List.length_cons, List.length_replicate]
  -- three separators `1 b₁ b₂ 0…` with `b₁ = (1 ≤ i)` and `b₂ = (2 ≤ i)`
  have hwfA : WellFormed ⟨3, 3, [true],
      fun i => true :: decide (1 ≤ i) :: decide (2 ≤ i) :: List.replicate 253 false,
      fun i => i.toUInt32⟩ := by
    refine ⟨Nat.le_refl _, fun _ _ => hlen _ _ _, fun i j hij (hj : j < 3) => ?_,
      fun _ _ => ⟨_, rfl⟩, fun h => absurd h (by decide)⟩
    obtain rfl | rfl : j = 1 ∨ j = 2 := by omega
    · obtain rfl : i = 0 := by omega
      exact lt_one _ _ _
    · obtain rfl | rfl : i = 0 ∨ i = 1 := by omega
      · exact lt_one _ _ _
      · exact lt_two _ _ _ _
  -- two separators `0 b₁ 0…` with `b₁ = (1 ≤ i)`
  have hwfB : WellFormed ⟨2, 2, [false],
      fun i => false :: decide (1 ≤ i) :: List.replicate 254 false, fun i => i.toUInt32⟩ := by
    refine ⟨Nat.le_refl _, fun _ _ => by simp only [List.length_cons, List.length_replicate],
      fun i j hij (hj : j < 2) => ?_, fun _ _ => ⟨_, rfl⟩, fun h => absurd h (by decide)⟩
    obtain rfl : j = 1 := by omega
    obtain rfl : i = 0 := by omega
    exact lt_one _ _ _
  -- from the lower bound 1, the separator below it is `100…`
  have hbelow : ∀ (r : List Bool), true :: false :: false :: List.replicate 253 false <
      true :: r → ∀ i < 1, i < 3 →
        true :: decide (1 ≤ i) :: decide (2 ≤ i) :: List.replicate 253 false < true :: r := by
    intro r hk i hi _
    obtain rfl : i = 0 := by omega
    exact hk
  refine ⟨⟨_, hwfA, rfl, true :: false :: true :: List.replicate 253 false, hlen _ _ _,
    hbelow _ (lt_two _ _ _ _), findKeyPos_fast_path_correct hwfA (hlen _ _ _)
      (hbelow _ (lt_two _ _ _ _))⟩,
    ⟨_, hwfA, rfl, true :: true :: false :: List.replicate 253 false, hlen _ _ _,
    hbelow _ (lt_one _ _ _), rfl, findKeyPos_fast_path_correct hwfA (hlen _ _ _)
      (hbelow _ (lt_one _ _ _))⟩,
    ⟨_, hwfB, rfl, rfl, List.replicate 256 true, List.length_replicate,
    List.cons_lt_cons_iff.mpr (.inl (by decide)),
    findKeyPos_fast_path_correct hwfB List.length_replicate
      fun i hi => absurd hi (Nat.not_lt_zero i)⟩⟩

end BranchView

end Nomt.Beatree

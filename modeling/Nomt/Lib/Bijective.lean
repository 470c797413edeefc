import Mathlib.Tactic.Ring
import Mathlib.Data.BitVec

/-!
# Bijective numerals

In bijective base `b` a string of digits `1, …, b` names a number, most significant digit first.
Stored as `0, …, b - 1`, digit `d` stands for `d + 1`, so there is no digit to pad with: strings
of every length get distinct values (`val_injective`), the empty string alone being 0, and a
string of `k` digits stays below `b ^ (k + 1) / (b - 1)` (`pred_mul_val_add_le`).

A machine word that accumulates such a number by "add the digit, then shift left" holds the value
scaled by the shift, modulo the word size (`toNat_foldl_shiftLeft`): the high bits are lost once the
string is long enough.
-/

namespace Bijective

variable {b : Nat}

/-- The value of a digit string, most significant digit first. -/
def val (b : Nat) (ds : List Nat) : Nat := ds.foldl (fun acc d => acc * b + (d + 1)) 0

@[simp] theorem val_nil : val b [] = 0 := rfl

@[simp] theorem val_append_singleton (ds : List Nat) (d : Nat) :
    val b (ds ++ [d]) = val b ds * b + (d + 1) := by
  simp [val, List.foldl_append]

theorem val_pos_of_ne_nil {ds : List Nat} (h : ds ≠ []) : 0 < val b ds := by
  obtain ⟨ds, d, rfl⟩ := (List.eq_nil_or_concat' ds).resolve_left h
  rw [val_append_singleton]
  omega

/-- A last digit below the base is read back from the value, and so is the rest. -/
theorem mul_add_inj {x y d e : Nat} (hd : d < b) (he : e < b) (h : x * b + d = y * b + e) :
    x = y ∧ d = e := by
  have hb : 0 < b := Nat.lt_of_le_of_lt (Nat.zero_le d) hd
  have hx := (Nat.div_mod_unique hb).mpr ⟨(by rw [Nat.mul_comm]; omega : d + b * x = x * b + d), hd⟩
  have hy := (Nat.div_mod_unique hb).mpr ⟨(by rw [Nat.mul_comm]; omega : e + b * y = y * b + e), he⟩
  rw [h] at hx
  exact ⟨hx.1.symm.trans hy.1, hx.2.symm.trans hy.2⟩

/-- Distinct digit strings have distinct values, whatever their lengths. -/
theorem val_injective {ds es : List Nat} (hds : ∀ d ∈ ds, d < b) (hes : ∀ e ∈ es, e < b)
    (h : val b ds = val b es) : ds = es := by
  induction ds using List.reverseRecOn generalizing es with
  | nil =>
    by_contra hne
    have := val_pos_of_ne_nil (b := b) (Ne.symm hne)
    rw [← h, val_nil] at this
    exact Nat.lt_irrefl 0 this
  | append_singleton ds d ih =>
    rcases List.eq_nil_or_concat' es with rfl | ⟨es, e, rfl⟩
    · have := val_pos_of_ne_nil (b := b) (List.concat_ne_nil d ds)
      rw [h, val_nil] at this
      exact absurd this (Nat.lt_irrefl 0)
    · have hd := hds d (by simp)
      have he := hes e (by simp)
      rw [val_append_singleton, val_append_singleton] at h
      obtain ⟨hval, rfl⟩ := mul_add_inj hd he (by omega : val b ds * b + d = val b es * b + e)
      rw [ih (fun x hx => hds x (by simp [hx])) (fun x hx => hes x (by simp [hx])) hval]

/-- The largest string of `k` digits is worth `b + b ^ 2 + ⋯ + b ^ k`, so
`(b - 1) * val + b ≤ b ^ (k + 1)`. -/
theorem pred_mul_val_add_le {ds : List Nat} (hds : ∀ d ∈ ds, d < b) :
    (b - 1) * val b ds + b ≤ b ^ (ds.length + 1) := by
  induction ds using List.reverseRecOn with
  | nil => simp
  | append_singleton ds d ih =>
    have hd : d < b := hds d (by simp)
    have ih := ih fun x hx => hds x (by simp [hx])
    obtain ⟨c, rfl⟩ : ∃ c, b = c + 1 := ⟨b - 1, by omega⟩
    rw [val_append_singleton, List.length_append, List.length_singleton, Nat.pow_succ]
    simp only [Nat.add_sub_cancel] at ih ⊢
    calc c * (val (c + 1) ds * (c + 1) + (d + 1)) + (c + 1)
        ≤ c * (val (c + 1) ds * (c + 1) + (c + 1)) + (c + 1) := by
          have : d + 1 ≤ c + 1 := hd
          gcongr
      _ = (c * val (c + 1) ds + (c + 1)) * (c + 1) := by ring
      _ ≤ (c + 1) ^ (ds.length + 1) * (c + 1) := Nat.mul_le_mul_right _ ih

/-- The digits after a prefix weigh `b` to their number: `val (ds ++ es) = val ds * b ^ |es| + val es`. -/
theorem val_append (ds es : List Nat) : val b (ds ++ es) = val b ds * b ^ es.length + val b es := by
  induction es using List.reverseRecOn with
  | nil => simp
  | append_singleton es e ih =>
    rw [← List.append_assoc, val_append_singleton, val_append_singleton, ih, List.length_append,
      List.length_singleton, Nat.pow_succ]
    ring

/-- The string of `k` lowest digits: `(b - 1) * val + 1 = b ^ k`. -/
theorem pred_mul_val_replicate_zero (hb : 0 < b) (k : Nat) :
    (b - 1) * val b (List.replicate k 0) + 1 = b ^ k := by
  induction k with
  | zero => simp
  | succ k ih =>
    obtain ⟨c, rfl⟩ : ∃ c, b = c + 1 := ⟨b - 1, by omega⟩
    rw [List.replicate_succ', val_append_singleton, Nat.pow_succ, ← ih]
    simp only [Nat.add_sub_cancel]
    ring

/-- Among strings of one length, the lowest digits have the least value. -/
theorem val_replicate_zero_le (ds : List Nat) : val b (List.replicate ds.length 0) ≤ val b ds := by
  induction ds using List.reverseRecOn with
  | nil => simp
  | append_singleton ds d ih =>
    rw [List.length_append, List.length_singleton, List.replicate_succ', val_append_singleton,
      val_append_singleton]
    have := Nat.mul_le_mul_right b ih
    omega

/-- Adding a digit and multiplying by `b` modulo `m` keeps `b` times the value modulo `m`. -/
theorem foldl_add_mul_mod (m : Nat) (ds : List Nat) (x : Nat) :
    ds.foldl (fun acc d => (acc + (d + 1)) * b % m) (b * x % m) =
      b * ds.foldl (fun acc d => acc * b + (d + 1)) x % m := by
  induction ds generalizing x with
  | nil => rfl
  | cons d ds ih =>
    rw [List.foldl_cons, List.foldl_cons, ← ih]
    congr 1
    rw [Nat.mul_mod, Nat.mod_add_mod, ← Nat.mul_mod]
    congr 1
    ring

/-- A word type read as a number: if the reading of "add the digit, then scale by `b`" is that
arithmetic modulo `m`, the word ends with `b` times the value, modulo `m`. -/
theorem foldl_hom_val {W : Type} (f : W → Nat) (step : W → Nat → W) {m : Nat} {init : W}
    (hinit : f init = 0) (hstep : ∀ acc d, f (step acc d) = (f acc + (d + 1)) * b % m)
    (ds : List Nat) : f (ds.foldl step init) = b * val b ds % m := by
  rw [← @List.foldl_hom _ _ _ f _ (fun acc d => (acc + (d + 1)) * b % m) ds init
    (fun acc d => (hstep acc d).symm), hinit]
  simpa [val] using foldl_add_mul_mod (b := b) m ds 0

/-- A `w`-bit word that adds each digit and shifts left by `s` ends with the value in base
`2 ^ s`, shifted once more, modulo `2 ^ w`. -/
theorem toNat_foldl_shiftLeft (w s : Nat) (ds : List Nat) :
    (ds.foldl (fun acc d => (acc + BitVec.ofNat w (d + 1)) <<< s) 0#w).toNat =
      2 ^ s * val (2 ^ s) ds % 2 ^ w := by
  refine foldl_hom_val BitVec.toNat _ (BitVec.toNat_zero) (fun acc d => ?_) ds
  rw [BitVec.toNat_shiftLeft, BitVec.toNat_add, BitVec.toNat_ofNat, Nat.shiftLeft_eq,
    Nat.add_mod_mod, Nat.mod_mul_mod]

end Bijective

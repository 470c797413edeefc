import Mathlib.Data.List.Range
import Mathlib.Data.List.Nodup
import Mathlib.Data.Nat.Bitwise

/-!
# Bits of a 64-bit word

The bit operations of a `u64` that bitmaps are built from: testing the bit `1 << k` with
`w & mask == mask`, setting it with `|=`, clearing it with `&= !mask`, and the standard library's
`count_ones` and `trailing_zeros`. Each is read as a statement about `Nat.testBit` of the word's
value (`and_mask_beq`, `testBit_one_shiftLeft`, `testBit_not`).

`ones w` lists the positions of the one bits, lowest first. `trailing_zeros` is its head (`64`
for the zero word), and clearing that bit leaves its tail (`ones_clearLowest`): the two facts an
iterator over the one bits rests on.
-/

namespace Bits

variable {k j : Nat}

theorem toNat_one_shiftLeft (hk : k < 64) : ((1 : UInt64) <<< k.toUInt64).toNat = 2 ^ k := by
  rw [UInt64.toNat_shiftLeft, Nat.toUInt64_eq, UInt64.toNat_ofNat', UInt64.toNat_one,
    Nat.mod_eq_of_lt (by omega : k < 2 ^ 64), Nat.mod_eq_of_lt hk, Nat.one_shiftLeft]
  exact Nat.mod_eq_of_lt (Nat.pow_lt_pow_right (by decide) hk)

/-- The mask `1 << k` has exactly bit `k` set. -/
@[simp] theorem testBit_one_shiftLeft (hk : k < 64) (j : Nat) :
    ((1 : UInt64) <<< k.toUInt64).toNat.testBit j = decide (k = j) := by
  rw [toNat_one_shiftLeft hk, Nat.testBit_two_pow]

/-- `!m` flips every bit below `64`. -/
theorem testBit_not (m : UInt64) (hj : j < 64) : (~~~m).toNat.testBit j = !m.toNat.testBit j := by
  rw [← UInt64.toNat_toBitVec, ← BitVec.getLsbD, UInt64.toBitVec_not, BitVec.getLsbD_not,
    BitVec.getLsbD, UInt64.toNat_toBitVec]
  simp [hj]

/-- `w & mask == mask` with `mask = 1 << k` tests bit `k` of `w`. -/
theorem and_mask_beq (w : UInt64) (hk : k < 64) :
    (w &&& (1 <<< k.toUInt64) == 1 <<< k.toUInt64) = w.toNat.testBit k := by
  rw [Bool.eq_iff_iff, beq_iff_eq, UInt64.ext_iff, UInt64.toNat_and, toNat_one_shiftLeft hk,
    Nat.and_two_pow]
  cases w.toNat.testBit k
  · simpa using (Nat.two_pow_pos k).ne
  · simp

/-- `w & mask == 0` with `mask = 1 << k` says bit `k` of `w` is clear. -/
theorem and_mask_eq_zero (w : UInt64) (hk : k < 64) :
    w &&& (1 <<< k.toUInt64) = 0 ↔ w.toNat.testBit k = false := by
  rw [UInt64.ext_iff, UInt64.toNat_and, toNat_one_shiftLeft hk, Nat.and_two_pow, UInt64.toNat_zero]
  cases w.toNat.testBit k <;> simp

/-- Bit `k` of `w & !(1 << x)`: bit `k` of `w`, cleared at `x`. -/
theorem testBit_and_not_mask (w : UInt64) {x : Nat} (hx : x < 64) (hk : k < 64) :
    (w &&& ~~~((1 : UInt64) <<< x.toUInt64)).toNat.testBit k = (w.toNat.testBit k && x != k) := by
  rw [UInt64.toNat_and, Nat.testBit_and, testBit_not _ hk, testBit_one_shiftLeft hx]
  by_cases hxk : x = k <;> simp [hxk]

/-- The positions of the one bits of `w`, lowest first. -/
def ones (w : UInt64) : List Nat := (List.range 64).filter w.toNat.testBit

/-- `u64::count_ones`. -/
def countOnes (w : UInt64) : Nat := (ones w).length

/-- `u64::trailing_zeros`: the position of the lowest one bit, `64` for the zero word. -/
def trailingZeros (w : UInt64) : Nat := ((List.range 64).find? w.toNat.testBit).getD 64

variable {w : UInt64} {x : Nat} {rest : List Nat}

@[simp] theorem mem_ones : x ∈ ones w ↔ x < 64 ∧ w.toNat.testBit x = true := by
  simp [ones]

theorem nodup_ones (w : UInt64) : (ones w).Nodup := List.nodup_range.filter _

theorem lt_of_mem_ones (h : x ∈ ones w) : x < 64 := (mem_ones.mp h).1

theorem trailingZeros_of_ones_nil (h : ones w = []) : trailingZeros w = 64 := by
  rw [trailingZeros, ← List.head?_filter, ← ones, h]
  rfl

theorem trailingZeros_of_ones_cons (h : ones w = x :: rest) : trailingZeros w = x := by
  rw [trailingZeros, ← List.head?_filter, ← ones, h]
  rfl

/-- Clearing the lowest one bit drops it from the front of `ones`. -/
theorem ones_clearLowest (h : ones w = x :: rest) :
    ones (w &&& ~~~((1 : UInt64) <<< x.toUInt64)) = rest := by
  have hx : x < 64 := lt_of_mem_ones (h ▸ List.mem_cons_self)
  have hnot : x ∉ rest := (List.nodup_cons.mp (h ▸ nodup_ones w)).1
  calc ones (w &&& ~~~((1 : UInt64) <<< x.toUInt64))
      = (ones w).filter (fun k => x != k) := by
        rw [ones, ones, List.filter_filter]
        refine List.filter_congr fun k hk => ?_
        rw [testBit_and_not_mask w hx (List.mem_range.mp hk), Bool.and_comm]
    _ = rest := by
        rw [h, List.filter_cons_of_neg (by simp), List.filter_eq_self]
        intro k hk
        have hkx : k ≠ x := fun hkx => hnot (hkx ▸ hk)
        exact bne_iff_ne.mpr hkx.symm

end Bits

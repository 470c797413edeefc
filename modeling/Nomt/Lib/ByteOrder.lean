import Mathlib.Algebra.Order.Group.Nat
import Mathlib.Data.List.Basic
import Mathlib.Data.List.Induction

/-!
# Byte order

`to_be_bytes` of a `k`-byte integer: its `k` low bytes, most significant first. The bytes of `n`
are those of `n % 256 ^ k` (`beBytes_mod`), so two numbers have the same bytes exactly when they
agree modulo `256 ^ k` (`beBytes_eq_beBytes_iff`), and a wide buffer holding a narrow number
starts with zero bytes (`beBytes_add`, `beBytes_zero`). `from_be_bytes` reads them back
(`ofBeBytes_beBytes`), and bytes read as a number are written back unchanged
(`beBytes_ofBeBytes`). The little-endian forms are the same bytes reversed.

A byte string cut by `chunks(4)` into words: `chunks4` takes a run of 4-byte encodings apart
again (`chunks4_flatMap`). The range indexing of slices, which panics out of range, is `none`
there (`RustSlice`).
-/

namespace ByteOrder

/-- The `k` low bytes of `n`, most significant first. -/
def beBytes (n : Nat) : Nat → List UInt8
  | 0 => []
  | k + 1 => beBytes (n / 256) k ++ [UInt8.ofNat n]

variable {n : Nat}

@[simp] theorem length_beBytes (k : Nat) : (beBytes n k).length = k := by
  induction k generalizing n with
  | zero => rfl
  | succ k ih => simp [beBytes, ih]

@[simp] theorem beBytes_zero (k : Nat) : beBytes 0 k = List.replicate k 0 := by
  induction k with
  | zero => rfl
  | succ k ih => rw [beBytes, Nat.zero_div, ih, List.replicate_succ']; rfl

/-- The high `j` bytes of a `j + k`-byte number are those of its quotient by `256 ^ k`. -/
theorem beBytes_add (j k : Nat) : beBytes n (j + k) = beBytes (n / 256 ^ k) j ++ beBytes n k := by
  induction k generalizing n with
  | zero => simp [beBytes]
  | succ k ih =>
    rw [← Nat.add_assoc, beBytes, ih, beBytes, List.append_assoc, Nat.div_div_eq_div_mul,
      Nat.pow_succ', Nat.mul_comm]

theorem ofNat_eq_ofNat_iff {a b : Nat} : UInt8.ofNat a = UInt8.ofNat b ↔ a % 256 = b % 256 := by
  rw [← UInt8.toNat_inj, UInt8.toNat_ofNat', UInt8.toNat_ofNat']

/-- Only `n % 256 ^ k` is written. -/
theorem beBytes_mod (k : Nat) : beBytes (n % 256 ^ k) k = beBytes n k := by
  induction k generalizing n with
  | zero => rfl
  | succ k ih =>
    have hdiv : n % 256 ^ (k + 1) / 256 = n / 256 % 256 ^ k := by
      rw [Nat.pow_succ', Nat.mod_mul_right_div_self]
    have hlow : UInt8.ofNat (n % 256 ^ (k + 1)) = UInt8.ofNat n :=
      ofNat_eq_ofNat_iff.mpr (Nat.mod_mod_of_dvd n ⟨256 ^ k, Nat.pow_succ' ..⟩)
    rw [beBytes, beBytes, hdiv, ih, hlow]

/-- `from_be_bytes`: the number whose bytes, most significant first, are `bytes`. -/
def ofBeBytes (bytes : List UInt8) : Nat := bytes.foldl (fun acc byte => acc * 256 + byte.toNat) 0

@[simp] theorem ofBeBytes_append_singleton (bytes : List UInt8) (byte : UInt8) :
    ofBeBytes (bytes ++ [byte]) = ofBeBytes bytes * 256 + byte.toNat := by
  simp [ofBeBytes, List.foldl_append]

/-- Reading the bytes back gives the number modulo `256 ^ k`. -/
theorem ofBeBytes_beBytes (k : Nat) : ofBeBytes (beBytes n k) = n % 256 ^ k := by
  induction k generalizing n with
  | zero => simp [beBytes, ofBeBytes, Nat.mod_one]
  | succ k ih =>
    have hsplit : n % 256 ^ (k + 1) = n % 256 + 256 * (n / 256 % 256 ^ k) := by
      rw [Nat.pow_succ', Nat.mod_mul]
    rw [beBytes, ofBeBytes_append_singleton, ih, UInt8.toNat_ofNat', hsplit]
    omega

/-- Two numbers have the same `k` bytes exactly when they agree modulo `256 ^ k`. -/
theorem beBytes_eq_beBytes_iff {a b : Nat} (k : Nat) :
    beBytes a k = beBytes b k ↔ a % 256 ^ k = b % 256 ^ k := by
  constructor
  · intro h
    rw [← ofBeBytes_beBytes, h, ofBeBytes_beBytes]
  · intro h
    rw [← beBytes_mod, h, beBytes_mod]

/-- `to_le_bytes`: the `k` low bytes of `n`, least significant first. -/
def leBytes (n k : Nat) : List UInt8 := (beBytes n k).reverse

/-- `from_le_bytes`. -/
def ofLeBytes (bytes : List UInt8) : Nat := ofBeBytes bytes.reverse

@[simp] theorem length_leBytes (k : Nat) : (leBytes n k).length = k := by
  simp [leBytes]

theorem ofLeBytes_leBytes (k : Nat) : ofLeBytes (leBytes n k) = n % 256 ^ k := by
  rw [ofLeBytes, leBytes, List.reverse_reverse, ofBeBytes_beBytes]

/-- Writing a number read from bytes gives the bytes back. -/
theorem beBytes_ofBeBytes (bytes : List UInt8) : beBytes (ofBeBytes bytes) bytes.length = bytes := by
  induction bytes using List.reverseRecOn with
  | nil => rfl
  | append_singleton init byte ih =>
    have hlt := byte.toNat_lt
    have hdiv : (ofBeBytes init * 256 + byte.toNat) / 256 = ofBeBytes init := by omega
    have hlow : UInt8.ofNat (ofBeBytes init * 256 + byte.toNat) = byte := by
      rw [← UInt8.toNat_inj, UInt8.toNat_ofNat']
      omega
    rw [ofBeBytes_append_singleton, List.length_append, List.length_singleton, beBytes, hdiv, ih,
      hlow]

/-- The number of `k` bytes is below `256 ^ k`. -/
theorem ofBeBytes_lt (bytes : List UInt8) : ofBeBytes bytes < 256 ^ bytes.length := by
  have h := ofBeBytes_beBytes (n := ofBeBytes bytes) bytes.length
  rw [beBytes_ofBeBytes] at h
  rw [h]
  exact Nat.mod_lt _ (Nat.pow_pos (by decide))

theorem leBytes_ofLeBytes (bytes : List UInt8) : leBytes (ofLeBytes bytes) bytes.length = bytes := by
  rw [leBytes, ofLeBytes, ← List.length_reverse, beBytes_ofBeBytes, List.reverse_reverse]

/-- `u64::from_le_bytes` of `to_le_bytes`. -/
theorem ofLeBytes_leBytes_u64 (w : UInt64) : UInt64.ofNat (ofLeBytes (leBytes w.toNat 8)) = w := by
  rw [ofLeBytes_leBytes, show (256 : Nat) ^ 8 = 2 ^ 64 from rfl, Nat.mod_eq_of_lt w.toNat_lt,
    UInt64.ofNat_toNat]

/-- `u32::from_le_bytes` of `to_le_bytes`. -/
theorem ofLeBytes_leBytes_u32 (w : UInt32) : UInt32.ofNat (ofLeBytes (leBytes w.toNat 4)) = w := by
  rw [ofLeBytes_leBytes, show (256 : Nat) ^ 4 = 2 ^ 32 from rfl, Nat.mod_eq_of_lt w.toNat_lt,
    UInt32.ofNat_toNat]

/-- `chunks(4)`: consecutive pieces of four elements, the last one possibly shorter. -/
def chunks4 {α : Type} : List α → List (List α)
  | a :: b :: c :: d :: rest => [a, b, c, d] :: chunks4 rest
  | [] => []
  | l => [l]

/-- Cutting a run of 4-element pieces gives the pieces back. -/
theorem chunks4_flatMap {α β : Type} (f : β → List α) (hf : ∀ x, (f x).length = 4) :
    ∀ l : List β, chunks4 (l.flatMap f) = l.map f
  | [] => rfl
  | x :: l => by
    have hx := hf x
    rw [List.flatMap_cons, List.map_cons]
    rcases hfx : f x with _ | ⟨a, _ | ⟨b, _ | ⟨c, _ | ⟨d, _ | ⟨e, rest⟩⟩⟩⟩⟩ <;>
      rw [hfx] at hx <;> simp only [List.length_cons, List.length_nil] at hx <;> try omega
    rw [List.cons_append, List.cons_append, List.cons_append, List.cons_append, List.nil_append,
      chunks4, chunks4_flatMap f hf l]

/-! ### Bits -/

/-- `load_be` of a bit slice: the bits as a number, most significant first. -/
def loadBe (bits : List Bool) : Nat := bits.foldl (fun acc bit => 2 * acc + bit.toNat) 0

@[simp] theorem loadBe_nil : loadBe [] = 0 := rfl

@[simp] theorem loadBe_append_singleton (bits : List Bool) (bit : Bool) :
    loadBe (bits ++ [bit]) = 2 * loadBe bits + bit.toNat := by
  simp [loadBe]

theorem loadBe_lt (bits : List Bool) : loadBe bits < 2 ^ bits.length := by
  induction bits using List.reverseRecOn with
  | nil => simp
  | append_singleton bits bit ih =>
    rw [loadBe_append_singleton, List.length_append, List.length_singleton, Nat.pow_succ]
    have := Bool.toNat_le bit
    omega

/-- `chunks_exact(n)`: the consecutive pieces of `n` elements, a shorter rest left out. -/
def chunksExact {α : Type} (n : Nat) (s : List α) : List (List α) :=
  (List.range (s.length / n)).map fun i => (s.drop (i * n)).take n

@[simp] theorem length_chunksExact {α : Type} (n : Nat) (s : List α) :
    (chunksExact n s).length = s.length / n := by
  simp [chunksExact]

theorem length_of_mem_chunksExact {α : Type} {n : Nat} {s : List α} {c : List α} (hn : 0 < n)
    (h : c ∈ chunksExact n s) : c.length = n := by
  obtain ⟨i, hi, rfl⟩ := List.mem_map.mp h
  have hle : (i + 1) * n ≤ s.length := (Nat.le_div_iff_mul_le hn).mp (List.mem_range.mp hi)
  rw [Nat.succ_mul] at hle
  rw [List.length_take, List.length_drop]
  omega

/-- The bits of bytes, the most significant bit of each byte first (`view_bits::<Msb0>`). -/
def msbBits (bytes : List UInt8) : List Bool :=
  bytes.flatMap fun byte => (List.range 8).map fun i => byte.toNat.testBit (7 - i)

/-- Bytes from bits, eight at a time, most significant first; a shorter rest left out. -/
def ofMsbBits (bits : List Bool) : List UInt8 :=
  (chunksExact 8 bits).map fun c => UInt8.ofNat (loadBe c)

end ByteOrder

/-! ### Slices

Rust's range indexing `s[i..j]`, `s[i..]` and `s[..j]` panics when the range leaves the slice.
Here a panic is `none`. Every lemma below says when an index is in range and what it returns. -/

namespace RustSlice

variable {α : Type}

/-- `&s[i..j]`: defined when `i ≤ j ≤ s.len()`. -/
def range (s : List α) (i j : Nat) : Option (List α) :=
  if i ≤ j ∧ j ≤ s.length then some ((s.take j).drop i) else none

/-- `&s[i..]`: defined when `i ≤ s.len()`. -/
def rangeFrom (s : List α) (i : Nat) : Option (List α) :=
  if i ≤ s.length then some (s.drop i) else none

/-- `&s[..j]`: defined when `j ≤ s.len()`. -/
def rangeTo (s : List α) (j : Nat) : Option (List α) :=
  if j ≤ s.length then some (s.take j) else none

theorem range_of_le {s : List α} {i j : Nat} (hij : i ≤ j) (hj : j ≤ s.length) :
    range s i j = some ((s.take j).drop i) := by
  simp [range, hij, hj]

theorem rangeFrom_of_le {s : List α} {i : Nat} (hi : i ≤ s.length) :
    rangeFrom s i = some (s.drop i) := by
  simp [rangeFrom, hi]

theorem rangeTo_of_le {s : List α} {j : Nat} (hj : j ≤ s.length) :
    rangeTo s j = some (s.take j) := by
  simp [rangeTo, hj]

theorem range_eq_some_iff {s t : List α} {i j : Nat} :
    range s i j = some t ↔ i ≤ j ∧ j ≤ s.length ∧ t = (s.take j).drop i := by
  unfold range
  by_cases h : i ≤ j ∧ j ≤ s.length
  · simp [h, eq_comm]
  · simp only [h, if_false, reduceCtorEq, false_iff]
    exact fun ⟨h1, h2, _⟩ => h ⟨h1, h2⟩

theorem rangeFrom_eq_some_iff {s t : List α} {i : Nat} :
    rangeFrom s i = some t ↔ i ≤ s.length ∧ t = s.drop i := by
  unfold rangeFrom
  by_cases h : i ≤ s.length
  · simp [h, eq_comm]
  · simp [h]

theorem rangeTo_eq_some_iff {s t : List α} {j : Nat} :
    rangeTo s j = some t ↔ j ≤ s.length ∧ t = s.take j := by
  unfold rangeTo
  by_cases h : j ≤ s.length
  · simp [h, eq_comm]
  · simp [h]

end RustSlice

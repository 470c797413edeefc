import Nomt.Lib.ByteOrder

/-!
# Bit copies between byte slices (`nomt/src/beatree/ops/bit_ops.rs`)

Branch nodes store separators packed bit by bit, each after the node's shared prefix.
`bitwise_memcpy` copies `source_bit_len` bits from `source`, from bit `source_bit_start` of its
first byte, into `destination` from bit `destination_bit_start`, most significant bit first. It
reads the source in big-endian 64-bit chunks, masks the first and the last chunk, shifts every
chunk by the difference of the two bit starts, and carries the bits a shift pushes out of one
chunk into the next. Its documented precondition: the source is the smallest multiple of 8 bytes
that holds `source_bit_start + source_bit_len` bits, and the destination holds
`destination_bit_start + source_bit_len` bits. The fuzz target compares it with a plain bit
copy (`referenceBitwiseMemcpy`).

`copy_and_shift_separators` carries the last `bit_prefix_len_difference` bits of a base node's
prefix in front of each separator when the new node's prefix is shorter. It sizes the source
window from that bit count alone (`carryPrefix`), not from the bit it starts at: a window that
starts inside a byte is short by up to 7 bits whenever the bit count is a multiple of 64
(`carryPrefix_window_short`), and `bitwise_memcpy` then drops the last carried bit or panics.

A panic (an integer underflow, a shift of a `u8` by 8 or more, an index or a range out of the
slice, a failed `assert_eq!`) is `none`. Bit starts are offsets within a byte, below 8, as every
caller passes them.
-/

namespace Nomt.Beatree

open ByteOrder

/-- `a - b` on `usize`: a panic below zero. -/
def checkedSub (a b : Nat) : Option Nat := if b ≤ a then some (a - b) else none

/-- `x.checked_shl(s)` on `u64`. -/
def checkedShl (x : UInt64) (s : Nat) : Option UInt64 :=
  if s < 64 then some (x <<< s.toUInt64) else none

/-- `x << s` on `u8`: a panic from `s = 8` on. -/
def shlU8 (x : UInt8) (s : Nat) : Option UInt8 := if s < 8 then some (x <<< s.toUInt8) else none

/-- `x >> s` on `u8`: a panic from `s = 8` on. -/
def shrU8 (x : UInt8) (s : Nat) : Option UInt8 := if s < 8 then some (x >>> s.toUInt8) else none

/-- `u64::MAX`. -/
def U64_MAX : UInt64 := ~~~0

/-- `u64::to_be_bytes`. -/
def toBeBytes (x : UInt64) : List UInt8 := beBytes x.toNat 8

/-- `u64::from_be_bytes`. -/
def fromBeBytes (bytes : List UInt8) : UInt64 := UInt64.ofNat (ofBeBytes bytes)

/-- `first_chunk_mask`: the bits of a chunk from bit `bit_start` of its first byte on. -/
def firstChunkMask (bitStart : Nat) : UInt64 :=
  let maskShift := (7 - bitStart) + 1 + 8 * 7
  ((checkedShl 1 maskShift).map fun m => m - 1).getD U64_MAX

/-- `last_chunk_mask`: the bits of the last of `n_chunks` chunks up to bit
`bit_start + bit_len` of the first. -/
def lastChunkMask (bitStart bitLen nChunks : Nat) : UInt64 :=
  let usedLastChunkBits := (bitStart + bitLen) - (nChunks - 1) * 64
  ((checkedShl 1 (64 - usedLastChunkBits)).map fun m => ~~~(m - 1)).getD 0

/-- `Shift`: the difference of the two bit starts, and for a right shift the bits it pushes out
of the previous and of the current chunk. -/
inductive Shift where
  | left (amount : Nat)
  | right (amount : Nat) (prevRemainder currRemainder : Option UInt8)
  deriving DecidableEq, Repr

/-- The arguments of `bitwise_memcpy` but the destination. -/
structure Memcpy where
  source : List UInt8
  destinationBitStart : Nat
  sourceBitStart : Nat
  sourceBitLen : Nat

/-- The variables of the chunk loop: the shift with its remainders, the destination and how many
of its bytes are written. -/
structure MemcpyState where
  shift : Option Shift
  destination : List UInt8
  destinationOffset : Nat

namespace Memcpy

variable (a : Memcpy)

/-- `n_chunks`. -/
def nChunks : Nat := a.source.length / 8

/-- `bytes_to_write`. -/
def bytesToWrite : Nat := (a.destinationBitStart + a.sourceBitLen + 7) / 8

/-- The remainder a right shift pushes out of chunk `chunkIndex`: the low bits of its last byte,
cut at the source's last bit in the last chunk. -/
def rightRemainder (chunkIndex amount : Nat) : Option UInt8 := do
  let m ← shlU8 1 amount
  let mask := if chunkIndex = a.nChunks - 1 then
      -- remove garbage of the last chunk from the remainder
      (m - 1) &&& (toBeBytes (lastChunkMask a.sourceBitStart a.sourceBitLen a.nChunks)).getD 7 0
    else m - 1
  let byte ← a.source[chunkIndex * 8 + 7]?
  shlU8 (byte &&& mask) (← checkedSub 8 amount)

/-- `(mask_from, mask_to)` of chunk `chunkIndex`: the first chunk's from the bit starts, the last
chunk's from the ends of the copied bits. -/
def masks (chunkIndex : Nat) : Option (UInt64 × UInt64) :=
  let first := if chunkIndex = 0 then
      some (firstChunkMask a.sourceBitStart, firstChunkMask a.destinationBitStart)
    else none
  if chunkIndex = a.nChunks - 1 then
    let (maskFrom, maskTo) := first.getD (U64_MAX, U64_MAX)
    some (maskFrom &&& lastChunkMask a.sourceBitStart a.sourceBitLen a.nChunks,
      maskTo &&& lastChunkMask a.destinationBitStart a.sourceBitLen a.nChunks)
  else first

/-- The left shift's last byte of chunk `chunkIndex`: the high bits of the next chunk's first
byte, and, when this chunk ends the bytes to write, the destination's bits after the copy. -/
def leftRemainder (chunkIndex amount : Nat) (st : MemcpyState) : Option UInt8 := do
  let (mask, unchangedBits) ← if st.destinationOffset + 8 = a.bytesToWrite then do
      let mask := (toBeBytes (lastChunkMask a.sourceBitStart a.sourceBitLen a.nChunks)).getD 0 0
      let bitsToKeep ← checkedSub (a.bytesToWrite * 8) (a.destinationBitStart + a.sourceBitLen)
      let maskTo := (← shlU8 1 bitsToKeep) - 1
      pure (mask, (← st.destination[st.destinationOffset + 7]?) &&& maskTo)
    else pure (255, 0)
  let next ← a.source[(chunkIndex + 1) * 8]?
  let remainderBits ← shrU8 (next &&& mask) (← checkedSub 8 amount)
  pure (remainderBits ||| unchangedBits)

/-- One round of the chunk loop of `bitwise_memcpy`. -/
def chunk (chunkIndex : Nat) (st : MemcpyState) : Option MemcpyState := do
  let chunkStart := chunkIndex * 8
  let shift ← match st.shift with
    | some (.right amount prev _) =>
      pure (some (Shift.right amount prev (some (← a.rightRemainder chunkIndex amount))))
    | shift => pure shift
  let chunk := fromBeBytes (← RustSlice.range a.source chunkStart (chunkStart + 8))
  -- keep the destination's bits outside the copy in the first and the last chunk
  let (chunk, chunkData) ← match a.masks chunkIndex with
    | some (maskFrom, maskTo) => do
      -- the destination could have less than 8 bytes available
      let nByte := min 8 (← checkedSub st.destination.length st.destinationOffset)
      let destinationBytes ←
        RustSlice.range st.destination st.destinationOffset (st.destinationOffset + nByte)
      let destinationChunk := fromBeBytes (destinationBytes ++ List.replicate (8 - nByte) 0)
      pure (chunk &&& maskFrom, some (destinationChunk &&& ~~~maskTo))
    | none => pure (chunk, none)
  let chunk := match shift with
    | some (.left amount) => chunk <<< amount.toUInt64
    | some (.right amount _ _) => chunk >>> amount.toUInt64
    | none => chunk
  let chunk := match chunkData with
    | some data => chunk ||| data
    | none => chunk
  let chunkShifted := toBeBytes chunk
  -- move bits remainder between chunk boundaries
  let (chunkShifted, shift) ← match shift with
    | some (.left amount) =>
      if chunkIndex < a.nChunks - 1 then do
        let bits ← a.leftRemainder chunkIndex amount st
        pure (chunkShifted.set 7 (chunkShifted.getD 7 0 ||| bits), shift)
      else pure (chunkShifted, shift)
    | some (.right amount prev curr) =>
      let chunkShifted := match prev with
        | some bits => chunkShifted.set 0 (chunkShifted.getD 0 0 ||| bits)
        | none => chunkShifted
      pure (chunkShifted, some (.right amount curr curr))
    | none => pure (chunkShifted, shift)
  -- store the shifted chunk
  let nByte := min 8 (← checkedSub st.destination.length st.destinationOffset)
  pure ⟨shift, st.destination.take st.destinationOffset ++ chunkShifted.take nByte ++
    st.destination.drop (st.destinationOffset + nByte), st.destinationOffset + nByte⟩

/-- The chunk loop from chunk `chunkIndex`, `k` chunks left: it stops once the bytes to write
are written. -/
def loop : Nat → Nat → MemcpyState → Option MemcpyState
  | 0, _, st => some st
  | k + 1, chunkIndex, st => do
    let st ← a.chunk chunkIndex st
    if a.bytesToWrite ≤ st.destinationOffset then some st else loop k (chunkIndex + 1) st

/-- After the loop: at most one byte is left to write, from the last right remainder. -/
def tail (st : MemcpyState) : Option (List UInt8) :=
  if st.destinationOffset < a.bytesToWrite then
    if a.bytesToWrite - st.destinationOffset ≠ 1 then none
    else match st.shift with
      | some (.right amount (some prevRemainder) _) => do
        -- the last right shift could require a shift of fewer bits
        let garbageBits ← checkedSub (a.nChunks * 64) (a.sourceBitStart + a.sourceBitLen)
        let mask := (← shlU8 1 (← checkedSub 8 (← checkedSub amount garbageBits))) - 1
        let byte ← st.destination[st.destinationOffset]?
        pure (st.destination.set st.destinationOffset
          ((byte &&& mask) ||| (prevRemainder &&& ~~~mask)))
      | _ => pure st.destination
  else pure st.destination

end Memcpy

/-- `bitwise_memcpy`: the destination after the copy. -/
def bitwiseMemcpy (destination : List UInt8) (destinationBitStart : Nat) (source : List UInt8)
    (sourceBitStart sourceBitLen : Nat) : Option (List UInt8) :=
  if sourceBitLen = 0 then some destination
  else
    let a : Memcpy := ⟨source, destinationBitStart, sourceBitStart, sourceBitLen⟩
    let shift : Option Shift :=
      if destinationBitStart = sourceBitStart then none
      else if destinationBitStart < sourceBitStart then
        some (.left (sourceBitStart - destinationBitStart))
      else some (.right (destinationBitStart - sourceBitStart) none none)
    a.loop a.nChunks 0 ⟨shift, destination, 0⟩ >>= a.tail

/-- `reference_bitwise_memcpy` of the fuzz target: the destination's bits from
`destination_bit_start` replaced by the source's bits from `source_bit_start`, one by one. -/
def referenceBitwiseMemcpy (destination : List UInt8) (destinationBitStart : Nat)
    (source : List UInt8) (sourceBitStart sourceBitLen : Nat) : Option (List UInt8) :=
  let d := msbBits destination
  let s := msbBits source
  if destinationBitStart + sourceBitLen ≤ d.length ∧ sourceBitStart + sourceBitLen ≤ s.length then
    some (ofMsbBits (d.take destinationBitStart ++ (s.drop sourceBitStart).take sourceBitLen ++
      d.drop (destinationBitStart + sourceBitLen)))
  else none

/-! ### The carried prefix of `copy_and_shift_separators` -/

/-- `BRANCH_NODE_HEADER_SIZE`. -/
def BRANCH_NODE_HEADER_SIZE : Nat := 4 + 2 + 2 + 2

/-- `BranchNodeView::n`: the little-endian `u16` at bytes 4..6. -/
def branchN (page : List UInt8) : Nat := ofLeBytes ((page.take 6).drop 4)

/-- `BranchNodeView::prefix_len`: the little-endian `u16` at bytes 8..10. -/
def branchPrefixLen (page : List UInt8) : Nat := ofLeBytes ((page.take 10).drop 8)

/-- `usize::next_multiple_of`. -/
def nextMultipleOf (n m : Nat) : Nat := if n % m = 0 then n else n + (m - n % m)

/-- `carry_prefix`: the window of the base page holding the last `bit_prefix_len_difference` bits
of the base prefix, and the bit of its first byte they start at. -/
def carryPrefix (base : List UInt8) (bitPrefixLenDifference : Nat) : Option (Nat × Nat × Nat) := do
  let bitsToSkip ← checkedSub (branchPrefixLen base) bitPrefixLenDifference
  let bytesToSkip := bitsToSkip / 8
  let prefixBitStart := bitsToSkip % 8
  let basePrefixStart := BRANCH_NODE_HEADER_SIZE + branchN base * 2
  let start := basePrefixStart + bytesToSkip
  let byteLen := nextMultipleOf ((bitPrefixLenDifference + 7) / 8) 8
  pure (start, start + byteLen, prefixBitStart)

theorem nextMultipleOf_of_mod_eq_zero {n m : Nat} (h : n % m = 0) : nextMultipleOf n m = n := by
  simp [nextMultipleOf, h]

/-- The inversion lemma of `carryPrefix`. -/
theorem carryPrefix_eq_some {base : List UInt8} {diff start stop prefixBitStart : Nat}
    (h : carryPrefix base diff = some (start, stop, prefixBitStart)) :
    diff ≤ branchPrefixLen base ∧ prefixBitStart = (branchPrefixLen base - diff) % 8 ∧
      stop = start + nextMultipleOf ((diff + 7) / 8) 8 := by
  simp only [carryPrefix, checkedSub, bind, Option.bind_eq_some_iff] at h
  obtain ⟨bitsToSkip, hskip, h⟩ := h
  split_ifs at hskip with hle
  cases hskip
  cases h
  exact ⟨hle, rfl, rfl⟩

/-- A carried prefix of a multiple of 64 bits that starts inside a byte does not fit its window:
the window holds exactly the bit count, from the byte the bits start in. -/
theorem carryPrefix_window_short {base : List UInt8} {diff start stop prefixBitStart : Nat}
    (h : carryPrefix base diff = some (start, stop, prefixBitStart)) (hdiff : diff % 64 = 0)
    (hstart : 0 < prefixBitStart) : (stop - start) * 8 < prefixBitStart + diff := by
  obtain ⟨-, -, rfl⟩ := carryPrefix_eq_some h
  have hbytes : (diff + 7) / 8 % 8 = 0 := by omega
  rw [nextMultipleOf_of_mod_eq_zero hbytes]
  omega

/-- The first copy of `copy_and_shift_separators` for one separator: the carried prefix, into
the separator's bytes from its bit start. -/
def copyCarriedPrefix (base : List UInt8) (bitPrefixLenDifference : Nat) (separator : List UInt8)
    (separatorBitStart : Nat) : Option (List UInt8) := do
  let (start, stop, prefixBitStart) ← carryPrefix base bitPrefixLenDifference
  bitwiseMemcpy separator separatorBitStart (← RustSlice.range base start stop) prefixBitStart
    bitPrefixLenDifference

/-- A base node with one separator and a 65-bit prefix of ones, carried whole but its first bit
into a node with a 1-bit prefix. The window is 8 bytes from bit 1, 63 of the 64 bits: copied to a
separator starting at bit 1, the last carried bit is lost where the plain bit copy of the prefix
sets it; from bit 2 on, `bitwise_memcpy` underflows. -/
theorem copyCarriedPrefix_drops_last_bit :
    copyCarriedPrefix ([0, 0, 0, 0, 1, 0, 0, 0, 65, 0, 0, 0] ++ List.replicate 8 255 ++ [128] ++
        List.replicate 4075 0) 64 (List.replicate 16 0) 1 =
      some (127 :: List.replicate 7 255 ++ List.replicate 8 0) ∧
    referenceBitwiseMemcpy (List.replicate 16 0) 1
        (List.replicate 8 255 ++ 128 :: List.replicate 7 0) 1 64 =
      some (127 :: List.replicate 7 255 ++ 128 :: List.replicate 7 0) ∧
    copyCarriedPrefix ([0, 0, 0, 0, 1, 0, 0, 0, 65, 0, 0, 0] ++ List.replicate 8 255 ++ [128] ++
        List.replicate 4075 0) 64 (List.replicate 16 0) 2 = none := by
  refine ⟨?_, ?_, ?_⟩
  · decide +kernel
  · decide +kernel
  · decide +kernel

end Nomt.Beatree

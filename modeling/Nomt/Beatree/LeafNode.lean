import Nomt.Store.PageDiff
import Nomt.Lib.BinarySearch

/-!
# Leaf nodes (`nomt/src/beatree/leaf/node.rs`)

A leaf node is one page:

```
n: u16, cell_pointers: [(key ++ offset); n], padding, values
```

Each cell pointer is 34 bytes: the 32-byte key, then a little-endian `u16` whose low 15 bits are
the offset of the cell's value in the page and whose high bit flags an overflow cell. The values
are packed in key order against the end of the page: a value ends where the next one starts, and
the last one at `PAGE_SIZE`. A panic (a failed `assert!`, an out-of-range index or slice, an
integer overflow or underflow, a failed `unwrap`) is `none`.

`LeafBuilder` writes such a page for a count and a total value size fixed up front, through
`push_cell` (one cell) and `push_chunk` (a run of cells of another leaf: their pointers are copied
and their offsets moved by the distance between the two value positions, then the run's values are
copied as one block). `finish` checks that the values filled the page.

The proof describes the page a builder has written so far by `Layout`: each pushed cell's pointer
bytes in its slot (`pointerBytes`, with the offset of its value) and each value at its offset.

* `cellOffset_of_getElem?` and `eq_pointerBytes_of_cellOffset`: a pointer's flagged `u16` is read
  back, and every pointer is the encoding of what it reads as.
* `LeafBuilder.Inv` is what a builder keeps; `Inv.extend` is what any push must show to keep it,
  `Inv.pushCell` and `Inv.pushChunk` are the two step lemmas, `Inv.foldlM_push` the run lemma.
* `Holds.layout`: a leaf that reads back as some cells lays them out as the builder would, so the
  run a chunk copies is found where `push_chunk` looks for it.
* `Layout.holds` and the `get` lemmas read a finished layout back.
-/

namespace Nomt.Beatree

open ByteOrder

/-- `LEAF_NODE_BODY_SIZE`: the page without the count. -/
def LEAF_NODE_BODY_SIZE : Nat := PAGE_SIZE - 2

/-- `OVERFLOW_BIT`. -/
def OVERFLOW_BIT : UInt16 := (1 : UInt16) <<< 15

/-- `beatree::Key`. -/
abbrev Key := Vector UInt8 32

/-- `body_size`. -/
def bodySize (n valueSizeSum : Nat) : Nat := n * 34 + valueSizeSum

/-- `extract_key`: the first 32 bytes of a cell pointer. -/
def extractKey (cellPointer : List UInt8) : Key := Vector.ofFn fun j => cellPointer.getD j 0

/-- `cell_offset`: the low 15 bits of the pointer's `u16` and its high bit. -/
def cellOffset (cellPointers : List (List UInt8)) (index : Nat) : Option (Nat × Bool) := do
  let cellPointer ← cellPointers[index]?
  let val := UInt16.ofNat (ofLeBytes ((cellPointer.drop 32).take 2))
  some ((val &&& ~~~OVERFLOW_BIT).toNat, val &&& OVERFLOW_BIT == OVERFLOW_BIT)

/-- `encode_cell_pointer`: the 34 bytes it writes into the cell. -/
def encodeCellPointer (key : Key) (offset : Nat) (overflow : Bool) : Option (List UInt8) := do
  -- `u16::try_from(offset).unwrap()`
  guard (offset < 2 ^ 16)
  let val := UInt16.ofNat offset
  guard (val < OVERFLOW_BIT)
  let val := if overflow then val ||| OVERFLOW_BIT else val
  some (key.toList ++ leBytes val.toNat 2)

/-- `search`: `binary_search_by` comparing the key bytes of each cell pointer with `key`. -/
def search (cellPointers : List (List UInt8)) (key : Key) : Except Nat Nat :=
  RustSlice.binarySearchBy cellPointers fun cell => compare (cell.take 32) key.toList

/-! ## The flagged `u16` of a cell pointer -/

/-- The cell pointer holding `key` and the value's `offset`, with the overflow flag as the high
bit of the offset's `u16`. -/
def pointerBytes (key : Key) (offset : Nat) (overflow : Bool) : List UInt8 :=
  key.toList ++ leBytes (offset + 2 ^ 15 * overflow.toNat) 2

section Pointer

variable {key : Key} {offset : Nat} {overflow : Bool}

@[simp] theorem length_pointerBytes : (pointerBytes key offset overflow).length = 34 := by
  simp [pointerBytes]

theorem toNat_and_not_OVERFLOW_BIT (val : UInt16) :
    (val &&& ~~~OVERFLOW_BIT).toNat = val.toNat % 2 ^ 15 := by
  have hmask : (~~~OVERFLOW_BIT).toNat = 2 ^ 15 - 1 := by decide
  rw [UInt16.toNat_and, hmask, Nat.and_two_pow_sub_one_eq_mod]

theorem and_OVERFLOW_BIT_beq (val : UInt16) :
    (val &&& OVERFLOW_BIT == OVERFLOW_BIT) = decide (2 ^ 15 ≤ val.toNat) := by
  have hbit : OVERFLOW_BIT.toNat = 2 ^ 15 := by decide
  have hlt : val.toNat < 2 ^ 16 := val.toNat_lt
  rw [Bool.eq_iff_iff, beq_iff_eq, decide_eq_true_iff, ← UInt16.toNat_inj, UInt16.toNat_and, hbit,
    Nat.and_two_pow, Nat.testBit_eq_decide_div_mod_eq]
  -- the bit is the quotient by `2 ^ 15`, which is `0` or `1`
  by_cases h : val.toNat / 2 ^ 15 % 2 = 1
  · simp only [h, decide_true, Bool.toNat_true, Nat.one_mul, true_iff]
    omega
  · simp only [h, decide_false, Bool.toNat_false, Nat.zero_mul]
    omega

/-- An offset below the flag bit, flagged, still fits the `u16`. -/
theorem flagged_lt (h : offset < 2 ^ 15) : offset + 2 ^ 15 * overflow.toNat < 2 ^ 16 := by
  have := Bool.toNat_le overflow
  omega

theorem toNat_flagged (h : offset < 2 ^ 15) :
    (UInt16.ofNat (offset + 2 ^ 15 * overflow.toNat)).toNat = offset + 2 ^ 15 * overflow.toNat := by
  rw [UInt16.toNat_ofNat', Nat.mod_eq_of_lt (flagged_lt h)]

/-- `extract_key` of a full pointer is its first 32 bytes. -/
theorem toList_extractKey {cellPointer : List UInt8} (h : 32 ≤ cellPointer.length) :
    (extractKey cellPointer).toList = cellPointer.take 32 := by
  apply List.ext_getElem (by simp; omega)
  intro j hj _
  simp only [extractKey, Vector.toList_ofFn, List.getElem_ofFn, List.getElem_take]
  rw [List.getD_eq_getElem _ _ (by simp at hj; omega)]

@[simp] theorem extractKey_pointerBytes : extractKey (pointerBytes key offset overflow) = key := by
  apply Vector.toList_inj.mp
  rw [toList_extractKey (by simp), pointerBytes, List.take_left' (by simp)]

/-- `cell_offset` reads the offset and the flag of a pointer back. -/
theorem cellOffset_of_getElem? {cellPointers : List (List UInt8)} {index : Nat}
    (h : cellPointers[index]? = some (pointerBytes key offset overflow)) (hoff : offset < 2 ^ 15) :
    cellOffset cellPointers index = some (offset, overflow) := by
  have hbytes : ((pointerBytes key offset overflow).drop 32).take 2 =
      leBytes (offset + 2 ^ 15 * overflow.toNat) 2 := by
    rw [pointerBytes, List.drop_left' (by simp), List.take_of_length_le (by simp)]
  have hval : ofLeBytes (leBytes (offset + 2 ^ 15 * overflow.toNat) 2) =
      offset + 2 ^ 15 * overflow.toNat := by
    rw [ofLeBytes_leBytes]
    exact Nat.mod_eq_of_lt (flagged_lt hoff)
  simp only [cellOffset, h, Option.bind_eq_bind, Option.bind_some, hbytes, hval,
    toNat_and_not_OVERFLOW_BIT, and_OVERFLOW_BIT_beq, toNat_flagged hoff]
  cases overflow <;> simp <;> omega

/-- Every 34-byte pointer is the encoding of the offset and flag `cell_offset` reads from it. -/
theorem eq_pointerBytes_of_cellOffset {cellPointers : List (List UInt8)} {index : Nat}
    {cellPointer : List UInt8} (hcp : cellPointers[index]? = some cellPointer)
    (hlen : cellPointer.length = 34) (h : cellOffset cellPointers index = some (offset, overflow)) :
    cellPointer = pointerBytes (extractKey cellPointer) offset overflow ∧ offset < 2 ^ 15 := by
  simp only [cellOffset, hcp, Option.bind_eq_bind, Option.bind_some, Option.some.injEq,
    Prod.mk.injEq] at h
  obtain ⟨hoff, hflag⟩ := h
  set val := UInt16.ofNat (ofLeBytes ((cellPointer.drop 32).take 2)) with hval
  rw [toNat_and_not_OVERFLOW_BIT] at hoff
  rw [and_OVERFLOW_BIT_beq] at hflag
  have hlt : val.toNat < 2 ^ 16 := val.toNat_lt
  -- the offset and the flag are the low bits and the high bit of `val`
  have hsplit : offset + 2 ^ 15 * overflow.toNat = val.toNat := by
    subst hoff hflag
    by_cases hb : 2 ^ 15 ≤ val.toNat
    · rw [decide_eq_true hb, Bool.toNat_true]
      omega
    · rw [decide_eq_false hb, Bool.toNat_false]
      omega
  have htail : (cellPointer.drop 32).take 2 = leBytes val.toNat 2 := by
    have hlen2 : ((cellPointer.drop 32).take 2).length = 2 := by simp; omega
    rw [hval, UInt16.toNat_ofNat', show (2 : Nat) ^ 16 = 256 ^ 2 by norm_num]
    simp only [leBytes, beBytes_mod]
    exact (leBytes_ofLeBytes _).symm.trans (by rw [hlen2]; rfl)
  have hdrop : (cellPointer.drop 32).take 2 = cellPointer.drop 32 :=
    List.take_of_length_le (by simp; omega)
  refine ⟨?_, by omega⟩
  rw [pointerBytes, hsplit, ← htail, toList_extractKey (by omega), hdrop, List.take_append_drop]

/-- `encode_cell_pointer` writes `pointerBytes` for any offset below `2 ^ 15`. -/
theorem encodeCellPointer_eq (h : offset < 2 ^ 15) :
    encodeCellPointer key offset overflow = some (pointerBytes key offset overflow) := by
  have hval : (UInt16.ofNat offset).toNat = offset := by rw [UInt16.toNat_ofNat']; omega
  have hbit : OVERFLOW_BIT.toNat = 2 ^ 15 := by decide
  have hlow : UInt16.ofNat offset < OVERFLOW_BIT := by
    rw [UInt16.lt_iff_toNat_lt, hval, hbit]
    exact h
  simp only [encodeCellPointer, show offset < 2 ^ 16 by omega, hlow, guard_true, pointerBytes]
  cases overflow with
  | false => simp [hval]
  | true =>
    simp only [if_true, Bool.toNat_true, Nat.mul_one, UInt16.toNat_or, hval, hbit,
      Nat.or_two_pow_eq_add_of_lt h]
    rfl

end Pointer

/-- `LeafNode`. -/
structure LeafNode where
  inner : FatPage

namespace LeafNode

/-- `LeafNode::n`. -/
def n (leaf : LeafNode) : Nat := ofLeBytes (leaf.inner.slice 0 2)

/-- `LeafNode::set_n`. -/
def setN (leaf : LeafNode) (n : UInt16) : LeafNode :=
  ⟨leaf.inner.copyFromSlice 0 (leBytes n.toNat 2)⟩

/-- `LeafNode::cell_pointers`: `n` pointers of 34 bytes from byte 2, which must end inside the
body. -/
def cellPointers (leaf : LeafNode) : Option (List (List UInt8)) :=
  if leaf.n * 34 < LEAF_NODE_BODY_SIZE then
    some ((List.range leaf.n).map fun i => leaf.inner.slice (2 + 34 * i) 34)
  else none

/-- `LeafNode::value_range`: from the cell's offset to the next cell's, or to the end of the page
for the last cell. -/
def valueRange (cellPointers : List (List UInt8)) (index : Nat) :
    Option ((Nat × Nat) × Bool) := do
  let (start, overflow) ← cellOffset cellPointers index
  let valueEnd ← if index = cellPointers.length - 1 then some PAGE_SIZE
    else (cellOffset cellPointers (index + 1)).map Prod.fst
  some ((start, valueEnd), overflow)

/-- `LeafNode::key`. -/
def key (leaf : LeafNode) (i : Nat) : Option Key := do
  let cellPointers ← leaf.cellPointers
  let cellPointer ← cellPointers[i]?
  some (extractKey cellPointer)

/-- `LeafNode::value`. -/
def value (leaf : LeafNode) (i : Nat) : Option (List UInt8 × Bool) := do
  let cellPointers ← leaf.cellPointers
  let ((start, valueEnd), overflow) ← valueRange cellPointers i
  let bytes ← RustSlice.range leaf.inner.toList start valueEnd
  some (bytes, overflow)

/-- `LeafNode::get`; the outer `none` is a panic, the inner one the source's `None`. -/
def get (leaf : LeafNode) (key : Key) : Option (Option (List UInt8 × Bool)) := do
  let cellPointers ← leaf.cellPointers
  match search cellPointers key with
  | .ok index => do
    let ((start, valueEnd), overflow) ← valueRange cellPointers index
    let bytes ← RustSlice.range leaf.inner.toList start valueEnd
    some (some (bytes, overflow))
  | .error _ => some none

end LeafNode

/-- `LeafBuilder`. -/
structure LeafBuilder where
  leaf : LeafNode
  index : Nat
  remainingValueSize : Nat

/-- `cell_pointer_offset += difference` or `-= difference` on the `u16` offset of a copied cell
in `push_chunk`; an overflow panics. -/
def shiftOffset (positiveDifference : Bool) (difference val : UInt16) : Option UInt16 :=
  if positiveDifference then
    if val.toNat + difference.toNat < 2 ^ 16 then some (val + difference) else none
  else if difference ≤ val then some (val - difference) else none

/-- The loop of `push_chunk` over the copied cell pointers `is`, moving each one's offset. -/
def rebaseOffsets (positiveDifference : Bool) (difference : UInt16) :
    FatPage → List Nat → Option FatPage
  | inner, [] => some inner
  | inner, i :: is => do
    let cellPointerOffset := UInt16.ofNat (ofLeBytes (inner.slice (2 + 34 * i + 32) 2))
    let cellPointerOffset ← shiftOffset positiveDifference difference cellPointerOffset
    rebaseOffsets positiveDifference difference
      (inner.copyFromSlice (2 + 34 * i + 32) (leBytes cellPointerOffset.toNat 2)) is

/-- The block of `push_chunk` that moves the offsets of the `nItems` cells copied to slot `index`
by `difference`, when it is not zero. -/
def shiftCopiedOffsets (inner : FatPage) (index nItems : Nat) (difference : Int) :
    Option FatPage :=
  if difference ≠ 0 then do
    -- `u16::try_from(difference.abs()).unwrap()`
    guard (difference.natAbs < 2 ^ 16)
    rebaseOffsets (0 < difference) (UInt16.ofNat difference.natAbs) inner
      (List.range' index nItems)
  else some inner

namespace LeafBuilder

/-- `LeafBuilder::new`, on the page `alloc_fat_page` hands out, whatever its bytes. -/
def new (page : FatPage) (n totalValueSize : Nat) : LeafBuilder :=
  ⟨(LeafNode.mk page).setN (UInt16.ofNat n), 0, totalValueSize⟩

/-- `LeafBuilder::push_cell`. -/
def pushCell (b : LeafBuilder) (key : Key) (value : List UInt8) (overflow : Bool) :
    Option LeafBuilder := do
  guard (b.index < b.leaf.n)
  -- `PAGE_SIZE - self.remaining_value_size`
  guard (b.remainingValueSize ≤ PAGE_SIZE)
  let offset := PAGE_SIZE - b.remainingValueSize
  -- `cell_pointers_mut()[self.index]`
  guard (b.leaf.n * 34 < LEAF_NODE_BODY_SIZE)
  let cellPointer ← encodeCellPointer key offset overflow
  let inner := b.leaf.inner.copyFromSlice (2 + 34 * b.index) cellPointer
  -- `inner[offset..][..value.len()]`; the subtraction below cannot underflow after it
  guard (value.length ≤ b.remainingValueSize)
  let inner := inner.copyFromSlice offset value
  some ⟨⟨inner⟩, b.index + 1, b.remainingValueSize - value.length⟩

/-- `LeafBuilder::push_chunk`: the cells `fromIndex..toIndex` of `baseNode`. -/
def pushChunk (b : LeafBuilder) (baseNode : LeafNode) (fromIndex toIndex : Nat) :
    Option LeafBuilder := do
  guard (b.index < b.leaf.n)
  -- `to - from`
  guard (fromIndex ≤ toIndex)
  let nItems := toIndex - fromIndex
  let baseNodeCellPointers ← baseNode.cellPointers
  let copied ← RustSlice.range baseNodeCellPointers fromIndex toIndex
  -- `cell_pointers_mut()[self.index..self.index + n_items]`
  guard (b.leaf.n * 34 < LEAF_NODE_BODY_SIZE)
  guard (b.index + nItems ≤ b.leaf.n)
  let inner := b.leaf.inner.copyFromSlice (2 + 34 * b.index) copied.flatten
  guard (b.remainingValueSize ≤ PAGE_SIZE)
  let offset := PAGE_SIZE - b.remainingValueSize
  let ((valueRangeStart, _), _) ← LeafNode.valueRange baseNodeCellPointers fromIndex
  -- `to - 1`
  guard (1 ≤ toIndex)
  let ((_, valueRangeEnd), _) ← LeafNode.valueRange baseNodeCellPointers (toIndex - 1)
  let difference : Int := offset - valueRangeStart
  let inner ← shiftCopiedOffsets inner b.index nItems difference
  let values ← RustSlice.range baseNode.inner.toList valueRangeStart valueRangeEnd
  guard (values.length ≤ b.remainingValueSize)
  some ⟨⟨inner.copyFromSlice offset values⟩, b.index + nItems,
    b.remainingValueSize - values.length⟩

/-- `LeafBuilder::finish`. -/
def finish (b : LeafBuilder) : Option LeafNode :=
  if b.remainingValueSize = 0 then some b.leaf else none

/-- A call a caller makes on a builder. -/
inductive Push where
  | cell (key : Key) (value : List UInt8) (overflow : Bool)
  | chunk (baseNode : LeafNode) (fromIndex toIndex : Nat)

/-- Make one call. -/
def push (b : LeafBuilder) : Push → Option LeafBuilder
  | .cell key value overflow => b.pushCell key value overflow
  | .chunk baseNode fromIndex toIndex => b.pushChunk baseNode fromIndex toIndex

/-- `LeafBuilder::new`, the calls in order, then `finish`. -/
def build (page : FatPage) (n totalValueSize : Nat) (calls : List Push) : Option LeafNode :=
  (calls.foldlM push (new page n totalValueSize)).bind finish

end LeafBuilder


/-- `&page[i..j]` is the slice of `j - i` bytes from `i`. -/
theorem range_toList_eq_slice {page : FatPage} {i j : Nat} (hij : i ≤ j) (hj : j ≤ PAGE_SIZE) :
    RustSlice.range page.toList i j = some (page.slice i (j - i)) := by
  rw [RustSlice.range_of_le hij (by simpa using hj)]
  congr 1
  apply List.ext_getElem (by simp [FatPage.slice]; omega)
  intro k hk _
  have hlt : i + k < PAGE_SIZE := by simp at hk; omega
  simp [FatPage.slice, hlt]

/-! ## Cells and their layout -/

/-- A cell as a caller hands it to the builder. -/
structure Cell where
  key : Key
  value : List UInt8
  overflow : Bool
deriving DecidableEq

/-- The bytes of all the cells' values. -/
def valueSize (cells : List Cell) : Nat := (cells.map fun c => c.value.length).sum

/-- Where a cell's value starts, counted from the first value: the bytes of the values before it. -/
def valueOffset (cells : List Cell) (i : Nat) : Nat := valueSize (cells.take i)

/-- The `n` pointer slots of a page, as `cell_pointers` slices them. -/
def pointerSlots (inner : FatPage) (n : Nat) : List (List UInt8) :=
  (List.range n).map fun i => inner.slice (2 + 34 * i) 34

/-- The page lays out `cells` with the first value at `start`: each cell's pointer in its slot,
holding the offset of its value, and each value at that offset. -/
structure Layout (inner : FatPage) (start : Nat) (cells : List Cell) : Prop where
  pointer : ∀ i (hi : i < cells.length), inner.slice (2 + 34 * i) 34 =
    pointerBytes cells[i].key (start + valueOffset cells i) cells[i].overflow
  value : ∀ i (hi : i < cells.length),
    inner.slice (start + valueOffset cells i) cells[i].value.length = cells[i].value

/-- The leaf reads back as `cells`. -/
structure LeafNode.Holds (leaf : LeafNode) (cells : List Cell) : Prop where
  n_eq : leaf.n = cells.length
  key_eq : ∀ i (hi : i < cells.length), leaf.key i = some cells[i].key
  value_eq : ∀ i (hi : i < cells.length), leaf.value i = some (cells[i].value, cells[i].overflow)

section Offsets

variable {cells cells' : List Cell} {i : Nat}

@[simp] theorem valueSize_nil : valueSize [] = 0 := rfl

@[simp] theorem valueSize_cons (c : Cell) : valueSize (c :: cells) = c.value.length + valueSize cells := by
  simp [valueSize]

@[simp] theorem valueSize_append : valueSize (cells ++ cells') = valueSize cells + valueSize cells' := by
  simp [valueSize]

theorem valueSize_take_add_drop (cells : List Cell) (i : Nat) :
    valueSize (cells.take i) + valueSize (cells.drop i) = valueSize cells := by
  rw [← valueSize_append, List.take_append_drop]

theorem valueOffset_succ (hi : i < cells.length) :
    valueOffset cells (i + 1) = valueOffset cells i + cells[i].value.length := by
  unfold valueOffset
  rw [List.take_add_one, List.getElem?_eq_getElem hi, Option.toList_some, valueSize_append]
  simp

theorem valueOffset_le (cells : List Cell) (i : Nat) : valueOffset cells i ≤ valueSize cells := by
  have := valueSize_take_add_drop cells i
  unfold valueOffset
  omega

@[simp] theorem valueOffset_length : valueOffset cells cells.length = valueSize cells := by
  simp [valueOffset]

/-- Offsets into the cells past `cells` are offsets into the latter, past all of `cells`. -/
theorem valueOffset_append_length (m : Nat) :
    valueOffset (cells ++ cells') (cells.length + m) = valueSize cells + valueOffset cells' m := by
  rw [valueOffset, List.take_length_add_append, valueSize_append, valueOffset]

theorem valueOffset_append_of_le (hi : i ≤ cells.length) :
    valueOffset (cells ++ cells') i = valueOffset cells i := by
  simp [valueOffset, List.take_append_of_le_length hi]

/-- Offsets inside the run `fromIndex..toIndex`, from the run's first value. -/
theorem valueOffset_add {fromIndex toIndex m : Nat} (hm : fromIndex + m ≤ toIndex) :
    valueOffset cells (fromIndex + m) =
      valueOffset cells fromIndex + valueOffset ((cells.take toIndex).drop fromIndex) m := by
  have hsplit : cells.take (fromIndex + m) =
      cells.take fromIndex ++ ((cells.take toIndex).drop fromIndex).take m := by
    rw [List.take_drop, List.take_take, Nat.min_eq_left hm]
    have h := (List.take_append_drop fromIndex (cells.take (fromIndex + m))).symm
    rwa [List.take_take, Nat.min_eq_left (by omega)] at h
  simp only [valueOffset, hsplit, valueSize_append]

end Offsets

section Slots

variable {inner : FatPage} {n i : Nat}

@[simp] theorem length_pointerSlots : (pointerSlots inner n).length = n := by
  simp [pointerSlots]

theorem getElem?_pointerSlots (hi : i < n) :
    (pointerSlots inner n)[i]? = some (inner.slice (2 + 34 * i) 34) := by
  simp [pointerSlots, hi]

theorem LeafNode.cellPointers_eq {leaf : LeafNode} (h : leaf.n * 34 < LEAF_NODE_BODY_SIZE) :
    leaf.cellPointers = some (pointerSlots leaf.inner leaf.n) := by
  simp [LeafNode.cellPointers, h, pointerSlots]

theorem LeafNode.cellPointers_eq_some {leaf : LeafNode} {cellPointers : List (List UInt8)}
    (h : leaf.cellPointers = some cellPointers) :
    leaf.n * 34 < LEAF_NODE_BODY_SIZE ∧ cellPointers = pointerSlots leaf.inner leaf.n := by
  unfold LeafNode.cellPointers at h
  split at h
  · exact ⟨‹_›, (Option.some.inj h).symm⟩
  · cases h

end Slots


/-- The cells' keys strictly ascend in the order `search` compares them: bytes, lexicographically. -/
def Ascending (cells : List Cell) : Prop :=
  cells.Pairwise fun a b => compare a.key.toList b.key.toList = .lt

instance (cells : List Cell) : Decidable (Ascending cells) :=
  inferInstanceAs (Decidable (cells.Pairwise _))

/-- Ascending keys are distinct. -/
theorem Ascending.index_eq {cells : List Cell} (hs : Ascending cells) {i j : Nat}
    (hi : i < cells.length) (hj : j < cells.length) (h : cells[i].key = cells[j].key) : i = j := by
  -- an earlier key compares `Less` with a later one, never with itself
  have hne : ∀ a b (ha : a < cells.length) (hb : b < cells.length), a < b →
      cells[a].key ≠ cells[b].key := by
    intro a b ha hb hab heq
    have hlt := List.pairwise_iff_getElem.mp hs a b ha hb hab
    rw [heq, Std.ReflOrd.compare_self] at hlt
    cases hlt
  rcases Nat.lt_trichotomy i j with hij | hij | hij
  · exact absurd h (hne i j hi hj hij)
  · exact hij
  · exact absurd h.symm (hne j i hj hi hij)

section ReadBack

variable {inner : FatPage} {start : Nat} {cells : List Cell} {i : Nat}

/-- `cell_offset` on a laid-out page reads each cell's offset and flag. -/
theorem Layout.cellOffset (hL : Layout inner start cells)
    (hfit : start + valueSize cells ≤ PAGE_SIZE) (hi : i < cells.length) :
    cellOffset (pointerSlots inner cells.length) i =
      some (start + valueOffset cells i, cells[i].overflow) := by
  have hoff : start + valueOffset cells i < 2 ^ 15 := by
    have := valueOffset_le cells i
    simp only [PAGE_SIZE] at hfit
    omega
  exact cellOffset_of_getElem? (by rw [getElem?_pointerSlots hi, hL.pointer i hi]) hoff

/-- `value_range` on a laid-out page whose values end the page: each value runs to the next. -/
theorem Layout.valueRange (hL : Layout inner start cells)
    (hend : start + valueSize cells = PAGE_SIZE) (hi : i < cells.length) :
    LeafNode.valueRange (pointerSlots inner cells.length) i =
      some ((start + valueOffset cells i, start + valueOffset cells (i + 1)), cells[i].overflow) := by
  have hfit : start + valueSize cells ≤ PAGE_SIZE := hend.le
  simp only [LeafNode.valueRange, hL.cellOffset hfit hi, Option.bind_eq_bind, Option.bind_some,
    length_pointerSlots]
  by_cases hlast : i = cells.length - 1
  · -- the last value ends the page
    have hlen : i + 1 = cells.length := by omega
    rw [if_pos hlast, hlen, valueOffset_length, hend]
  · rw [if_neg hlast, hL.cellOffset hfit (by omega)]
    rfl

theorem Layout.range_value (hL : Layout inner start cells)
    (hfit : start + valueSize cells ≤ PAGE_SIZE) (hi : i < cells.length) :
    RustSlice.range inner.toList (start + valueOffset cells i) (start + valueOffset cells (i + 1)) =
      some cells[i].value := by
  have hsucc := valueOffset_succ hi
  have hle := valueOffset_le cells (i + 1)
  rw [range_toList_eq_slice (by omega) (by omega),
    show start + valueOffset cells (i + 1) - (start + valueOffset cells i) =
      cells[i].value.length by omega, hL.value i hi]

theorem Layout.take_slot (hL : Layout inner start cells) (hi : i < cells.length) :
    (inner.slice (2 + 34 * i) 34).take 32 = cells[i].key.toList := by
  rw [hL.pointer i hi, pointerBytes]
  exact List.take_left' (by simp)

/-- On a laid-out page, `search` answers `Ok j` only at a cell holding the key. -/
theorem Layout.key_of_search_eq_ok (hL : Layout inner start cells) {key : Key} {j : Nat}
    (h : search (pointerSlots inner cells.length) key = .ok j) :
    ∃ hj : j < cells.length, cells[j].key = key := by
  unfold search at h
  obtain ⟨hj, heq⟩ := RustSlice.binarySearchBy_eq_ok h
  have hj' : j < cells.length := by simpa using hj
  refine ⟨hj', ?_⟩
  simp only [pointerSlots, List.getElem_map, List.getElem_range, hL.take_slot hj'] at heq
  exact Vector.toList_inj.mp (Std.LawfulEqOrd.compare_eq_iff_eq.mp heq)

/-- On a laid-out page with ascending keys, `search` finds every cell's key at the cell. -/
theorem Layout.search_eq_ok (hL : Layout inner start cells) (hsorted : Ascending cells)
    (hi : i < cells.length) :
    search (pointerSlots inner cells.length) cells[i].key = .ok i := by
  have hmono : RustSlice.Monotone (pointerSlots inner cells.length)
      fun cell => compare (cell.take 32) cells[i].key.toList := by
    apply RustSlice.monotone_compare_of_pairwise
    apply List.pairwise_iff_getElem.mpr
    intro a b ha hb hab
    simp only [length_pointerSlots] at ha hb
    simp only [pointerSlots, List.getElem_map, List.getElem_range, hL.take_slot ha,
      hL.take_slot hb]
    exact List.pairwise_iff_getElem.mp hsorted a b ha hb hab
  obtain ⟨-, herr⟩ := RustSlice.binarySearchBy_spec hmono
  cases hs : search (pointerSlots inner cells.length) cells[i].key with
  | ok j =>
    obtain ⟨hj, hkey⟩ := hL.key_of_search_eq_ok hs
    rw [hsorted.index_eq hj hi hkey]
  | error j =>
    -- the `i`-th cell compares `Equal`: it is neither before nor after the answer
    obtain ⟨-, hlt, hgt⟩ := herr j hs
    have hi' : i < (pointerSlots inner cells.length).length := by simpa using hi
    have hself : compare ((pointerSlots inner cells.length)[i].take 32) cells[i].key.toList =
        .eq := by
      simp only [pointerSlots, List.getElem_map, List.getElem_range, hL.take_slot hi,
        Std.ReflOrd.compare_self]
    rcases Nat.lt_or_ge i j with hij | hij
    · have := hlt i hi' hij
      rw [hself] at this
      cases this
    · have := hgt i hi' hij
      rw [hself] at this
      cases this

end ReadBack

section Leaf

variable {leaf : LeafNode} {start : Nat} {cells : List Cell} {i : Nat}

theorem cellPointers_of_n (hn : leaf.n = cells.length)
    (hbody : cells.length * 34 < LEAF_NODE_BODY_SIZE) :
    leaf.cellPointers = some (pointerSlots leaf.inner cells.length) := by
  rw [LeafNode.cellPointers_eq (by rw [hn]; exact hbody), hn]

/-- A leaf with the builder's count and layout, its values ending the page, reads back as its
cells. -/
theorem Layout.holds (hL : Layout leaf.inner start cells) (hn : leaf.n = cells.length)
    (hbody : cells.length * 34 < LEAF_NODE_BODY_SIZE) (hend : start + valueSize cells = PAGE_SIZE) :
    leaf.Holds cells := by
  refine ⟨hn, fun i hi => ?_, fun i hi => ?_⟩
  · simp only [LeafNode.key, cellPointers_of_n hn hbody, Option.bind_eq_bind, Option.bind_some,
      getElem?_pointerSlots hi, hL.pointer i hi, extractKey_pointerBytes]
  · simp only [LeafNode.value, cellPointers_of_n hn hbody, Option.bind_eq_bind, Option.bind_some,
      hL.valueRange hend hi, hL.range_value hend.le hi]

/-- `get` of a cell's key returns the cell's value and flag. -/
theorem Layout.get_key (hL : Layout leaf.inner start cells) (hn : leaf.n = cells.length)
    (hbody : cells.length * 34 < LEAF_NODE_BODY_SIZE) (hend : start + valueSize cells = PAGE_SIZE)
    (hsorted : Ascending cells) (hi : i < cells.length) :
    leaf.get cells[i].key = some (some (cells[i].value, cells[i].overflow)) := by
  simp only [LeafNode.get, cellPointers_of_n hn hbody, Option.bind_eq_bind, Option.bind_some,
    hL.search_eq_ok hsorted hi, hL.valueRange hend hi, hL.range_value hend.le hi]

/-- `get` of a key no cell holds returns `None`. -/
theorem Layout.get_of_forall_ne (hL : Layout leaf.inner start cells) (hn : leaf.n = cells.length)
    (hbody : cells.length * 34 < LEAF_NODE_BODY_SIZE) {key : Key}
    (hkey : ∀ c ∈ cells, c.key ≠ key) :
    leaf.get key = some none := by
  cases hs : search (pointerSlots leaf.inner cells.length) key with
  | ok j =>
    obtain ⟨hj, hjkey⟩ := hL.key_of_search_eq_ok hs
    exact absurd hjkey (hkey _ (List.getElem_mem hj))
  | error j =>
    simp only [LeafNode.get, cellPointers_of_n hn hbody, Option.bind_eq_bind, Option.bind_some, hs]

end Leaf


/-! ## The leaf a chunk is copied from -/

section Base

variable {leaf : LeafNode} {cells : List Cell}

theorem LeafNode.value_eq_some {i : Nat} {v : List UInt8} {o : Bool}
    (h : leaf.value i = some (v, o)) :
    ∃ cellPointers s e, leaf.cellPointers = some cellPointers ∧
      LeafNode.valueRange cellPointers i = some ((s, e), o) ∧ s ≤ e ∧ e ≤ PAGE_SIZE ∧
      leaf.inner.slice s (e - s) = v := by
  simp only [LeafNode.value, Option.bind_eq_bind, Option.bind_eq_some_iff] at h
  obtain ⟨cellPointers, hcps, ⟨⟨s, e⟩, o'⟩, hrange, bytes, hbytes, heq⟩ := h
  simp only [Option.some.injEq, Prod.mk.injEq] at heq
  obtain ⟨rfl, rfl⟩ := heq
  obtain ⟨hse, he, -⟩ := RustSlice.range_eq_some_iff.mp hbytes
  have he' : e ≤ PAGE_SIZE := by simpa using he
  rw [range_toList_eq_slice hse he', Option.some.injEq] at hbytes
  exact ⟨cellPointers, s, e, hcps, hrange, hse, he', hbytes⟩

theorem LeafNode.valueRange_eq_some {cellPointers : List (List UInt8)} {i s e : Nat} {o : Bool}
    (h : LeafNode.valueRange cellPointers i = some ((s, e), o)) :
    cellOffset cellPointers i = some (s, o) ∧
      (i = cellPointers.length - 1 → e = PAGE_SIZE) ∧
      (i ≠ cellPointers.length - 1 → (cellOffset cellPointers (i + 1)).map Prod.fst = some e) := by
  simp only [LeafNode.valueRange, Option.bind_eq_bind, Option.bind_eq_some_iff] at h
  obtain ⟨⟨s', o'⟩, hoff, hend⟩ := h
  split at hend
  · simp only [Option.bind_some, Option.some.injEq, Prod.mk.injEq] at hend
    obtain ⟨⟨rfl, rfl⟩, rfl⟩ := hend
    exact ⟨hoff, fun _ => rfl, fun hne => absurd ‹_› hne⟩
  · rw [Option.bind_eq_some_iff] at hend
    obtain ⟨e', he', heq⟩ := hend
    simp only [Option.some.injEq, Prod.mk.injEq] at heq
    obtain ⟨⟨rfl, rfl⟩, rfl⟩ := heq
    exact ⟨hoff, fun hlast => absurd hlast ‹_›, fun _ => he'⟩

theorem LeafNode.Holds.cellPointers (h : leaf.Holds cells) (hne : 0 < cells.length) :
    leaf.cellPointers = some (pointerSlots leaf.inner cells.length) ∧
      cells.length * 34 < LEAF_NODE_BODY_SIZE := by
  obtain ⟨cellPointers, -, -, hcps, -⟩ := LeafNode.value_eq_some (h.value_eq 0 hne)
  obtain ⟨hbody, rfl⟩ := LeafNode.cellPointers_eq_some hcps
  rw [h.n_eq] at hcps hbody
  exact ⟨hcps, hbody⟩

/-- What reading a cell's value says of it: its pointer gives where the value starts, and the
value runs to where the next cell's starts, or to the end of the page for the last cell. -/
theorem LeafNode.Holds.cell (h : leaf.Holds cells) {j : Nat} (hj : j < cells.length) :
    ∃ s, cellOffset (pointerSlots leaf.inner cells.length) j = some (s, cells[j].overflow) ∧
      leaf.inner.slice s cells[j].value.length = cells[j].value ∧
      (j + 1 = cells.length → s + cells[j].value.length = PAGE_SIZE) ∧
      (j + 1 < cells.length → (cellOffset (pointerSlots leaf.inner cells.length) (j + 1)).map
        Prod.fst = some (s + cells[j].value.length)) := by
  obtain ⟨cellPointers, s, e, hcps, hrange, hse, he, hslice⟩ :=
    LeafNode.value_eq_some (h.value_eq j hj)
  rw [(h.cellPointers (by omega)).1, Option.some.injEq] at hcps
  subst hcps
  obtain ⟨hoff, hlast, hnext⟩ := LeafNode.valueRange_eq_some hrange
  have hlen : cells[j].value.length = e - s := by rw [← hslice, FatPage.length_slice]
  rw [length_pointerSlots] at hlast hnext
  refine ⟨s, hoff, by rw [hlen, hslice], fun hj' => ?_, fun hj' => ?_⟩
  · have := hlast (by omega)
    omega
  · rw [hnext (by omega)]
    congr 1
    omega

/-- A leaf reading back as some cells lays them out as the builder does, its values ending the
page. -/
theorem LeafNode.Holds.layout (h : leaf.Holds cells) (hne : 0 < cells.length) :
    valueSize cells ≤ PAGE_SIZE ∧ Layout leaf.inner (PAGE_SIZE - valueSize cells) cells := by
  let offset := fun j => ((cellOffset (pointerSlots leaf.inner cells.length) j).map Prod.fst).getD 0
  have hoffset : ∀ j (hj : j < cells.length),
      cellOffset (pointerSlots leaf.inner cells.length) j = some (offset j, cells[j].overflow) := by
    intro j hj
    obtain ⟨s, hs, -⟩ := h.cell hj
    simp [offset, hs]
  -- `Holds.cell` at the offsets `cell_offset` reads
  have hcell : ∀ j (hj : j < cells.length),
      leaf.inner.slice (offset j) cells[j].value.length = cells[j].value ∧
      (j + 1 = cells.length → offset j + cells[j].value.length = PAGE_SIZE) ∧
      (j + 1 < cells.length → offset (j + 1) = offset j + cells[j].value.length) := by
    intro j hj
    obtain ⟨s, hs, hslice, hlast, hnext⟩ := h.cell hj
    rw [hoffset j hj, Option.some.injEq, Prod.mk.injEq] at hs
    rw [hs.1]
    refine ⟨hslice, hlast, fun hj' => ?_⟩
    have hnext' := hnext hj'
    rwa [hoffset (j + 1) hj', Option.map_some, Option.some.injEq] at hnext'
  -- counted from the end, each value starts where the values from it on fill the page
  have hfill : ∀ k j (hj : j + k + 1 = cells.length),
      offset j + valueSize (cells.drop j) = PAGE_SIZE := by
    intro k
    induction k with
    | zero =>
      intro j hj
      have := (hcell j (by omega)).2.1 (by omega)
      rw [List.drop_eq_getElem_cons (by omega), List.drop_of_length_le (by omega), valueSize_cons,
        valueSize_nil]
      omega
    | succ k ih =>
      intro j hj
      have hnext := (hcell j (by omega)).2.2 (by omega)
      have := ih (j + 1) (by omega)
      rw [List.drop_eq_getElem_cons (by omega), valueSize_cons]
      omega
  have h0 : offset 0 + valueSize cells = PAGE_SIZE := by
    simpa using hfill (cells.length - 1) 0 (by omega)
  have hstart : ∀ j (hj : j < cells.length),
      offset j = PAGE_SIZE - valueSize cells + valueOffset cells j := by
    intro j hj
    have hj' := hfill (cells.length - 1 - j) j (by omega)
    have := valueSize_take_add_drop cells j
    unfold valueOffset
    omega
  refine ⟨by omega, fun j hj => ?_, fun j hj => ?_⟩
  · -- the slot is the encoding of what `cell_offset` and `key` read from it
    have hslot : (pointerSlots leaf.inner cells.length)[j]? =
        some (leaf.inner.slice (2 + 34 * j) 34) := getElem?_pointerSlots hj
    obtain ⟨heq, -⟩ := eq_pointerBytes_of_cellOffset hslot (by simp) (hoffset j hj)
    have hkey := h.key_eq j hj
    simp only [LeafNode.key, (h.cellPointers (by omega)).1, Option.bind_eq_bind, Option.bind_some,
      hslot, Option.some.injEq] at hkey
    rw [heq, hkey, hstart j hj]
  · rw [← hstart j hj]
    exact (hcell j hj).1

end Base


/-! ## The builder's invariant -/

/-- What a builder holds after pushing `done`, toward `n` cells whose values take
`totalValueSize` bytes: the count, its position, and the layout of the cells pushed so far, the
first value at `PAGE_SIZE - totalValueSize`. -/
structure LeafBuilder.Inv (b : LeafBuilder) (n totalValueSize : Nat) (done : List Cell) :
    Prop where
  n_eq : b.leaf.n = n
  index_eq : b.index = done.length
  remaining_eq : b.remainingValueSize + valueSize done = totalValueSize
  fits : bodySize n totalValueSize ≤ LEAF_NODE_BODY_SIZE
  layout : Layout b.leaf.inner (PAGE_SIZE - totalValueSize) done

section Frame

variable {inner inner' : FatPage} {start : Nat} {cells cs : List Cell}

theorem getElem_copyFromSlice_of_not_mem {page : FatPage} {start j : Nat} {src : List UInt8}
    (hj : j < PAGE_SIZE) (h : j < start ∨ start + src.length ≤ j) :
    (page.copyFromSlice start src)[j] = page[j] := by
  rw [FatPage.getElem_copyFromSlice hj, if_neg (by omega)]

/-- The count reads only its two bytes. -/
theorem n_congr (h : ∀ j (hj : j < PAGE_SIZE), j < 2 → inner'[j] = inner[j]) :
    (LeafNode.mk inner').n = (LeafNode.mk inner).n := by
  simp only [LeafNode.n]
  rw [FatPage.slice_congr (by simp [PAGE_SIZE]) fun j _ hj₂ hj => h j hj (by omega)]

/-- A layout survives any change of bytes outside its pointers and its values. -/
theorem Layout.congr (hL : Layout inner start cells) (hptr : 2 + 34 * cells.length ≤ PAGE_SIZE)
    (hfit : start + valueSize cells ≤ PAGE_SIZE)
    (hsame : ∀ j (hj : j < PAGE_SIZE),
      j < 2 + 34 * cells.length ∨ start ≤ j ∧ j < start + valueSize cells → inner'[j] = inner[j]) :
    Layout inner' start cells := by
  constructor
  · intro i hi
    exact (FatPage.slice_congr (by omega) fun j _ hj₂ hj => hsame j hj (Or.inl (by omega))).trans
      (hL.pointer i hi)
  · intro i hi
    have hsucc := valueOffset_succ hi
    have hle := valueOffset_le cells (i + 1)
    exact (FatPage.slice_congr (by omega) fun j hj₁ hj₂ hj =>
      hsame j hj (Or.inr ⟨by omega, by omega⟩)).trans (hL.value i hi)

/-- Extending a layout by cells laid out right after it. -/
theorem Layout.append (hL : Layout inner start cells)
    (hptr : ∀ m (hm : m < cs.length), inner.slice (2 + 34 * (cells.length + m)) 34 =
      pointerBytes cs[m].key (start + valueSize cells + valueOffset cs m) cs[m].overflow)
    (hval : ∀ m (hm : m < cs.length),
      inner.slice (start + valueSize cells + valueOffset cs m) cs[m].value.length = cs[m].value) :
    Layout inner start (cells ++ cs) := by
  constructor
  · intro i hi
    by_cases hlt : i < cells.length
    · rw [List.getElem_append_left hlt, valueOffset_append_of_le hlt.le, hL.pointer i hlt]
    · obtain ⟨m, rfl⟩ : ∃ m, i = cells.length + m := ⟨i - cells.length, by omega⟩
      rw [List.getElem_append_right (by omega), valueOffset_append_length, ← Nat.add_assoc]
      simp only [Nat.add_sub_cancel_left]
      exact hptr m (by simp at hi; omega)
  · intro i hi
    by_cases hlt : i < cells.length
    · rw [List.getElem_append_left hlt, valueOffset_append_of_le hlt.le, hL.value i hlt]
    · obtain ⟨m, rfl⟩ : ∃ m, i = cells.length + m := ⟨i - cells.length, by omega⟩
      rw [List.getElem_append_right (by omega), valueOffset_append_length, ← Nat.add_assoc]
      simp only [Nat.add_sub_cancel_left]
      exact hval m (by simp at hi; omega)

end Frame

section Builder

variable {b : LeafBuilder} {n totalValueSize : Nat} {done : List Cell}

theorem LeafBuilder.Inv.new (page : FatPage) (hfits : bodySize n totalValueSize ≤ LEAF_NODE_BODY_SIZE) :
    (LeafBuilder.new page n totalValueSize).Inv n totalValueSize [] where
  n_eq := by
    -- `n as u16` keeps `n`: the pointers alone bound it below `2 ^ 16`
    have hn : n < 2 ^ 16 := by
      simp only [bodySize, LEAF_NODE_BODY_SIZE, PAGE_SIZE] at hfits
      omega
    simp only [LeafBuilder.new, LeafNode.setN, LeafNode.n]
    rw [FatPage.slice_copyFromSlice_of_length (by simp) (by simp [PAGE_SIZE]), ofLeBytes_leBytes,
      UInt16.toNat_ofNat']
    omega
  index_eq := rfl
  remaining_eq := by simp [LeafBuilder.new]
  fits := hfits
  layout := ⟨fun i hi => absurd hi (Nat.not_lt_zero i), fun i hi => absurd hi (Nat.not_lt_zero i)⟩

/-- The arithmetic every push rests on: the pointers end before the first value, and the next
value starts past those pushed so far. -/
theorem LeafBuilder.Inv.bounds (hI : b.Inv n totalValueSize done) :
    n * 34 < LEAF_NODE_BODY_SIZE ∧ 2 + 34 * n ≤ PAGE_SIZE - totalValueSize ∧
      totalValueSize ≤ PAGE_SIZE ∧ b.remainingValueSize ≤ PAGE_SIZE ∧
      PAGE_SIZE - b.remainingValueSize = PAGE_SIZE - totalValueSize + valueSize done := by
  have hfits := hI.fits
  have hrem := hI.remaining_eq
  simp only [bodySize, LEAF_NODE_BODY_SIZE, PAGE_SIZE] at hfits ⊢
  omega

/-- What a push shows to keep the invariant: the new builder has moved past the pushed cells `cs`,
kept the count and the bytes of the earlier pointers and values, and holds each pushed cell's
pointer in its slot and its value at its offset from where the next value starts. -/
theorem LeafBuilder.Inv.extend (hI : b.Inv n totalValueSize done) {b' : LeafBuilder}
    {cs : List Cell} (hn : done.length + cs.length ≤ n) (hindex : b'.index = b.index + cs.length)
    (hremaining : b'.remainingValueSize + valueSize cs = b.remainingValueSize)
    (hsame : ∀ j (hj : j < PAGE_SIZE), j < 2 + 34 * b.index ∨
      PAGE_SIZE - totalValueSize ≤ j ∧ j < PAGE_SIZE - b.remainingValueSize →
      b'.leaf.inner[j] = b.leaf.inner[j])
    (hptr : ∀ m (hm : m < cs.length), b'.leaf.inner.slice (2 + 34 * (b.index + m)) 34 =
      pointerBytes cs[m].key (PAGE_SIZE - b.remainingValueSize + valueOffset cs m) cs[m].overflow)
    (hval : ∀ m (hm : m < cs.length),
      b'.leaf.inner.slice (PAGE_SIZE - b.remainingValueSize + valueOffset cs m)
        cs[m].value.length = cs[m].value) :
    b'.Inv n totalValueSize (done ++ cs) := by
  obtain ⟨-, hptrs, htotal, -, hoffset⟩ := hI.bounds
  have hrem := hI.remaining_eq
  have hidx := hI.index_eq
  refine ⟨?_, by simp [hindex, hidx], ?_, hI.fits, ?_⟩
  · -- no write reaches the count
    exact (n_congr fun j hj _ => hsame j hj (Or.inl (by omega))).trans hI.n_eq
  · rw [valueSize_append]
    omega
  · -- the earlier cells are untouched; the pushed ones follow them
    have hold : Layout b'.leaf.inner (PAGE_SIZE - totalValueSize) done :=
      hI.layout.congr (by omega) (by omega) fun j hj hjr => hsame j hj (by omega)
    refine hold.append (fun m hm => ?_) (fun m hm => ?_)
    · rw [← hidx, ← hoffset]
      exact hptr m hm
    · rw [← hoffset]
      exact hval m hm

/-- `push_cell` keeps the invariant while the cell fits the count and the total. -/
theorem LeafBuilder.Inv.pushCell (hI : b.Inv n totalValueSize done) {key : Key}
    {value : List UInt8} {overflow : Bool} (hn : done.length < n)
    (hsize : valueSize done + value.length ≤ totalValueSize) :
    ∃ b', b.pushCell key value overflow = some b' ∧
      b'.Inv n totalValueSize (done ++ [⟨key, value, overflow⟩]) := by
  obtain ⟨hbody, hptrs, htotal, hrem, hoffset⟩ := hI.bounds
  have hrem' := hI.remaining_eq
  have hidx := hI.index_eq
  have hn' := hI.n_eq
  set offset := PAGE_SIZE - b.remainingValueSize with hoffset_def
  have hoff : offset < 2 ^ 15 := by simp only [offset, PAGE_SIZE] at hrem ⊢; omega
  have hvalues : offset + value.length ≤ PAGE_SIZE := by omega
  set inner₁ := b.leaf.inner.copyFromSlice (2 + 34 * b.index) (pointerBytes key offset overflow)
  refine ⟨⟨⟨inner₁.copyFromSlice offset value⟩, b.index + 1, b.remainingValueSize - value.length⟩,
    ?_, ?_⟩
  · simp only [LeafBuilder.pushCell, Option.bind_eq_bind, show b.index < b.leaf.n by omega,
      hrem, hn' ▸ hbody, show value.length ≤ b.remainingValueSize by omega, guard_true,
      Option.bind_some, Option.pure_def]
    rw [← hoffset_def, encodeCellPointer_eq hoff]
    rfl
  · refine hI.extend (by simp; omega) rfl (by simp; omega) (fun j hj hjr => ?_)
      (fun m hm => ?_) (fun m hm => ?_)
    · rw [getElem_copyFromSlice_of_not_mem hj (by omega),
        getElem_copyFromSlice_of_not_mem hj (by simp; omega)]
    · -- the pointer, written before the value and not overwritten by it
      obtain rfl : m = 0 := by simpa using hm
      rw [FatPage.slice_copyFromSlice_of_disjoint (by omega) (Or.inl (by omega)), Nat.add_zero,
        FatPage.slice_copyFromSlice_of_length (by simp) (by omega)]
      simp [valueOffset, hoffset_def]
    · obtain rfl : m = 0 := by simpa using hm
      simp only [List.getElem_cons_zero, valueOffset, List.take_zero, valueSize_nil, Nat.add_zero]
      exact FatPage.slice_copyFromSlice hvalues

end Builder


/-! ## Moving the offsets of copied cells -/

section Rebase

variable {positive : Bool} {d : UInt16}

/-- Moving a flagged offset by `d` on the `u16` moves the offset and keeps the flag, as long as
both offsets stay below the flag bit. -/
theorem shiftOffset_flagged {src dst : Nat} {ovf : Bool} (hsrc : src < 2 ^ 15)
    (hdst : dst < 2 ^ 15) (h : if positive then dst = src + d.toNat else dst + d.toNat = src) :
    shiftOffset positive d (UInt16.ofNat (src + 2 ^ 15 * ovf.toNat)) =
      some (UInt16.ofNat (dst + 2 ^ 15 * ovf.toNat)) := by
  have hraw : (UInt16.ofNat (src + 2 ^ 15 * ovf.toNat)).toNat = src + 2 ^ 15 * ovf.toNat :=
    toNat_flagged hsrc
  have hnew : (UInt16.ofNat (dst + 2 ^ 15 * ovf.toNat)).toNat = dst + 2 ^ 15 * ovf.toNat :=
    toNat_flagged hdst
  have hflag : ovf.toNat ≤ 1 := Bool.toNat_le ovf
  cases positive with
  | true =>
    rw [if_pos rfl] at h
    rw [shiftOffset, if_pos rfl, if_pos (by omega), Option.some.injEq, ← UInt16.toNat_inj,
      UInt16.toNat_add, hraw, hnew]
    omega
  | false =>
    rw [if_neg Bool.false_ne_true] at h
    rw [shiftOffset, if_neg Bool.false_ne_true, if_pos (UInt16.le_iff_toNat_le.mpr (by omega)),
      Option.some.injEq, ← UInt16.toNat_inj, UInt16.toNat_sub_of_le _ _
      (UInt16.le_iff_toNat_le.mpr (by omega)), hraw, hnew]
    omega

/-- One round of the loop: the slot's offset is read, moved, and written back. -/
theorem slot_rebase {inner : FatPage} {i : Nat} {key : Key} {src dst : Nat} {ovf : Bool}
    (hin : 2 + 34 * i + 34 ≤ PAGE_SIZE)
    (hslot : inner.slice (2 + 34 * i) 34 = pointerBytes key src ovf) (hsrc : src < 2 ^ 15)
    (hdst : dst < 2 ^ 15) (h : if positive then dst = src + d.toNat else dst + d.toNat = src) :
    shiftOffset positive d (UInt16.ofNat (ofLeBytes (inner.slice (2 + 34 * i + 32) 2))) =
        some (UInt16.ofNat (dst + 2 ^ 15 * ovf.toNat)) ∧
      (inner.copyFromSlice (2 + 34 * i + 32)
        (leBytes (UInt16.ofNat (dst + 2 ^ 15 * ovf.toNat)).toNat 2)).slice (2 + 34 * i) 34 =
        pointerBytes key dst ovf := by
  rw [show (34 : Nat) = 32 + 2 from rfl, FatPage.slice_add, pointerBytes] at hslot
  obtain ⟨hkey, hoff⟩ := List.append_inj hslot (by simp)
  have hval : ofLeBytes (inner.slice (2 + 34 * i + 32) 2) = src + 2 ^ 15 * ovf.toNat := by
    rw [hoff, ofLeBytes_leBytes]
    exact Nat.mod_eq_of_lt (flagged_lt hsrc)
  refine ⟨by rw [hval]; exact shiftOffset_flagged hsrc hdst h, ?_⟩
  rw [show (34 : Nat) = 32 + 2 from rfl, FatPage.slice_add,
    FatPage.slice_copyFromSlice_of_disjoint (by omega) (Or.inl (by omega)), hkey,
    FatPage.slice_copyFromSlice_of_length (by simp) (by omega), toNat_flagged hdst, pointerBytes]

/-- The loop of `push_chunk` over slots `a..a + cs.length`, each holding a pointer whose offset
moves from `src m` to `dst m`: afterwards each slot holds the moved pointer, and no byte outside
the slots has changed. -/
theorem rebaseOffsets_eq (positive : Bool) (d : UInt16) (cs : List Cell) :
    ∀ (src dst : Nat → Nat) (a : Nat) (inner : FatPage),
      2 + 34 * (a + cs.length) ≤ PAGE_SIZE →
      (∀ m (hm : m < cs.length), inner.slice (2 + 34 * (a + m)) 34 =
          pointerBytes cs[m].key (src m) cs[m].overflow ∧ src m < 2 ^ 15 ∧ dst m < 2 ^ 15 ∧
        (if positive then dst m = src m + d.toNat else dst m + d.toNat = src m)) →
      ∃ inner', rebaseOffsets positive d inner (List.range' a cs.length) = some inner' ∧
        (∀ m (hm : m < cs.length), inner'.slice (2 + 34 * (a + m)) 34 =
          pointerBytes cs[m].key (dst m) cs[m].overflow) ∧
        ∀ j (hj : j < PAGE_SIZE), j < 2 + 34 * a ∨ 2 + 34 * (a + cs.length) ≤ j →
          inner'[j] = inner[j] := by
  induction cs with
  | nil =>
    intro src dst a inner _ _
    exact ⟨inner, rfl, fun m hm => absurd hm (Nat.not_lt_zero m), fun _ _ _ => rfl⟩
  | cons c cs ih =>
    intro src dst a inner hin h
    simp only [List.length_cons] at hin
    obtain ⟨hslot, hsrc, hdst, hshift⟩ := h 0 (by simp)
    simp only [Nat.add_zero, List.getElem_cons_zero] at hslot
    obtain ⟨hstep, hslot₀⟩ := slot_rebase (by omega) hslot hsrc hdst hshift
    set inner₁ := inner.copyFromSlice (2 + 34 * a + 32)
      (leBytes (UInt16.ofNat (dst 0 + 2 ^ 15 * c.overflow.toNat)).toNat 2)
    -- the first write leaves the later slots as they were
    have hrest : ∀ m (hm : m < cs.length), inner₁.slice (2 + 34 * (a + 1 + m)) 34 =
        pointerBytes cs[m].key (src (m + 1)) cs[m].overflow ∧ src (m + 1) < 2 ^ 15 ∧
        dst (m + 1) < 2 ^ 15 ∧ (if positive then dst (m + 1) = src (m + 1) + d.toNat
          else dst (m + 1) + d.toNat = src (m + 1)) := by
      intro m hm
      obtain ⟨h₁, h₂, h₃, h₄⟩ := h (m + 1) (by simp; omega)
      refine ⟨?_, h₂, h₃, h₄⟩
      rw [FatPage.slice_copyFromSlice_of_disjoint (by omega) (Or.inr (by simp; omega)),
        Nat.add_assoc, Nat.add_comm 1 m]
      simpa using h₁
    obtain ⟨inner', hrun, hslots, hframe⟩ :=
      ih (fun m => src (m + 1)) (fun m => dst (m + 1)) (a + 1) inner₁ (by omega) hrest
    refine ⟨inner', ?_, fun m hm => ?_, fun j hj hjr => ?_⟩
    · simp only [List.length_cons, List.range'_succ, rebaseOffsets, hstep, Option.bind_eq_bind,
        Option.bind_some]
      exact hrun
    · cases m with
      | zero =>
        rw [Nat.add_zero, List.getElem_cons_zero, ← hslot₀]
        exact FatPage.slice_congr (by omega) fun j _ hj₂ hj => hframe j hj (Or.inl (by omega))
      | succ m =>
        have := hslots m (by simpa using hm)
        rw [Nat.add_assoc, Nat.add_comm 1 m] at this
        simpa using this
    · simp only [List.length_cons] at hjr
      rw [hframe j hj (by omega), getElem_copyFromSlice_of_not_mem hj (by simp; omega)]

/-- The offset-moving block of `push_chunk`: the copied pointers hold their cells' values from
`s` on, and afterwards from `t` on. -/
theorem shiftCopiedOffsets_eq {cs : List Cell} {inner : FatPage} {index s t : Nat}
    (hin : 2 + 34 * (index + cs.length) ≤ PAGE_SIZE) (hs : s + valueSize cs ≤ PAGE_SIZE)
    (ht : t + valueSize cs ≤ PAGE_SIZE)
    (hslots : ∀ m (hm : m < cs.length), inner.slice (2 + 34 * (index + m)) 34 =
      pointerBytes cs[m].key (s + valueOffset cs m) cs[m].overflow) :
    ∃ inner', shiftCopiedOffsets inner index cs.length ((t : Int) - s) = some inner' ∧
      (∀ m (hm : m < cs.length), inner'.slice (2 + 34 * (index + m)) 34 =
        pointerBytes cs[m].key (t + valueOffset cs m) cs[m].overflow) ∧
      ∀ j (hj : j < PAGE_SIZE), j < 2 + 34 * index ∨ 2 + 34 * (index + cs.length) ≤ j →
        inner'[j] = inner[j] := by
  have hoff : ∀ m, valueOffset cs m ≤ valueSize cs := valueOffset_le cs
  have hpage : PAGE_SIZE = 4096 := rfl
  unfold shiftCopiedOffsets
  by_cases hdiff : (t : Int) - s = 0
  · -- the run lands where it was: nothing moves
    have hts : t = s := by omega
    subst hts
    exact ⟨inner, by simp, hslots, fun _ _ _ => rfl⟩
  · -- both ends lie in the page, so the distance fits the `u16`
    have hlt : ((t : Int) - s).natAbs < 2 ^ 16 := by omega
    have hd : (UInt16.ofNat ((t : Int) - s).natAbs).toNat = ((t : Int) - s).natAbs := by
      rw [UInt16.toNat_ofNat', Nat.mod_eq_of_lt hlt]
    obtain ⟨inner', hrun, hslots', hframe⟩ :=
      rebaseOffsets_eq (decide (0 < (t : Int) - s)) (UInt16.ofNat ((t : Int) - s).natAbs) cs
        (fun m => s + valueOffset cs m)
        (fun m => t + valueOffset cs m) index inner hin fun m hm => by
          have := hoff m
          refine ⟨hslots m hm, by omega, by omega, ?_⟩
          rw [hd]
          -- the sign of the difference picks the direction of the move
          by_cases hpos : (0 : Int) < t - s
          · rw [if_pos (decide_eq_true hpos)]
            omega
          · rw [if_neg (by simpa using hpos)]
            omega
    refine ⟨inner', ?_, hslots', hframe⟩
    simp only [ne_eq, hdiff, not_false_eq_true, if_true, hlt, guard_true, Option.bind_eq_bind,
      Option.pure_def, Option.bind_some]
    exact hrun

end Rebase


/-! ## Copying a run of another leaf -/

section Chunk

theorem take_drop_pointerSlots {inner : FatPage} {n fromIndex toIndex : Nat} (hto : toIndex ≤ n) :
    ((pointerSlots inner n).take toIndex).drop fromIndex =
      (List.range' fromIndex (toIndex - fromIndex)).map fun j => inner.slice (2 + 34 * j) 34 := by
  apply List.ext_getElem (by simp; omega)
  intro m h₁ h₂
  simp [pointerSlots]

@[simp] theorem sum_length_map_value (cs : List Cell) :
    ((cs.map Cell.value).map List.length).sum = valueSize cs := by
  simp [valueSize, Function.comp_def]

@[simp] theorem sum_length_take_map_value (cs : List Cell) (m : Nat) :
    (((cs.map Cell.value).take m).map List.length).sum = valueOffset cs m := by
  simp [valueOffset, valueSize, List.map_take, Function.comp_def]

/-- Copying the slots `fromIndex..toIndex` of one page as one block to slot `index` of another
puts each at its own slot. -/
theorem slice_copyFromSlice_slots {base inner : FatPage} {n fromIndex toIndex index m : Nat}
    (hto : toIndex ≤ n) (hin : 2 + 34 * (index + (toIndex - fromIndex)) ≤ PAGE_SIZE)
    (hm : m < toIndex - fromIndex) :
    (inner.copyFromSlice (2 + 34 * index)
        (((pointerSlots base n).take toIndex).drop fromIndex).flatten).slice
        (2 + 34 * (index + m)) 34 =
      base.slice (2 + 34 * (fromIndex + m)) 34 := by
  rw [take_drop_pointerSlots hto]
  set L := (List.range' fromIndex (toIndex - fromIndex)).map fun j => base.slice (2 + 34 * j) 34
  -- every slot is 34 bytes
  have hsum : ∀ m', m' ≤ toIndex - fromIndex → ((L.take m').map List.length).sum = 34 * m' := by
    intro m' hm'
    simp only [L, List.map_take, List.map_map, Function.comp_def, FatPage.length_slice,
      List.map_const', List.length_range', List.take_replicate, Nat.min_eq_left hm',
      List.sum_replicate_nat]
    omega
  have hlen : L.length = toIndex - fromIndex := by simp [L]
  have hall : (L.map List.length).sum = 34 * (toIndex - fromIndex) := by
    have := hsum (toIndex - fromIndex) le_rfl
    rwa [← hlen, List.take_length, hlen] at this
  have hm' : m < L.length := by omega
  have hget : L[m] = base.slice (2 + 34 * (fromIndex + m)) 34 := by simp [L]
  have hcopy : (inner.copyFromSlice (2 + 34 * index) L.flatten).slice
      (2 + 34 * index + ((L.take m).map List.length).sum) L[m].length = L[m] :=
    FatPage.slice_copyFromSlice_flatten L (by omega) m hm'
  rw [hsum m hm.le, hget, FatPage.length_slice] at hcopy
  rw [Nat.mul_add, ← Nat.add_assoc]
  exact hcopy

/-- The values of a run of a laid-out page, read as one block. -/
theorem Layout.range_values {inner : FatPage} {start : Nat} {cells : List Cell}
    (hL : Layout inner start cells) (hfit : start + valueSize cells ≤ PAGE_SIZE)
    {fromIndex toIndex : Nat} (hft : fromIndex ≤ toIndex) (hto : toIndex ≤ cells.length) :
    RustSlice.range inner.toList (start + valueOffset cells fromIndex)
        (start + valueOffset cells toIndex) =
      some (((cells.take toIndex).drop fromIndex).map Cell.value).flatten := by
  set chunk := (cells.take toIndex).drop fromIndex
  have hk : chunk.length = toIndex - fromIndex := by simp [chunk]; omega
  have hto' : valueOffset cells toIndex = valueOffset cells fromIndex + valueSize chunk := by
    have hvo : valueOffset cells (fromIndex + (toIndex - fromIndex)) =
        valueOffset cells fromIndex + valueOffset chunk (toIndex - fromIndex) :=
      valueOffset_add (by omega)
    rwa [Nat.add_sub_cancel' hft, ← hk, valueOffset_length] at hvo
  have hle := valueOffset_le cells toIndex
  rw [range_toList_eq_slice (by omega) (by omega),
    show start + valueOffset cells toIndex - (start + valueOffset cells fromIndex) =
      ((chunk.map Cell.value).map List.length).sum by rw [sum_length_map_value]; omega]
  congr 1
  refine FatPage.slice_eq_flatten _ (by rw [sum_length_map_value]; omega) fun m hm => ?_
  -- the `m`-th value of the run is the `fromIndex + m`-th of the page
  have hm' : m < chunk.length := by simpa using hm
  have hcell : chunk[m] = cells[fromIndex + m] := by simp [chunk]
  have hvo : valueOffset cells (fromIndex + m) =
      valueOffset cells fromIndex + valueOffset chunk m := valueOffset_add (by omega)
  simp only [List.getElem_map, sum_length_take_map_value, hcell, Nat.add_assoc, ← hvo]
  exact hL.value (fromIndex + m) (by omega)

variable {b : LeafBuilder} {n totalValueSize : Nat} {done : List Cell}

/-- `push_chunk` of a non-empty run of a leaf holding `baseCells` keeps the invariant while the run
fits the count and the total. -/
theorem LeafBuilder.Inv.pushChunk (hI : b.Inv n totalValueSize done) {baseNode : LeafNode}
    {baseCells : List Cell} {fromIndex toIndex : Nat} (hbase : baseNode.Holds baseCells)
    (hft : fromIndex < toIndex) (hto : toIndex ≤ baseCells.length)
    (hn : done.length + (toIndex - fromIndex) ≤ n)
    (hsize : valueSize done + valueSize ((baseCells.take toIndex).drop fromIndex) ≤
      totalValueSize) :
    ∃ b', b.pushChunk baseNode fromIndex toIndex = some b' ∧
      b'.Inv n totalValueSize (done ++ (baseCells.take toIndex).drop fromIndex) := by
  obtain ⟨hbody, hptrs, htotal, hrem, hoffset⟩ := hI.bounds
  have hrem' := hI.remaining_eq
  have hidx := hI.index_eq
  have hn' := hI.n_eq
  -- the base: its slots, and its cells laid out with their values ending the page
  obtain ⟨hcpsB, -⟩ := hbase.cellPointers (by omega)
  obtain ⟨hsizeB, hLB⟩ := hbase.layout (by omega)
  have hendB : PAGE_SIZE - valueSize baseCells + valueSize baseCells = PAGE_SIZE := by omega
  set chunk := (baseCells.take toIndex).drop fromIndex with hchunk
  have hk : chunk.length = toIndex - fromIndex := by simp [chunk]; omega
  have hvo : ∀ m, m ≤ chunk.length → valueOffset baseCells (fromIndex + m) =
      valueOffset baseCells fromIndex + valueOffset chunk m := fun m hm => valueOffset_add (by omega)
  have hvoTo : valueOffset baseCells toIndex =
      valueOffset baseCells fromIndex + valueSize chunk := by
    have := hvo chunk.length le_rfl
    rwa [valueOffset_length, hk, Nat.add_sub_cancel' hft.le] at this
  have hleTo := valueOffset_le baseCells toIndex
  set startB := PAGE_SIZE - valueSize baseCells with hstartB
  set offset := PAGE_SIZE - b.remainingValueSize with hoffset_def
  -- the reads of the base's value ranges at both ends of the run
  have hfrom := hLB.valueRange hendB (show fromIndex < baseCells.length by omega)
  have hlast := hLB.valueRange hendB (show toIndex - 1 < baseCells.length by omega)
  rw [Nat.sub_add_cancel (by omega)] at hlast
  have hvalues := hLB.range_values hendB.le hft.le hto
  -- the copied slots, then their moved offsets
  set inner₁ := b.leaf.inner.copyFromSlice (2 + 34 * b.index)
    (((pointerSlots baseNode.inner baseCells.length).take toIndex).drop fromIndex).flatten
    with hinner₁
  have hslots₁ : ∀ m (hm : m < chunk.length), inner₁.slice (2 + 34 * (b.index + m)) 34 =
      pointerBytes chunk[m].key (startB + valueOffset baseCells fromIndex + valueOffset chunk m)
        chunk[m].overflow := by
    intro m hm
    have hcell : chunk[m] = baseCells[fromIndex + m] := by simp [chunk]
    rw [slice_copyFromSlice_slots hto (by omega) (by omega),
      hLB.pointer (fromIndex + m) (by omega), hvo m hm.le, hcell, Nat.add_assoc]
  obtain ⟨inner₂, hshift, hslots₂, hframe₂⟩ :=
    shiftCopiedOffsets_eq (by omega) (by omega)
      (show offset + valueSize chunk ≤ PAGE_SIZE by omega) hslots₁
  set values := (chunk.map Cell.value).flatten
  have hvlen : values.length = valueSize chunk := by
    simp [values, List.length_flatten, Function.comp_def, valueSize]
  refine ⟨⟨⟨inner₂.copyFromSlice offset values⟩, b.index + chunk.length,
    b.remainingValueSize - values.length⟩, ?_, ?_⟩
  · have hcopied : RustSlice.range (pointerSlots baseNode.inner baseCells.length) fromIndex toIndex =
        some (((pointerSlots baseNode.inner baseCells.length).take toIndex).drop fromIndex) :=
      RustSlice.range_of_le hft.le (by simpa using hto)
    simp only [LeafBuilder.pushChunk, Option.bind_eq_bind, show b.index < b.leaf.n by omega,
      hft.le, hcpsB, hcopied, hn' ▸ hbody, show b.index + (toIndex - fromIndex) ≤ b.leaf.n by omega,
      hrem, hfrom, show 1 ≤ toIndex by omega, hlast, guard_true, Option.bind_some, Option.pure_def]
    rw [← hk, ← hoffset_def, ← hinner₁, hshift, Option.bind_some, hvalues, Option.bind_some]
    simp only [show values.length ≤ b.remainingValueSize by omega, guard_true, Option.pure_def,
      Option.bind_some]
  · have hflat : (((pointerSlots baseNode.inner baseCells.length).take toIndex).drop
        fromIndex).flatten.length = 34 * (toIndex - fromIndex) := by
      rw [take_drop_pointerSlots hto]
      simp [List.length_flatten, Function.comp_def, Nat.mul_comm]
    have hvfit : offset + values.length ≤ PAGE_SIZE := by omega
    refine hI.extend (by omega) rfl (by dsimp only; omega) (fun j hj hjr => ?_) (fun m hm => ?_)
      (fun m hm => ?_)
    · rw [getElem_copyFromSlice_of_not_mem hj (by omega), hframe₂ j hj (by omega), hinner₁,
        getElem_copyFromSlice_of_not_mem hj (by omega)]
    · -- the moved pointers, which the values are copied past
      rw [FatPage.slice_copyFromSlice_of_disjoint (by omega) (Or.inl (by omega)), hslots₂ m hm]
    · have hm' : m < (chunk.map Cell.value).length := by simpa using hm
      have hcopy : (inner₂.copyFromSlice offset (chunk.map Cell.value).flatten).slice
          (offset + (((chunk.map Cell.value).take m).map List.length).sum)
          (chunk.map Cell.value)[m].length = (chunk.map Cell.value)[m] :=
        FatPage.slice_copyFromSlice_flatten _ (by rw [sum_length_map_value]; omega) m hm'
      simp only [sum_length_take_map_value, List.getElem_map] at hcopy
      exact hcopy

end Chunk


/-! ## Any mix of calls -/

/-- The cells a call pushes: its own cell, or the run `fromIndex..toIndex` of a leaf that reads
back as `baseCells`. The run is not empty: an empty one pushes nothing, and `push_chunk` panics on
it at `fromIndex = 0` (`to - 1`) and as the last call (`self.index < self.leaf.n()`). -/
inductive LeafBuilder.Pushes : LeafBuilder.Push → List Cell → Prop
  | cell (key : Key) (value : List UInt8) (overflow : Bool) :
      Pushes (.cell key value overflow) [⟨key, value, overflow⟩]
  | chunk {baseNode : LeafNode} {baseCells : List Cell} {fromIndex toIndex : Nat} :
      baseNode.Holds baseCells → fromIndex < toIndex → toIndex ≤ baseCells.length →
      Pushes (.chunk baseNode fromIndex toIndex) ((baseCells.take toIndex).drop fromIndex)

section Run

variable {n totalValueSize : Nat}

/-- Either call keeps the invariant while its cells fit the count and the total. -/
theorem LeafBuilder.Inv.push {b : LeafBuilder} {done : List Cell}
    (hI : b.Inv n totalValueSize done) {call : LeafBuilder.Push} {cs : List Cell}
    (hcall : LeafBuilder.Pushes call cs) (hn : done.length + cs.length ≤ n)
    (hsize : valueSize done + valueSize cs ≤ totalValueSize) :
    ∃ b', b.push call = some b' ∧ b'.Inv n totalValueSize (done ++ cs) := by
  cases hcall with
  | cell key value overflow =>
    simp only [List.length_singleton, valueSize_cons, valueSize_nil, Nat.add_zero] at hn hsize
    exact hI.pushCell (by omega) hsize
  | chunk hbase hft hto =>
    simp only [List.length_drop, List.length_take, Nat.min_eq_left hto] at hn
    exact hI.pushChunk hbase hft hto hn hsize

/-- The run lemma: the calls in order keep the invariant, ending with all their cells pushed. -/
theorem LeafBuilder.Inv.foldlM_push {calls : List LeafBuilder.Push} {pushed : List (List Cell)}
    (hcalls : List.Forall₂ LeafBuilder.Pushes calls pushed) :
    ∀ {b : LeafBuilder} {done : List Cell}, b.Inv n totalValueSize done →
      done.length + pushed.flatten.length ≤ n →
      valueSize done + valueSize pushed.flatten ≤ totalValueSize →
      ∃ b', calls.foldlM LeafBuilder.push b = some b' ∧
        b'.Inv n totalValueSize (done ++ pushed.flatten) := by
  induction hcalls with
  | nil =>
    intro b done hI _ _
    exact ⟨b, rfl, by simpa using hI⟩
  | cons hcall _ ih =>
    intro b done hI hn hsize
    simp only [List.flatten_cons, List.length_append, valueSize_append] at hn hsize
    obtain ⟨b₁, hstep, hI₁⟩ := hI.push hcall (by omega) (by omega)
    obtain ⟨b', hrun, hI'⟩ :=
      ih hI₁ (by simp only [List.length_append]; omega) (by simp only [valueSize_append]; omega)
    refine ⟨b', ?_, ?_⟩
    · rw [List.foldlM_cons, hstep]
      exact hrun
    · simpa [List.append_assoc] using hI'

end Run

/-- A leaf built from any mix of `push_cell` and `push_chunk` calls, whose cells ascend and fit
the page, reads back as those cells: the count, each key and value, and `get` of every key. -/
theorem build_round_trip (page : FatPage) (calls : List LeafBuilder.Push)
    (pushed : List (List Cell)) (cells : List Cell)
    (hcalls : List.Forall₂ LeafBuilder.Pushes calls pushed) (hcells : pushed.flatten = cells)
    (hsorted : Ascending cells)
    (hfits : bodySize cells.length (valueSize cells) ≤ LEAF_NODE_BODY_SIZE) :
    ∃ leaf, LeafBuilder.build page cells.length (valueSize cells) calls = some leaf ∧
      leaf.n = cells.length ∧
      (∀ i (hi : i < cells.length), leaf.key i = some cells[i].key ∧
        leaf.value i = some (cells[i].value, cells[i].overflow)) ∧
      (∀ i (hi : i < cells.length),
        leaf.get cells[i].key = some (some (cells[i].value, cells[i].overflow))) ∧
      ∀ key, (∀ c ∈ cells, c.key ≠ key) → leaf.get key = some none := by
  subst hcells
  obtain ⟨b, hrun, hI⟩ :=
    (LeafBuilder.Inv.new page hfits).foldlM_push hcalls (by simp) (by simp)
  rw [List.nil_append] at hI
  obtain ⟨hbody, -, htotal, -, -⟩ := hI.bounds
  have hrem := hI.remaining_eq
  have hend : PAGE_SIZE - valueSize pushed.flatten + valueSize pushed.flatten = PAGE_SIZE := by
    omega
  have hfinish : b.finish = some b.leaf := by
    rw [LeafBuilder.finish, if_pos (by omega)]
  have hholds := hI.layout.holds hI.n_eq hbody hend
  refine ⟨b.leaf, ?_, hholds.n_eq, fun i hi => ⟨hholds.key_eq i hi, hholds.value_eq i hi⟩,
    fun i hi => hI.layout.get_key hI.n_eq hbody hend hsorted hi,
    fun key hkey => hI.layout.get_of_forall_ne hI.n_eq hbody hkey⟩
  rw [LeafBuilder.build, hrun, Option.bind_some, hfinish]

/-- A leaf built from a `push_cell`, a `push_chunk` of both cells of a leaf the builder made, and
another `push_cell`. The chunk's values start one byte lower than in its base leaf, so
`push_chunk` moves their offsets by a difference of -1. -/
theorem build_round_trip_chunk_between_cells :
    ∃ base, LeafBuilder.build (Vector.replicate PAGE_SIZE 0) 2 3
        [.cell (Vector.replicate 32 1) [1, 2] false, .cell (Vector.replicate 32 2) [3] true] =
          some base ∧
      ∃ leaf, LeafBuilder.build (Vector.replicate PAGE_SIZE 0) 4 5
          [.cell (Vector.replicate 32 0) [9] false, .chunk base 0 2,
            .cell (Vector.replicate 32 3) [4] false] = some leaf ∧
        leaf.n = 4 ∧
        (∀ i (hi : i < 4), leaf.key i = some ([(⟨Vector.replicate 32 0, [9], false⟩ : Cell), ⟨Vector.replicate 32 1, [1, 2], false⟩,
          ⟨Vector.replicate 32 2, [3], true⟩, ⟨Vector.replicate 32 3, [4], false⟩])[i].key ∧
          leaf.value i = some (([(⟨Vector.replicate 32 0, [9], false⟩ : Cell), ⟨Vector.replicate 32 1, [1, 2], false⟩,
          ⟨Vector.replicate 32 2, [3], true⟩, ⟨Vector.replicate 32 3, [4], false⟩])[i].value,
            ([(⟨Vector.replicate 32 0, [9], false⟩ : Cell), ⟨Vector.replicate 32 1, [1, 2], false⟩,
          ⟨Vector.replicate 32 2, [3], true⟩, ⟨Vector.replicate 32 3, [4], false⟩])[i].overflow)) ∧
        (∀ i (hi : i < 4), leaf.get ([(⟨Vector.replicate 32 0, [9], false⟩ : Cell), ⟨Vector.replicate 32 1, [1, 2], false⟩,
          ⟨Vector.replicate 32 2, [3], true⟩, ⟨Vector.replicate 32 3, [4], false⟩])[i].key =
          some (some (([(⟨Vector.replicate 32 0, [9], false⟩ : Cell), ⟨Vector.replicate 32 1, [1, 2], false⟩,
          ⟨Vector.replicate 32 2, [3], true⟩, ⟨Vector.replicate 32 3, [4], false⟩])[i].value,
            ([(⟨Vector.replicate 32 0, [9], false⟩ : Cell), ⟨Vector.replicate 32 1, [1, 2], false⟩,
          ⟨Vector.replicate 32 2, [3], true⟩, ⟨Vector.replicate 32 3, [4], false⟩])[i].overflow))) ∧
        ∀ key, (∀ c ∈ [(⟨Vector.replicate 32 0, [9], false⟩ : Cell), ⟨Vector.replicate 32 1, [1, 2], false⟩,
          ⟨Vector.replicate 32 2, [3], true⟩, ⟨Vector.replicate 32 3, [4], false⟩], c.key ≠ key) →
          leaf.get key = some none := by
  -- the base leaf, built from two cells, reads back as them
  obtain ⟨base, hbuild, hn, hkv, -, -⟩ := build_round_trip (Vector.replicate PAGE_SIZE 0)
    [.cell (Vector.replicate 32 1) [1, 2] false, .cell (Vector.replicate 32 2) [3] true]
    [[⟨Vector.replicate 32 1, [1, 2], false⟩], [⟨Vector.replicate 32 2, [3], true⟩]]
    [⟨Vector.replicate 32 1, [1, 2], false⟩, ⟨Vector.replicate 32 2, [3], true⟩]
    (.cons (.cell _ _ _) (.cons (.cell _ _ _) .nil)) rfl (by decide) (by decide)
  have hbase : base.Holds
      [⟨Vector.replicate 32 1, [1, 2], false⟩, ⟨Vector.replicate 32 2, [3], true⟩] :=
    ⟨hn, fun i hi => (hkv i hi).1, fun i hi => (hkv i hi).2⟩
  exact ⟨base, hbuild, build_round_trip (Vector.replicate PAGE_SIZE 0)
    [.cell (Vector.replicate 32 0) [9] false, .chunk base 0 2,
      .cell (Vector.replicate 32 3) [4] false]
    [[⟨Vector.replicate 32 0, [9], false⟩],
      ([⟨Vector.replicate 32 1, [1, 2], false⟩, ⟨Vector.replicate 32 2, [3], true⟩].take 2).drop 0,
      [⟨Vector.replicate 32 3, [4], false⟩]]
    [(⟨Vector.replicate 32 0, [9], false⟩ : Cell), ⟨Vector.replicate 32 1, [1, 2], false⟩,
          ⟨Vector.replicate 32 2, [3], true⟩, ⟨Vector.replicate 32 3, [4], false⟩]
    (.cons (.cell _ _ _) (.cons (.chunk hbase (by decide) (by decide)) (.cons (.cell _ _ _) .nil)))
    rfl (by decide) (by decide)⟩

end Nomt.Beatree

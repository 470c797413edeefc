import Nomt.Lib.Bits
import Nomt.Lib.ByteOrder
import Nomt.Core.PageId

/-!
# Pages and page diffs (`nomt/src/page_diff.rs`, `nomt/src/page_cache.rs`)

A page is `PAGE_SIZE` bytes: `NODES_PER_PAGE = 126` node slots of 32 bytes from its start, the
elided-children word in the 8 bytes before the last 32, and the page's 32-byte identifier at the
end.

A `PageDiff` is a bitmap of 128 bits held in two `u64` words: bit `i` marks node slot `i` as
changed, bit 127 (`CLEAR_BIT`) marks a cleared page, and bit 126 is reserved. No constructor sets
bit 126 (`from_bytes` rejects it, `set_changed` takes slots below 126, `set_cleared` sets bit 127,
`join` ors two diffs), so the structure carries that as a field, and `as_bytes` of a diff that is
not cleared is read back by `from_bytes` unchanged (`fromBytes_asBytes`).

`iter_ones` lists the changed slots through `FastIterOnes`, which yields the lowest one bit of a
word and clears it until none is left (`fastIterOnes_eq_ones`). There are `count` of them
(`length_slots`), all below 126 on a diff that is not cleared (`lt_of_mem_slots`).
`pack_changed_nodes` collects those slots of a page and `unpack_changed_nodes` writes them into
another: the result holds the packed page's bytes on every changed slot and the other page's
bytes elsewhere (`getElem_unpack_pack`).
-/

namespace Nomt

open ByteOrder Bits

/-- `PAGE_SIZE`. -/
def PAGE_SIZE : Nat := 4096

/-- `NODES_PER_PAGE`: the nodes of the rootless binary tree of depth `DEPTH` a page holds. -/
def NODES_PER_PAGE : Nat := (1 <<< (pageDepth + 1)) - 2

theorem NODES_PER_PAGE_eq : NODES_PER_PAGE = 126 := rfl

/-- `FatPage`: the bytes of a page. -/
abbrev FatPage := Vector UInt8 PAGE_SIZE

namespace FatPage

/-- `&page[start..start + len]`; every use lies inside the page. -/
def slice (page : FatPage) (start len : Nat) : List UInt8 :=
  (List.range len).map fun k => page[start + k]?.getD 0

/-- `page[start..start + src.len()].copy_from_slice(src)`; every use lies inside the page. -/
def copyFromSlice (page : FatPage) (start : Nat) (src : List UInt8) : FatPage :=
  Vector.ofFn fun j =>
    if start ≤ j.val ∧ j.val < start + src.length then src.getD (j.val - start) 0 else page[j]

variable {page : FatPage} {start len j : Nat} {src : List UInt8}

@[simp] theorem length_slice : (page.slice start len).length = len := by
  simp [slice]

theorem getD_slice (hk : k < len) (hin : start + len ≤ PAGE_SIZE) :
    (page.slice start len).getD k 0 = page[start + k] := by
  simp [slice, hk, show start + k < PAGE_SIZE by omega]

theorem getElem_copyFromSlice (hj : j < PAGE_SIZE) :
    (page.copyFromSlice start src)[j] =
      if start ≤ j ∧ j < start + src.length then src.getD (j - start) 0 else page[j] := by
  simp [copyFromSlice]

/-- Two pages with the same bytes on a range have the same slice there. -/
theorem slice_congr {page' : FatPage} (hin : start + len ≤ PAGE_SIZE)
    (h : ∀ j, start ≤ j → j < start + len → (hj : j < PAGE_SIZE) → page[j] = page'[j]) :
    page.slice start len = page'.slice start len := by
  refine List.ext_getElem (by simp) fun k hk _ => ?_
  simp only [length_slice] at hk
  have hlt : start + k < PAGE_SIZE := by omega
  simp [slice, hlt, h (start + k) (by omega) (by omega) hlt]

/-- Copying a slice in and reading the same range gives the slice. -/
theorem slice_copyFromSlice (hin : start + src.length ≤ PAGE_SIZE) :
    (page.copyFromSlice start src).slice start src.length = src := by
  refine List.ext_getElem (by simp) fun k hk _ => ?_
  simp only [length_slice] at hk
  have hlt : start + k < PAGE_SIZE := by omega
  simp [slice, hk, hlt, getElem_copyFromSlice hlt]

theorem slice_copyFromSlice_of_length (hlen : src.length = len) (hin : start + len ≤ PAGE_SIZE) :
    (page.copyFromSlice start src).slice start len = src := by
  subst hlen
  exact slice_copyFromSlice hin

/-- Copying a slice in leaves a range it does not overlap as it was. -/
theorem slice_copyFromSlice_of_disjoint {start' : Nat} (hin : start + len ≤ PAGE_SIZE)
    (h : start + len ≤ start' ∨ start' + src.length ≤ start) :
    (page.copyFromSlice start' src).slice start len = page.slice start len :=
  slice_congr hin fun j hj₁ hj₂ hj => by rw [getElem_copyFromSlice hj, if_neg (by omega)]

/-- A slice splits where its length does. -/
theorem slice_add (a b : Nat) :
    page.slice start (a + b) = page.slice start a ++ page.slice (start + a) b := by
  simp only [slice, List.range_add, List.map_append, List.map_map]
  congr 1
  apply List.map_congr_left
  intro k _
  simp [Nat.add_assoc]

/-- Copying two slices one after the other is copying their concatenation. -/
theorem copyFromSlice_append (src' : List UInt8) :
    page.copyFromSlice start (src ++ src') =
      (page.copyFromSlice start src).copyFromSlice (start + src.length) src' := by
  ext j hj
  simp only [getElem_copyFromSlice hj, List.length_append]
  by_cases h1 : start ≤ j ∧ j < start + src.length
  · rw [if_pos (by omega), if_neg (by omega), if_pos h1, List.getD_eq_getElem?_getD,
      List.getElem?_append_left (by omega), ← List.getD_eq_getElem?_getD]
  · by_cases h2 : start + src.length ≤ j ∧ j < start + src.length + src'.length
    · rw [if_pos (by omega), if_pos h2, List.getD_eq_getElem?_getD,
        List.getElem?_append_right (by omega), ← List.getD_eq_getElem?_getD, Nat.sub_sub]
    · rw [if_neg (by omega), if_neg h2, if_neg h1]

/-- Reading back one piece of a concatenation copied in. -/
theorem slice_copyFromSlice_flatten (L : List (List UInt8))
    (hin : start + (L.map List.length).sum ≤ PAGE_SIZE) (m : Nat) (hm : m < L.length) :
    (page.copyFromSlice start L.flatten).slice (start + ((L.take m).map List.length).sum) L[m].length =
      L[m] := by
  induction L generalizing start page m with
  | nil => simp at hm
  | cons x L ih =>
    simp only [List.flatten_cons, copyFromSlice_append]
    simp only [List.map_cons, List.sum_cons] at hin
    cases m with
    | zero =>
      simp only [List.take_zero, List.map_nil, List.sum_nil, Nat.add_zero, List.getElem_cons_zero]
      rw [slice_copyFromSlice_of_disjoint (by omega) (Or.inl (by omega)),
        slice_copyFromSlice (by omega)]
    | succ m =>
      simp only [List.take_succ_cons, List.map_cons, List.sum_cons, List.getElem_cons_succ]
      rw [← Nat.add_assoc]
      exact ih (by omega) m (by simpa using hm)

/-- A page holding consecutive pieces holds their concatenation. -/
theorem slice_eq_flatten (L : List (List UInt8))
    (hin : start + (L.map List.length).sum ≤ PAGE_SIZE)
    (h : ∀ m (hm : m < L.length),
      page.slice (start + ((L.take m).map List.length).sum) L[m].length = L[m]) :
    page.slice start (L.map List.length).sum = L.flatten := by
  induction L generalizing start with
  | nil => simp [slice]
  | cons x L ih =>
    simp only [List.map_cons, List.sum_cons] at hin ⊢
    rw [slice_add, List.flatten_cons]
    have h0 := h 0 (by simp)
    simp only [List.take_zero, List.map_nil, List.sum_nil, Nat.add_zero, List.getElem_cons_zero] at h0
    rw [h0, ih (by omega) fun m hm => ?_]
    have := h (m + 1) (by simpa using hm)
    simpa [List.take_succ_cons, Nat.add_assoc] using this

end FatPage

/-! ### Elided children -/

/-- `ElidedChildren`: which child pages of a page are elided, as a `u64` bitfield. -/
structure ElidedChildren where
  elided : UInt64
deriving DecidableEq, Repr

namespace ElidedChildren

/-- `ElidedChildren::from_bytes`. -/
def fromBytes (raw : List UInt8) : ElidedChildren := ⟨UInt64.ofNat (ofLeBytes raw)⟩

/-- `ElidedChildren::to_bytes`. -/
def toBytes (e : ElidedChildren) : List UInt8 := leBytes e.elided.toNat 8

@[simp] theorem length_toBytes (e : ElidedChildren) : e.toBytes.length = 8 := length_leBytes 8

/-- Eight bytes read as the bitfield are written back unchanged. -/
theorem toBytes_fromBytes {raw : List UInt8} (h : raw.length = 8) : (fromBytes raw).toBytes = raw := by
  rw [toBytes, fromBytes, UInt64.toNat_ofNat', show (2 : Nat) ^ 64 = 256 ^ 8 by norm_num,
    leBytes, beBytes_mod, ← leBytes, ← h, leBytes_ofLeBytes]

theorem fromBytes_toBytes (e : ElidedChildren) : fromBytes e.toBytes = e := by
  rw [fromBytes, toBytes, ofLeBytes_leBytes_u64]

end ElidedChildren

/-- `read_elided_children` (`Page::elided_children`): the 8 bytes before the label. -/
def readElidedChildren (data : FatPage) : ElidedChildren :=
  .fromBytes (data.slice (PAGE_SIZE - 32 - 8) 8)

/-! ### Page diffs -/

/-- `CLEAR_BIT`: bit 127, the top bit of the second word. -/
def CLEAR_BIT : UInt64 := (1 : UInt64) <<< 63

theorem CLEAR_BIT_eq : CLEAR_BIT = 1 <<< (63 : Nat).toUInt64 := rfl

/-- `PageDiff::changed` on the two words: whether bit `slotIndex` is set. -/
def changedIn (changedNodes : Vector UInt64 2) (slotIndex : Nat) : Bool :=
  let word := slotIndex / 64
  let index := slotIndex % 64
  let mask : UInt64 := 1 <<< index.toUInt64
  changedNodes[word]! &&& mask == mask

theorem changedIn_eq (v : Vector UInt64 2) {slotIndex : Nat} :
    changedIn v slotIndex = v[slotIndex / 64]!.toNat.testBit (slotIndex % 64) :=
  and_mask_beq _ (Nat.mod_lt _ (by decide))

/-- Bit 126 is set exactly when bit 62 of the second word is. -/
theorem changedIn_126 (v : Vector UInt64 2) : changedIn v 126 = v[1].toNat.testBit 62 := by
  rw [changedIn_eq]
  simp

/-- `PageDiff`: the changed slots of a page, with bit 126 clear. -/
structure PageDiff where
  changedNodes : Vector UInt64 2
  /-- The reserved bit 126 is set by no constructor. -/
  reserved : changedIn changedNodes 126 = false
deriving DecidableEq, Repr

namespace PageDiff

theorem testBit_62 (d : PageDiff) : d.changedNodes[1].toNat.testBit 62 = false := by
  rw [← changedIn_126]
  exact d.reserved

/-- `PageDiff::default`: no slot changed. -/
def default : PageDiff := ⟨#v[0, 0], by decide⟩

/-- `PageDiff::changed`. -/
def changed (d : PageDiff) (slotIndex : Nat) : Bool := changedIn d.changedNodes slotIndex

/-- `PageDiff::from_bytes`: two little-endian words; `none` if a reserved bit is set. -/
def fromBytes (bytes : List UInt8) : Option PageDiff :=
  let changedNodes : Vector UInt64 2 :=
    #v[UInt64.ofNat (ofLeBytes (bytes.take 8)), UInt64.ofNat (ofLeBytes ((bytes.drop 8).take 8))]
  -- the two last bits must be clear
  if h : changedIn changedNodes 126 || changedIn changedNodes 127 then none
  else some ⟨changedNodes, by simp_all⟩

/-- `PageDiff::set_changed`: marks a slot and erases the clear bit; panics from slot 126 on. -/
def setChanged (d : PageDiff) (slotIndex : Nat) : Option PageDiff :=
  if h : slotIndex < NODES_PER_PAGE then
    let word := slotIndex / 64
    let index := slotIndex % 64
    let mask : UInt64 := 1 <<< index.toUInt64
    have hword : word < 2 := by rw [NODES_PER_PAGE_eq] at h; omega
    let v := d.changedNodes.set word (d.changedNodes[word] ||| mask)
    let v := v.set 1 (v[1] &&& ~~~CLEAR_BIT)
    some ⟨v, by
      rw [changedIn_126, Vector.getElem_set_self, UInt64.toNat_and, Nat.testBit_and,
        testBit_not _ (by decide), CLEAR_BIT_eq, testBit_one_shiftLeft (by decide),
        Vector.getElem_set]
      rw [NODES_PER_PAGE_eq] at h
      split_ifs with hw
      · -- the slot is in the second word, below its bit 62
        have hdiv : slotIndex / 64 = 1 := hw
        have hne : slotIndex % 64 ≠ 62 := by omega
        rw [UInt64.toNat_or, Nat.testBit_or, testBit_one_shiftLeft (Nat.mod_lt _ (by decide))]
        simp [hw, d.testBit_62, hne]
      · simp [d.testBit_62]⟩
  else none

/-- `PageDiff::set_cleared`. -/
def setCleared (d : PageDiff) : PageDiff :=
  ⟨d.changedNodes.set 1 (d.changedNodes[1] ||| CLEAR_BIT), by
    rw [changedIn_126]
    have hclear := testBit_one_shiftLeft (k := 63) (by decide) 62
    simp only [Vector.getElem_set, if_pos, UInt64.toNat_or, Nat.testBit_or, d.testBit_62,
      CLEAR_BIT]
    simpa using hclear⟩

/-- `PageDiff::cleared`. -/
def cleared (d : PageDiff) : Bool := d.changedNodes[1] &&& CLEAR_BIT == CLEAR_BIT

/-- `PageDiff::join`: the slots changed in either diff. -/
def join (d e : PageDiff) : PageDiff :=
  ⟨#v[d.changedNodes[0] ||| e.changedNodes[0], d.changedNodes[1] ||| e.changedNodes[1]], by
    rw [changedIn_126]
    simp [UInt64.toNat_or, Nat.testBit_or, d.testBit_62, e.testBit_62]⟩

/-- `PageDiff::count`: the number of one bits of both words. -/
def count (d : PageDiff) : Nat := countOnes d.changedNodes[0] + countOnes d.changedNodes[1]

/-- `PageDiff::as_bytes`: both words, little-endian. -/
def asBytes (d : PageDiff) : List UInt8 :=
  leBytes d.changedNodes[0].toNat 8 ++ leBytes d.changedNodes[1].toNat 8

end PageDiff

/-- `FastIterOnes` on at most `fuel` steps: each step yields the lowest one bit and clears it. -/
def fastIterOnes : Nat → UInt64 → List Nat
  | 0, _ => []
  | fuel + 1, w =>
    match trailingZeros w with
    | 64 => []
    | x => x :: fastIterOnes fuel (w &&& ~~~(1 <<< x.toUInt64))

/-- With a step for each one bit, `FastIterOnes` yields the one bits, lowest first. -/
theorem fastIterOnes_eq_ones : ∀ {fuel : Nat} {w : UInt64}, (ones w).length ≤ fuel →
    fastIterOnes fuel w = ones w
  | 0, w, h => (List.eq_nil_of_length_eq_zero (Nat.le_zero.mp h)).symm
  | fuel + 1, w, h => by
    rcases hw : ones w with _ | ⟨x, rest⟩
    · rw [fastIterOnes, trailingZeros_of_ones_nil hw]
      rfl
    · have hx : x < 64 := lt_of_mem_ones (hw ▸ List.mem_cons_self)
      have hrest : (ones (w &&& ~~~(1 <<< x.toUInt64))).length ≤ fuel := by
        rw [ones_clearLowest hw]
        rw [hw, List.length_cons] at h
        omega
      rw [fastIterOnes, trailingZeros_of_ones_cons hw]
      split
      · omega
      · rw [fastIterOnes_eq_ones hrest, ones_clearLowest hw]

theorem fastIterOnes_64 (w : UInt64) : fastIterOnes 64 w = ones w :=
  fastIterOnes_eq_ones ((List.length_filter_le _ _).trans (List.length_range ▸ le_refl 64))

namespace PageDiff

/-- `PageDiff::iter_ones`; panics on a cleared diff. -/
def iterOnes (d : PageDiff) : Option (List Nat) :=
  if d.changedNodes[1] &&& ((1 : UInt64) <<< 63) = 0 then
    some (fastIterOnes 64 d.changedNodes[0] ++ (fastIterOnes 64 d.changedNodes[1]).map (· + 64))
  else none

/-- `PageDiff::pack_changed_nodes`: the changed slots of `page`, in the order of `iter_ones`. -/
def packChangedNodes (d : PageDiff) (page : FatPage) : Option (List (List UInt8)) :=
  d.iterOnes.map fun slots => slots.map fun nodeIndex => page.slice (nodeIndex * 32) 32

/-- `PageDiff::unpack_changed_nodes`: writes `nodes` into the changed slots of `page`; panics
unless there are `count` of them. -/
def unpackChangedNodes (d : PageDiff) (nodes : List (List UInt8)) (page : FatPage) :
    Option FatPage :=
  if d.count ≠ nodes.length then none
  else d.iterOnes.map fun slots =>
    (slots.zip nodes).foldl (fun page (nodeIndex, node) => page.copyFromSlice (nodeIndex * 32) node)
      page

/-! ### The changed slots -/

/-- The slots `iter_ones` yields: the one bits of the first word, then those of the second. -/
def slots (d : PageDiff) : List Nat := ones d.changedNodes[0] ++ (ones d.changedNodes[1]).map (· + 64)

variable {d : PageDiff}

theorem cleared_eq (d : PageDiff) : d.cleared = d.changedNodes[1].toNat.testBit 63 := by
  rw [cleared, CLEAR_BIT_eq]
  exact and_mask_beq _ (by decide)

theorem iterOnes_eq (hc : d.cleared = false) : d.iterOnes = some d.slots := by
  have hzero : d.changedNodes[1] &&& ((1 : UInt64) <<< 63) = 0 :=
    (and_mask_eq_zero d.changedNodes[1] (k := 63) (by decide)).mpr (d.cleared_eq ▸ hc)
  rw [iterOnes, if_pos hzero, fastIterOnes_64, fastIterOnes_64, slots]

theorem iterOnes_eq_none (hc : d.cleared = true) : d.iterOnes = none := by
  have hne : d.changedNodes[1] &&& ((1 : UInt64) <<< 63) ≠ 0 := fun h => by
    have hbit := (and_mask_eq_zero d.changedNodes[1] (k := 63) (by decide)).mp h
    rw [← cleared_eq, hc] at hbit
    cases hbit
  rw [iterOnes, if_neg hne]

theorem packChangedNodes_eq (hc : d.cleared = false) (page : FatPage) :
    d.packChangedNodes page = some (d.slots.map fun i => page.slice (i * 32) 32) := by
  rw [packChangedNodes, iterOnes_eq hc]
  rfl

theorem length_slots (d : PageDiff) : d.slots.length = d.count := by
  simp [slots, count, countOnes]

/-- On a diff that is not cleared every changed slot is a node slot. -/
theorem lt_of_mem_slots (hc : d.cleared = false) {i : Nat} (hi : i ∈ d.slots) :
    i < NODES_PER_PAGE := by
  rw [NODES_PER_PAGE_eq]
  rcases List.mem_append.mp hi with h0 | h1
  · have := lt_of_mem_ones h0
    omega
  · obtain ⟨c, hc1, rfl⟩ := List.mem_map.mp h1
    obtain ⟨hlt, hbit⟩ := mem_ones.mp hc1
    -- bit 62 is reserved and bit 63 is the clear bit
    have h62 : c ≠ 62 := fun h => by rw [h, d.testBit_62] at hbit; exact absurd hbit (by decide)
    have h63 : c ≠ 63 := fun h => by rw [h, ← cleared_eq, hc] at hbit; exact absurd hbit (by decide)
    omega

/-! ### Bytes -/

/-- `as_bytes` of a diff that is not cleared is read back by `from_bytes`. -/
theorem fromBytes_asBytes (hc : d.cleared = false) : fromBytes d.asBytes = some d := by
  have hv : (#v[UInt64.ofNat (ofLeBytes (d.asBytes.take 8)),
      UInt64.ofNat (ofLeBytes ((d.asBytes.drop 8).take 8))] : Vector UInt64 2) = d.changedNodes := by
    rw [asBytes, List.take_left' (length_leBytes 8), List.drop_left' (length_leBytes 8),
      List.take_of_length_le (by simp), ofLeBytes_leBytes_u64, ofLeBytes_leBytes_u64]
    exact Vector.ext fun i hi => match i, hi with
      | 0, _ => rfl
      | 1, _ => rfl
  have h127 : changedIn d.changedNodes 127 = false := by
    rw [changedIn_eq, ← hc, cleared_eq]
    simp
  unfold fromBytes
  simp [hv, d.reserved, h127]

@[simp] theorem length_asBytes (d : PageDiff) : d.asBytes.length = 16 := by
  simp [asBytes]

/-! ### Packing and unpacking -/

/-- Writing into `old` the slices of `page` at the slots `l` leaves `page`'s bytes on those slots
and `old`'s elsewhere. -/
theorem getElem_foldl_copy {l : List Nat} (page : FatPage) (hl : ∀ i ∈ l, i < NODES_PER_PAGE) (old : FatPage)
    {j : Nat} (hj : j < PAGE_SIZE) :
    ((l.zip (l.map fun i => page.slice (i * 32) 32)).foldl
        (fun page (nodeIndex, node) => page.copyFromSlice (nodeIndex * 32) node) old)[j] =
      if ∃ i ∈ l, i * 32 ≤ j ∧ j < i * 32 + 32 then page[j] else old[j] := by
  induction l generalizing old with
  | nil => simp
  | cons i l ih =>
    have hi : i * 32 + 32 ≤ PAGE_SIZE := by
      have := hl i List.mem_cons_self
      rw [NODES_PER_PAGE_eq] at this
      simp only [PAGE_SIZE]
      omega
    rw [List.map_cons, List.zip_cons_cons, List.foldl_cons,
      ih (fun i' h => hl i' (List.mem_cons_of_mem _ h)), FatPage.getElem_copyFromSlice hj,
      FatPage.length_slice]
    by_cases hin : i * 32 ≤ j ∧ j < i * 32 + 32
    · have hcover : ∃ i' ∈ i :: l, i' * 32 ≤ j ∧ j < i' * 32 + 32 := ⟨i, List.mem_cons_self, hin⟩
      have hbyte : (page.slice (i * 32) 32).getD (j - i * 32) 0 = page[j] := by
        rw [FatPage.getD_slice (by omega) hi]
        simp only [Nat.add_sub_cancel' hin.1]
      rw [if_pos hin, if_pos hcover, hbyte, ite_self]
    · simp only [List.exists_mem_cons_iff, hin, false_or, if_false]

/-- Unpacking what `pack_changed_nodes` took from `page` into `old` gives `page`'s bytes on the
changed slots and `old`'s elsewhere. -/
theorem getElem_unpack_pack (hc : d.cleared = false) (page old : FatPage) :
    ∃ nodes, d.packChangedNodes page = some nodes ∧ ∃ page',
      d.unpackChangedNodes nodes old = some page' ∧
      ∀ j (hj : j < PAGE_SIZE), page'[j] =
        if ∃ i ∈ d.slots, i * 32 ≤ j ∧ j < i * 32 + 32 then page[j] else old[j] := by
  refine ⟨d.slots.map fun i => page.slice (i * 32) 32, by rw [packChangedNodes, iterOnes_eq hc]; rfl,
    _, ?_, fun j hj => getElem_foldl_copy page (fun i hi => lt_of_mem_slots hc hi) old hj⟩
  rw [unpackChangedNodes, if_neg (by simp [length_slots]), iterOnes_eq hc]
  rfl

end PageDiff

end Nomt

import Nomt.Lib.ByteOrder

/-!
# Overflow values (`nomt/src/beatree/ops/overflow.rs`)

A value too large for a leaf is cut into overflow pages. The leaf keeps a cell: the value's size,
its hash, and the numbers of the first (at most 15) overflow pages. Each overflow page holds

```
n_pointers: u16, n_bytes: u16, pointers: [PageNumber; n_pointers], bytes: [u8; n_bytes]
```

and the page numbers that do not fit in the cell are written into the first overflow pages, before
their value bytes. A reader therefore learns the page numbers past the cell only by parsing the
pages in order. `read_blocking` does so page by page; `AsyncReader` hands out request indices into
its list of known pages with `submit` and parses pages as they complete.

`ReverseDeltaWorker::resubmit_overflow` submits up to 128 requests in a burst right after the
reader is made. When the value needs more pages than its cell lists, the burst reaches past the
pages known so far, and `AsyncReader::submit` indexes past the end of its list
(`submitLoop_eq_none_of_lt`).
-/

namespace Nomt.Overflow

open ByteOrder

/-- `io::PAGE_SIZE`. -/
def PAGE_SIZE : Nat := 4096

/-- `BODY_SIZE`. -/
def BODY_SIZE : Nat := PAGE_SIZE - 4

/-- `MAX_PNS`: the page numbers that fill a page body. -/
def MAX_PNS : Nat := BODY_SIZE / 4

/-- `HEADER_SIZE`. -/
def HEADER_SIZE : Nat := 4

/-- `leaf::node::MAX_OVERFLOW_CELL_NODE_POINTERS`. -/
def MAX_OVERFLOW_CELL_NODE_POINTERS : Nat := 15

/-- `leaf::node::MAX_OVERFLOW_VALUE_SIZE`: 512 MiB. -/
def MAX_OVERFLOW_VALUE_SIZE : Nat := 1 <<< 29

/-- `PageNumber`. -/
abbrev PageNumber := UInt32

/-- `needed_pages`. -/
def neededPages (size : Nat) : Nat := (size + BODY_SIZE - 1) / BODY_SIZE

/-- `total_needed_pages`: the pages for the value's bytes and for the page numbers beyond the
cell's. Neither subtraction can underflow: the needed pages hold the value, and the last branch is
taken only when the page numbers outnumber the bytes left. -/
def totalNeededPages (valueSize : Nat) : Nat :=
  let neededPagesRawValue := neededPages valueSize
  if neededPagesRawValue ≤ MAX_OVERFLOW_CELL_NODE_POINTERS then neededPagesRawValue
  else
    let bytesLeft := neededPagesRawValue * BODY_SIZE - valueSize
    let availablePageNumbers := bytesLeft / 4
    if neededPagesRawValue ≤ MAX_OVERFLOW_CELL_NODE_POINTERS + availablePageNumbers then
      neededPagesRawValue
    else
      let n := valueSize + (neededPagesRawValue - MAX_OVERFLOW_CELL_NODE_POINTERS) * 4 -
        neededPagesRawValue * BODY_SIZE
      let requiredAdditionalPages := (n + BODY_SIZE - 3) / (BODY_SIZE - 4)
      neededPagesRawValue + requiredAdditionalPages

/-! ### Cells and pages -/

/-- The four little-endian bytes of a page number. -/
def pageNumberBytes (pn : PageNumber) : List UInt8 := leBytes pn.toNat 4

/-- A page number read from four little-endian bytes. -/
def readPageNumber (bytes : List UInt8) : PageNumber := UInt32.ofNat (ofLeBytes bytes)

/-- `encode_cell`: the size as a `u64`, the hash, then the page numbers. -/
def encodeCell (valueSize : Nat) (valueHash : Vector UInt8 32) (pages : List PageNumber) :
    Option (List UInt8) :=
  if valueSize > MAX_OVERFLOW_VALUE_SIZE then none
  else some (leBytes valueSize 8 ++ valueHash.toList ++ pages.flatMap pageNumberBytes)

/-- `decode_cell`. Each piece of `chunks(4)` has four bytes, the cell's length being a multiple of
four. -/
def decodeCell (raw : List UInt8) : Option (Nat × Vector UInt8 32 × List PageNumber) :=
  -- the minimum legal size is the length plus one page pointer plus the value hash
  if h : raw.length < 8 + 4 + 32 then none
  else if raw.length % 4 ≠ 0 then none
  else
    let valueSize := ofLeBytes (raw.take 8)
    if valueSize > MAX_OVERFLOW_VALUE_SIZE then none
    else
      some (valueSize, ⟨((raw.take 40).drop 8).toArray, by simp; omega⟩,
        (chunks4 (raw.drop 40)).map readPageNumber)

/-- `parse_page`: the page numbers and the value bytes a page holds. -/
def parsePage (page : List UInt8) : Option (List PageNumber × List UInt8) := do
  let nPages := ofLeBytes (← RustSlice.range page 0 2)
  let nBytes := ofLeBytes (← RustSlice.range page 2 4)
  let pointers ← RustSlice.rangeTo (← RustSlice.rangeFrom page HEADER_SIZE) (nPages * 4)
  let bytes ← RustSlice.rangeTo (← RustSlice.rangeFrom page (HEADER_SIZE + nPages * 4)) nBytes
  some ((chunks4 pointers).map readPageNumber, bytes)

theorem readPageNumber_pageNumberBytes (pn : PageNumber) : readPageNumber (pageNumberBytes pn) = pn := by
  rw [readPageNumber, pageNumberBytes, ofLeBytes_leBytes, Nat.mod_eq_of_lt (by simpa using pn.toNat_lt)]
  exact UInt32.ofNat_toNat

@[simp] theorem length_pageNumberBytes (pn : PageNumber) : (pageNumberBytes pn).length = 4 :=
  length_leBytes 4

/-- `decode_cell` reads back what `encode_cell` wrote, for a cell with at least one page. -/
theorem decodeCell_encodeCell {valueSize : Nat} {valueHash : Vector UInt8 32}
    {pages : List PageNumber} (hsize : valueSize ≤ MAX_OVERFLOW_VALUE_SIZE) (hpages : pages ≠ []) :
    (encodeCell valueSize valueHash pages).bind decodeCell = some (valueSize, valueHash, pages) := by
  have hflat : (pages.flatMap pageNumberBytes).length = 4 * pages.length := by
    rw [List.length_flatMap]
    simp [Nat.mul_comm]
  have hlen : (leBytes valueSize 8 ++ valueHash.toList ++ pages.flatMap pageNumberBytes).length =
      40 + 4 * pages.length := by
    simp only [List.length_append, length_leBytes, Vector.length_toList, hflat]
  have hpos : 0 < pages.length := List.length_pos_of_ne_nil hpages
  have hsize8 : valueSize < 256 ^ 8 := Nat.lt_of_le_of_lt hsize (by decide)
  have htake8 : (leBytes valueSize 8 ++ valueHash.toList ++ pages.flatMap pageNumberBytes).take 8 =
      leBytes valueSize 8 := by
    rw [List.append_assoc, List.take_left' (length_leBytes 8)]
  have hhash : ((leBytes valueSize 8 ++ valueHash.toList ++ pages.flatMap pageNumberBytes).take 40).drop 8 =
      valueHash.toList := by
    rw [List.take_left' (by simp), List.drop_left' (length_leBytes 8)]
  have hdrop : (leBytes valueSize 8 ++ valueHash.toList ++ pages.flatMap pageNumberBytes).drop 40 =
      pages.flatMap pageNumberBytes := List.drop_left' (by simp)
  rw [encodeCell, if_neg (Nat.not_lt.mpr hsize), Option.bind_some, decodeCell,
    dif_neg (by omega), if_neg (by omega)]
  simp only [htake8, ofLeBytes_leBytes, Nat.mod_eq_of_lt hsize8, if_neg (Nat.not_lt.mpr hsize),
    hdrop, chunks4_flatMap pageNumberBytes length_pageNumberBytes, List.map_map]
  rw [Option.some.injEq, Prod.mk.injEq, Prod.mk.injEq]
  refine ⟨rfl, ?_, ?_⟩
  · apply Vector.toArray_inj.mp
    simp only [hhash]
    rfl
  · conv_rhs => rw [← List.map_id pages]
    exact List.map_congr_left fun pn _ => readPageNumber_pageNumberBytes pn

/-! ### Writing -/

/-- One page of `chunk`: as many of the page numbers still to write as fit, then as many value
bytes as fit, over the page the pool handed out. Returns the page and what is left to write. -/
def chunkPage (blank : List UInt8) (toWrite : List PageNumber) (value : List UInt8) :
    List UInt8 × List PageNumber × List UInt8 :=
  let pns := toWrite.take MAX_PNS
  let bytes := min (BODY_SIZE - pns.length * 4) value.length
  (leBytes pns.length 2 ++ leBytes bytes 2 ++ pns.flatMap pageNumberBytes ++ value.take bytes ++
      blank.drop (HEADER_SIZE + pns.length * 4 + bytes),
    toWrite.drop MAX_PNS, value.drop bytes)

/-- The loop of `chunk` over the pages to write. -/
def chunkPages (blank : List UInt8) :
    List PageNumber → List PageNumber → List UInt8 → Option (List (PageNumber × List UInt8))
  | [], _, value => if value.isEmpty then some [] else none
  | pn :: allPages, toWrite, value =>
    if value.isEmpty then none
    else
      let (page, toWrite, value) := chunkPage blank toWrite value
      ((pn, page) :: ·) <$> chunkPages blank allPages toWrite value

/-- `chunk`, the allocator handing out `fresh 0, fresh 1, …` and the page pool `blank`: the cell's
page numbers, the number of pages, and the pages written. -/
def chunk (value : List UInt8) (fresh : Nat → PageNumber) (blank : List UInt8) :
    Option (List PageNumber × Nat × List (PageNumber × List UInt8)) :=
  if value.isEmpty then none
  else
    let totalPages := totalNeededPages value.length
    let cellPages := min totalPages MAX_OVERFLOW_CELL_NODE_POINTERS
    let cell := (List.range cellPages).map fresh
    let otherPages := ((List.range totalPages).drop cellPages).map fresh
    (fun writes => (cell, totalPages, writes)) <$> chunkPages blank (cell ++ otherPages) otherPages value

/-! ### Reading -/

/-- The loop of `read_blocking` from page `i`, with `k` pages to go. -/
def readPages (query : PageNumber → List UInt8) :
    Nat → Nat → List PageNumber → List UInt8 → Option (List PageNumber × List UInt8)
  | 0, _, pageNumbers, value => some (pageNumbers, value)
  | k + 1, i, pageNumbers, value => do
    -- `page_numbers[i]` panics past the end
    let pn ← pageNumbers[i]?
    let (pagePns, bytes) ← parsePage (query pn)
    readPages query k (i + 1) (pageNumbers ++ pagePns) (value ++ bytes)

/-- `read_blocking`, the store returning `query pn` for page `pn`. -/
def readBlocking (cell : List UInt8) (query : PageNumber → List UInt8) : Option (List UInt8) := do
  let (valueSize, _, cellPages) ← decodeCell cell
  let totalPages := totalNeededPages valueSize
  let (pageNumbers, value) ← readPages query totalPages 0 cellPages []
  if pageNumbers.length ≠ totalPages then none
  else if value.length ≠ valueSize then none
  else some value

/-- The loop of `delete` from page `i`, with `k` pages to go: it stops after the first page that
holds value bytes. -/
def deletePages (query : PageNumber → List UInt8) :
    Nat → Nat → List PageNumber → Option (List PageNumber)
  | 0, _, freed => some freed
  | k + 1, i, freed => do
    let pn ← freed[i]?
    let (pagePns, bytes) ← parsePage (query pn)
    if bytes.length > 0 then some (freed ++ pagePns)
    else deletePages query k (i + 1) (freed ++ pagePns)

/-- `delete`: the pages of the value pushed onto `freed`. -/
def delete (cell : List UInt8) (query : PageNumber → List UInt8) (freed : List PageNumber) :
    Option (List PageNumber) := do
  let (valueSize, _, cellPages) ← decodeCell cell
  let totalPages := totalNeededPages valueSize
  let start := freed.length
  let freed ← deletePages query totalPages start (freed ++ cellPages)
  if freed.length - start ≠ totalPages then none else some freed

/-! ### The asynchronous reader -/

/-- `AsyncReader`: the known pages with the contents completed so far, the next page to request
and the next to parse. -/
structure AsyncReader where
  value : List UInt8
  pages : List (PageNumber × Option (List UInt8))
  requestIndex : Nat
  processIndex : Nat
  valueSize : Nat
  totalPages : Nat

namespace AsyncReader

/-- `AsyncReader::new`: the pages of the cell are known. -/
def new (cell : List UInt8) : Option AsyncReader := do
  let (valueSize, _, cellPages) ← decodeCell cell
  some ⟨[], cellPages.map (·, none), 0, 0, valueSize, totalNeededPages valueSize⟩

/-- `AsyncReader::submit`: the index and page number of the request submitted, if any. -/
def submit (r : AsyncReader) : Option (Option (Nat × PageNumber) × AsyncReader) :=
  if r.requestIndex = r.totalPages then some (none, r)
  else do
    -- `self.pages[page_index]` panics past the end
    let (nextPage, _) ← r.pages[r.requestIndex]?
    some (some (r.requestIndex, nextPage), { r with requestIndex := r.requestIndex + 1 })

/-- `AsyncReader::continue_parse`: parse the completed pages in order. -/
def continueParse (r : AsyncReader) : Option AsyncReader :=
  if r.processIndex < r.totalPages then
    match r.pages[r.processIndex]? with
    | none => none
    | some (_, none) => some r
    | some (pn, some page) => do
      let (pagePns, bytes) ← parsePage page
      -- `take()` leaves the slot empty
      continueParse { r with
        pages := r.pages.set r.processIndex (pn, none) ++ pagePns.map (·, none)
        value := r.value ++ bytes
        processIndex := r.processIndex + 1 }
  else some r
termination_by r.totalPages - r.processIndex

/-- `AsyncReader::complete`: the value once the last page is parsed. -/
def complete (r : AsyncReader) (index : Nat) (page : List UInt8) :
    Option (Option (List UInt8) × AsyncReader) := do
  -- `self.pages[index]` panics past the end
  let (pn, _) ← r.pages[index]?
  let r := { r with pages := r.pages.set index (pn, some page) }
  let r ← if index = r.processIndex then r.continueParse else some r
  if r.processIndex = r.totalPages then
    if r.pages.length ≠ r.totalPages then none
    else if r.value.length ≠ r.valueSize then none
    else some (some r.value, { r with value := [] })
  else some (none, r)

end AsyncReader

/-- `TARGET_OVERFLOW_REQUESTS` of the reverse-delta worker. -/
def TARGET_OVERFLOW_REQUESTS : Nat := 128

/-- The burst size of `ReverseDeltaWorker::resubmit_overflow`: at least one, and up to the target
less the requests in flight (`saturating_sub`). -/
def submitCount (nonDormantCount : Nat) : Nat := max 1 (TARGET_OVERFLOW_REQUESTS - nonDormantCount)

/-- The submit loop of `ReverseDeltaWorker::resubmit_overflow`: up to `count` submits, stopping at
the first that submits nothing. Returns the indices submitted. -/
def submitLoop (r : AsyncReader) : Nat → Option (List Nat × AsyncReader)
  | 0 => some ([], r)
  | count + 1 => do
    let (request, r) ← r.submit
    match request with
    | none => some ([], r)
    | some (i, _) => do
      let (indices, r) ← submitLoop r count
      some (i :: indices, r)

namespace AsyncReader

variable {r : AsyncReader}

/-- A submit before the last page, of a page already known, requests it. -/
theorem submit_of_lt (hne : r.requestIndex ≠ r.totalPages) (hlt : r.requestIndex < r.pages.length) :
    r.submit = some (some (r.requestIndex, r.pages[r.requestIndex].1),
      { r with requestIndex := r.requestIndex + 1 }) := by
  rw [submit, if_neg hne, List.getElem?_eq_getElem hlt]
  rfl

/-- A submit before the last page, of a page not yet known, panics. -/
theorem submit_eq_none (hne : r.requestIndex ≠ r.totalPages) (hle : r.pages.length ≤ r.requestIndex) :
    r.submit = none := by
  rw [submit, if_neg hne, List.getElem?_eq_none hle]
  rfl

end AsyncReader

/-- A burst of submits that reaches past the known pages, before the last page, panics. -/
theorem submitLoop_eq_none_of_lt :
    ∀ {count : Nat} {r : AsyncReader}, r.requestIndex ≤ r.pages.length →
      r.pages.length < r.totalPages → r.pages.length - r.requestIndex < count →
      submitLoop r count = none
  | 0, _, _, _, hcount => absurd hcount (Nat.not_lt_zero _)
  | count + 1, r, hle, htotal, hcount => by
    rcases Nat.lt_or_ge r.requestIndex r.pages.length with hlt | hge
    · -- the request is served, and the rest of the burst still reaches past the known pages
      rw [submitLoop, AsyncReader.submit_of_lt (by omega) hlt]
      simp only [Option.bind_eq_bind, Option.bind_some]
      rw [submitLoop_eq_none_of_lt (r := { r with requestIndex := r.requestIndex + 1 })
        (by simp only; omega) htotal (by simp only; omega), Option.bind_none]
    · rw [submitLoop, AsyncReader.submit_eq_none (by omega) hge]
      rfl

/-- Right after `AsyncReader::new`, a burst longer than the cell's list of pages panics when the
value needs more pages than the cell lists. -/
theorem new_submitLoop_eq_none {cell : List UInt8} {valueSize : Nat} {valueHash : Vector UInt8 32}
    {cellPages : List PageNumber} (hcell : decodeCell cell = some (valueSize, valueHash, cellPages))
    (hmore : cellPages.length < totalNeededPages valueSize) {count : Nat}
    (hcount : cellPages.length < count) :
    (AsyncReader.new cell).bind (submitLoop · count) = none := by
  rw [AsyncReader.new, hcell]
  exact submitLoop_eq_none_of_lt (by simp) (by simpa using hmore) (by simpa using hcount)

/-- A value of `15 * BODY_SIZE + 1` bytes needs 16 pages, one more than its cell lists: the burst
of 128 submits that `resubmit_overflow` makes when no other request is in flight panics at the
16th submit. -/
theorem resubmit_overflow_panics (valueHash : Vector UInt8 32) :
    ((encodeCell 61381 valueHash ((List.range 15).map Nat.toUInt32)).bind AsyncReader.new).bind
      (submitLoop · (submitCount 0)) = none := by
  have hcell := @decodeCell_encodeCell 61381 valueHash ((List.range 15).map Nat.toUInt32)
    (by decide) (by simp)
  obtain ⟨cell, hencode, hdecode⟩ := Option.bind_eq_some_iff.mp hcell
  rw [hencode, Option.bind_some]
  exact new_submitLoop_eq_none hdecode (by simp; decide) (by simp; decide)

end Nomt.Overflow

import Nomt.Beatree.FreeList
import Nomt.Lib.PageChain

/-!
# The free list in its store file (`FreeList::read`, `SyncFinisher::finish`)

`commit` writes each portion it rewrites to its page with the page number of the portion below
it (`encode_free_list_page`), and the store's metadata keeps the page number of the head. When the
store is opened, `FreeList::read` walks the chain of pages from the head down, decoding each page
and checking every page number it holds against the length of the file.

A free-list page decodes to what was encoded into it (`decodeFreeListPage_encodeFreeListPage`).
The loop of `read` is a `PageChain.walk` (`readLoop_eq_walk`), so over a file that keeps the
portions as a chain of pages (`Stored`), `read` gives back exactly those portions
(`eq_ofPortions_of_read`), and does so with enough fuel when every page lies within the file
(`read_eq_some`).
-/

namespace Nomt.Allocator

open Overflow (PAGE_SIZE PageNumber pageNumberBytes readPageNumber readPageNumber_pageNumberBytes
  length_pageNumberBytes)
open ByteOrder PageChain

/-! ### Free-list pages -/

section Pages

/-- The middle of three lists is the slice between the ends of the first two. -/
theorem range_append_middle {α : Type} (pre mid post : List α) {i j : Nat} (hi : i = pre.length)
    (hj : j = pre.length + mid.length) : RustSlice.range (pre ++ mid ++ post) i j = some mid := by
  subst hi hj
  rw [RustSlice.range_of_le (Nat.le_add_right _ _) (by simp), List.take_left' (by simp),
    List.drop_left' rfl]

/-- A `mapM` over the indices of `l` that reads `l` is a `mapM` over `l`. -/
theorem mapM_range_length {β γ : Type} {g : Nat → Option γ} {h : β → Option γ} {l : List β}
    (hg : ∀ i (hi : i < l.length), g i = h l[i]) : (List.range l.length).mapM g = l.mapM h := by
  induction l using List.reverseRecOn with
  | nil => rfl
  | append_singleton l x ih =>
    have hlast : g l.length = h x := by
      rw [hg l.length (by simp), List.getElem_concat_length rfl]
    rw [List.length_append, List.length_singleton, List.range_succ, List.mapM_append,
      List.mapM_append, ih fun i hi => by rw [hg i (by simp; omega), List.getElem_append_left hi]]
    simp only [List.mapM_cons, List.mapM_nil, hlast]

/-- The check `decode_free_list_page` makes of each page number. -/
def belowMaxPn (maxPn pn : PageNumber) : Option PageNumber :=
  if pn < maxPn then some pn else none

theorem mapM_belowMaxPn_of_lt {maxPn : PageNumber} {pns : List PageNumber}
    (h : ∀ pn ∈ pns, pn < maxPn) : pns.mapM (belowMaxPn maxPn) = some pns := by
  induction pns with
  | nil => rfl
  | cons pn pns ih =>
    rw [List.mapM_cons, belowMaxPn, if_pos (h pn (List.mem_cons_self ..)),
      ih fun q hq => h q (List.mem_cons_of_mem _ hq)]
    rfl

theorem eq_of_mapM_belowMaxPn {maxPn : PageNumber} {pns pns' : List PageNumber}
    (h : pns.mapM (belowMaxPn maxPn) = some pns') : pns' = pns := by
  induction pns generalizing pns' with
  | nil =>
    cases h
    rfl
  | cons pn pns ih =>
    simp only [List.mapM_cons, bind, Option.bind_eq_some_iff, pure, Option.some.injEq] at h
    obtain ⟨a, ha, rest, hrest, rfl⟩ := h
    unfold belowMaxPn at ha
    split_ifs at ha
    cases ha
    rw [ih hrest]

variable {blank : List UInt8} {prev : PageNumber} {pns : List PageNumber}

theorem length_flatMap_pageNumberBytes (pns : List PageNumber) :
    (pns.flatMap pageNumberBytes).length = pns.length * 4 := by
  simp [List.length_flatMap]

theorem length_encodeFreeListPage (hblank : blank.length = PAGE_SIZE)
    (hpns : pns.length ≤ MAX_PNS_PER_PAGE) :
    (encodeFreeListPage blank prev pns).length = PAGE_SIZE := by
  simp only [encodeFreeListPage, List.length_append, List.length_drop, length_pageNumberBytes,
    length_leBytes, length_flatMap_pageNumberBytes, hblank]
  rw [FreeList.maxPns_eq] at hpns
  unfold PAGE_SIZE
  omega

/-- A free-list page decodes to the previous page number and the page numbers encoded into it,
each checked against `max_pn`. -/
theorem decodeFreeListPage_encodeFreeListPage (hblank : blank.length = PAGE_SIZE)
    (hpns : pns.length ≤ MAX_PNS_PER_PAGE) (maxPn : PageNumber) :
    decodeFreeListPage (encodeFreeListPage blank prev pns) maxPn =
      (pns.mapM (belowMaxPn maxPn)).map (prev, ·) := by
  have hlen : (encodeFreeListPage blank prev pns).length = PAGE_SIZE :=
    length_encodeFreeListPage hblank hpns
  have hmax := hpns
  rw [FreeList.maxPns_eq] at hmax
  -- the page is the header, the page numbers, then the rest of the pool's page
  obtain ⟨tail, htail⟩ : ∃ tail, encodeFreeListPage blank prev pns =
      pageNumberBytes prev ++ leBytes pns.length 2 ++ pns.flatMap pageNumberBytes ++ tail :=
    ⟨_, rfl⟩
  have hprev : RustSlice.range (encodeFreeListPage blank prev pns) 0 4 =
      some (pageNumberBytes prev) := by
    rw [htail]
    simpa only [List.nil_append, List.append_assoc] using range_append_middle (i := 0) []
      (pageNumberBytes prev) (leBytes pns.length 2 ++ pns.flatMap pageNumberBytes ++ tail) rfl
      (by simp)
  have hcount : RustSlice.range (encodeFreeListPage blank prev pns) 4 6 =
      some (leBytes pns.length 2) := by
    rw [htail]
    simpa only [List.append_assoc] using range_append_middle (pageNumberBytes prev)
      (leBytes pns.length 2) (pns.flatMap pageNumberBytes ++ tail) (by simp) (by simp)
  have hitem : ∀ i (hi : i < pns.length),
      RustSlice.range (encodeFreeListPage blank prev pns) (6 + i * 4) (6 + i * 4 + 4) =
        some (pageNumberBytes pns[i]) := by
    intro i hi
    -- the `i`-th page number sits after the header and the `i` before it
    have hsplit : pns.flatMap pageNumberBytes = (pns.take i).flatMap pageNumberBytes ++
        pageNumberBytes pns[i] ++ (pns.drop (i + 1)).flatMap pageNumberBytes := by
      conv_lhs => rw [← List.take_append_drop i pns, ← List.getElem_cons_drop hi]
      rw [List.flatMap_append, List.flatMap_cons, List.append_assoc]
    have hpre : (pageNumberBytes prev ++ leBytes pns.length 2 ++
        (pns.take i).flatMap pageNumberBytes).length = 6 + i * 4 := by
      simp [List.length_flatMap, Nat.min_eq_left hi.le]
      omega
    rw [htail, hsplit]
    simpa only [List.append_assoc] using range_append_middle
      (pageNumberBytes prev ++ leBytes pns.length 2 ++ (pns.take i).flatMap pageNumberBytes)
      (pageNumberBytes pns[i]) ((pns.drop (i + 1)).flatMap pageNumberBytes ++ tail) hpre.symm
      (by rw [hpre, length_pageNumberBytes])
  have hcount' : ofLeBytes (leBytes pns.length 2) = pns.length := by
    rw [ofLeBytes_leBytes, Nat.mod_eq_of_lt (by omega)]
  simp only [decodeFreeListPage, hprev, hcount, Option.bind_eq_bind, Option.bind_some, hcount']
  rw [mapM_range_length (h := belowMaxPn maxPn) fun i hi => by
    rw [hitem i hi, Option.bind_some, readPageNumber_pageNumberBytes]
    rfl]
  rw [readPageNumber_pageNumberBytes]
  cases pns.mapM (belowMaxPn maxPn) <;> rfl

end Pages

/-! ### Reading the free list back -/

/-- The store file as `FreeList::read` sees it: its length in bytes, and the page at each page
number. -/
structure StoreFile where
  len : Nat
  pages : PageNumber → List UInt8

/-- `io::read_page`: `read_exact_at` fails on a page past the end of the file. -/
def readPage (file : StoreFile) (pn : PageNumber) : Option (List UInt8) :=
  if (pn.toNat + 1) * PAGE_SIZE ≤ file.len then some (file.pages pn) else none

/-- The page at `pn`, read and decoded. -/
def loadPortion (file : StoreFile) (maxPn pn : PageNumber) : Option (PageNumber × List PageNumber) :=
  (readPage file pn).bind fun page => decodeFreeListPage page maxPn

/-- The page holds the portion `node.2` over the page `node.1` below it, as
`encode_free_list_page` wrote it over a page of the pool. -/
def HoldsPortion (page : List UInt8) (node : PageNumber × List PageNumber) : Prop :=
  ∃ blank : List UInt8, blank.length = PAGE_SIZE ∧ page = encodeFreeListPage blank node.1 node.2

/-- The file keeps the portions `P`, head last, as a chain of pages from `FREELIST_EMPTY`. -/
def Stored (file : StoreFile) (P : List (PageNumber × List PageNumber)) : Prop :=
  Holds file.pages HoldsPortion FREELIST_EMPTY P

namespace FreeList

/-- The loop of `FreeList::read`, with fuel for as many pages: from the head down, each page is
read and decoded and its portion pushed, until the nil page number. `none` is an error, a panic,
or the fuel run out (the source's loop has no bound). -/
def readLoop (file : StoreFile) (maxPn : PageNumber) :
    Nat → PageNumber → List (PageNumber × List PageNumber) →
      Option (List (PageNumber × List PageNumber))
  | 0, _, _ => none
  | fuel + 1, freeListPn, freeListPortions =>
    if freeListPn = FREELIST_EMPTY then some freeListPortions
    else do
      let page ← readPage file freeListPn
      let (prev, freeList) ← decodeFreeListPage page maxPn
      readLoop file maxPn fuel prev (freeListPortions ++ [(freeListPn, freeList)])

/-- `FreeList::read`, its loop given fuel. -/
def read (file : StoreFile) (fuel : Nat) (freeListHead : Option PageNumber) : Option FreeList :=
  match freeListHead with
  | none => some ⟨[], false, 0, false, []⟩
  | some freeListPn => do
    -- restore the free list from the file
    let maxPn : PageNumber := UInt32.ofNat (file.len / PAGE_SIZE)
    let freeListPortions ← readLoop file maxPn fuel freeListPn []
    let freeListPortions := freeListPortions.reverse
    let (len, fragmented) := lenAndFragmented freeListPortions
    pure ⟨freeListPortions, false, len, fragmented, []⟩

/-- The loop of `read` walks the chain of pages. -/
theorem readLoop_eq_walk (file : StoreFile) (maxPn : PageNumber) :
    ∀ fuel pn acc, readLoop file maxPn fuel pn acc =
      walk (loadPortion file maxPn) FREELIST_EMPTY fuel pn acc
  | 0, _, _ => rfl
  | fuel + 1, pn, acc => by
    rw [readLoop, walk]
    split_ifs
    · rfl
    · simp only [loadPortion, bind, Option.bind_assoc]
      congr 1
      funext page
      cases decodeFreeListPage page maxPn with
      | none => rfl
      | some node => exact readLoop_eq_walk file maxPn fuel node.1 _

theorem read_none (file : StoreFile) (fuel : Nat) : read file fuel none = some (ofPortions []) :=
  rfl

theorem read_some (file : StoreFile) (fuel : Nat) (pn : PageNumber) :
    read file fuel (some pn) =
      (readLoop file (UInt32.ofNat (file.len / PAGE_SIZE)) fuel pn []).map
        fun P => ofPortions P.reverse := by
  simp only [read, bind, pure]
  cases readLoop file (UInt32.ofNat (file.len / PAGE_SIZE)) fuel pn [] <;> rfl

section Load

variable {file : StoreFile} {P : List (PageNumber × List PageNumber)} (hstored : Stored file P)
  (hbounded : ∀ p ∈ P, p.2.length ≤ MAX_PNS_PER_PAGE)
include hstored hbounded

/-- A page of the chain, within the file, loads its entry when its page numbers pass the check. -/
theorem loadPortion_of_stored {maxPn : PageNumber} {e : PageNumber × PageNumber × List PageNumber}
    (he : e ∈ chain FREELIST_EMPTY P) (hin : (e.1.toNat + 1) * PAGE_SIZE ≤ file.len)
    (hlt : ∀ pn ∈ e.2.2, pn < maxPn) : loadPortion file maxPn e.1 = some e.2 := by
  obtain ⟨blank, hblank, hpage⟩ := hstored e he
  rw [loadPortion, readPage, if_pos hin, Option.bind_some, hpage,
    decodeFreeListPage_encodeFreeListPage hblank (hbounded _ (mem_of_mem_chain he)),
    mapM_belowMaxPn_of_lt hlt]
  rfl

/-- Wherever a page of the chain loads, it loads its entry. -/
theorem eq_of_loadPortion {maxPn : PageNumber} {e : PageNumber × PageNumber × List PageNumber}
    (he : e ∈ chain FREELIST_EMPTY P) {node : PageNumber × List PageNumber}
    (h : loadPortion file maxPn e.1 = some node) : node = e.2 := by
  obtain ⟨blank, hblank, hpage⟩ := hstored e he
  obtain ⟨page, hread, hdecode⟩ := Option.bind_eq_some_iff.mp h
  rw [readPage] at hread
  split_ifs at hread
  cases hread
  rw [hpage, decodeFreeListPage_encodeFreeListPage hblank (hbounded _ (mem_of_mem_chain he))]
    at hdecode
  obtain ⟨pns', hpns', rfl⟩ := Option.map_eq_some_iff.mp hdecode
  rw [eq_of_mapM_belowMaxPn hpns']

/-- Whatever `read` gives from the head of a chain the file keeps is the free list of its
portions. -/
theorem eq_ofPortions_of_read (hpn : ∀ p ∈ P, p.1 ≠ FREELIST_EMPTY) {fuel : Nat} {fl : FreeList}
    (h : read file fuel (P.getLast?.map Prod.fst) = some fl) : fl = ofPortions P := by
  rcases hlast : P.getLast? with _ | x
  · rw [List.getLast?_eq_none_iff.mp hlast]
    rw [hlast] at h
    cases h
    rfl
  rw [hlast, Option.map_some, read_some, readLoop_eq_walk] at h
  obtain ⟨P', hwalk, rfl⟩ := Option.map_eq_some_iff.mp h
  have hx : x.1 = lastAddr FREELIST_EMPTY P := by rw [lastAddr, hlast]; rfl
  rw [hx] at hwalk
  rw [eq_of_walk_eq_some (fun e he node hnode => eq_of_loadPortion hstored hbounded he hnode) hpn
    hwalk, List.nil_append, List.reverse_reverse]

/-- `read` from the head of a chain the file keeps gives back the free list of its portions, with
fuel for its pages, when every page and every page number it holds lies within the file. -/
theorem read_eq_some
    (hpn : ∀ p ∈ P, p.1 ≠ FREELIST_EMPTY ∧ (p.1.toNat + 1) * PAGE_SIZE ≤ file.len)
    (hitems : ∀ p ∈ P, ∀ pn ∈ p.2, pn.toNat < file.len / PAGE_SIZE)
    (hfile : file.len / PAGE_SIZE < 2 ^ 32) {fuel : Nat} (hfuel : P.length < fuel) :
    read file fuel (P.getLast?.map Prod.fst) = some (ofPortions P) := by
  rcases hlast : P.getLast? with _ | x
  · rw [List.getLast?_eq_none_iff.mp hlast]
    rfl
  have hx : x.1 = lastAddr FREELIST_EMPTY P := by rw [lastAddr, hlast]; rfl
  -- every page number the chain holds passes the check against `max_pn`
  have hload : ∀ e ∈ chain FREELIST_EMPTY P,
      loadPortion file (UInt32.ofNat (file.len / PAGE_SIZE)) e.1 = some e.2 := by
    intro e he
    have hmem := mem_of_mem_chain he
    refine loadPortion_of_stored hstored hbounded he (hpn _ hmem).2 fun pn hpn' => ?_
    rw [UInt32.lt_iff_toNat_lt, UInt32.toNat_ofNat', Nat.mod_eq_of_lt hfile]
    exact hitems _ hmem pn hpn'
  rw [Option.map_some, read_some, readLoop_eq_walk, hx,
    walk_chain hload (fun p hp => (hpn p hp).1) hfuel, List.nil_append, Option.map_some,
    List.reverse_reverse]

end Load

end FreeList

end Nomt.Allocator

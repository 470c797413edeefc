import Nomt.Beatree.Overflow
import Mathlib.Data.List.Induction

/-!
# The free list of the beatree allocator (`nomt/src/beatree/allocator/free_list.rs`)

The free list is a stack of page numbers kept in pages ("portions"), the head portion last. A
page holds at most `MAX_PNS_PER_PAGE = 1022` page numbers. `pop` takes the last page number of
the head and releases the head page when it empties. `commit` applies the pops since the last
commit and pushes the freed pages copy-on-write: `preallocate` pops the pages the rewritten
portions will be written to, and `push_and_encode` pushes and encodes the pages. A panic (an
`unwrap`, a failed `assert!`, an index out of range or an integer underflow) is `none`.

Each portion is written to its page (`encode_free_list_page`) with the page number of the portion
below it, so the pages form a chain from the head down, which `FreeList::read` walks
(`Nomt.Beatree.FreeListStore`).

Every portion below the head is full, but for one form `commit` may leave: a head holding one
page number above a portion holding one fewer than a full page (`Shape`). `discard` and
`commit` keep that shape (`Shape.discardLoop`, `Clean.sync`). On a clean free list of that shape,
`get_nth_pop` indexes the stack from the top without popping (`getNthPop_eq`), and so returns
what the `n + 1`-th of repeated `pop`s would return (`nthPop_eq`).
-/

/-! ### Stacks kept in pages

A stack kept as a list of pages, the bottom page first and each page's items bottom first, is
the flattening of its pages; popping it takes the last item of the last page. When every page
holds `M` items, the `m`-th item from the top lies in the page `m / M` from the top, at `m % M`
from that page's top (`getElem?_reverse_flatten`). -/

namespace PagedStack

variable {α : Type}

/-- Indexing a stack of full pages from the top. -/
theorem getElem?_reverse_flatten {M : Nat} {pages : List (List α)}
    (hfull : ∀ page ∈ pages, page.length = M) {m : Nat} (hm : m < pages.length * M) :
    pages.flatten.reverse[m]? =
      pages[pages.length - 1 - m / M]?.bind fun page => page[M - 1 - m % M]? := by
  induction pages using List.reverseRecOn generalizing m with
  | nil => simp at hm
  | append_singleton pages top ih =>
    have htop : top.length = M := hfull top (by simp)
    rw [List.length_append, List.length_singleton, Nat.add_mul, Nat.one_mul] at hm
    rw [List.flatten_append, List.flatten_singleton, List.reverse_append, List.length_append,
      List.length_singleton]
    by_cases hlt : m < M
    · -- the top page
      rw [List.getElem?_append_left (by rw [List.length_reverse, htop]; exact hlt),
        List.getElem?_reverse (by rw [htop]; exact hlt), Nat.div_eq_of_lt hlt,
        Nat.mod_eq_of_lt hlt, htop, Nat.add_sub_cancel, Nat.sub_zero,
        List.getElem?_append_right (Nat.le_refl _), Nat.sub_self]
      rfl
    · -- a page below it: `m = M + m'`, one page further down
      obtain ⟨m', rfl⟩ := Nat.exists_eq_add_of_le (Nat.le_of_not_lt hlt)
      have hpages : 0 < pages.length :=
        Nat.pos_of_ne_zero fun h0 => by rw [h0, Nat.zero_mul] at hm; omega
      have hpos : 0 < M := Nat.pos_of_ne_zero fun h0 => by rw [h0, Nat.mul_zero] at hm; omega
      have hidx : pages.length - 1 - m' / M < pages.length := by
        generalize m' / M = q
        omega
      rw [List.getElem?_append_right (by rw [List.length_reverse, htop]; exact Nat.le_add_right _ _),
        List.length_reverse, htop, Nat.add_sub_cancel_left,
        ih (m := m') (fun page hp => hfull page (List.mem_append_left _ hp)) (by omega),
        Nat.add_div_left _ hpos, Nat.add_mod_left,
        show pages.length + 1 - 1 - (m' / M + 1) = pages.length - 1 - m' / M by
          generalize m' / M = q
          omega,
        List.getElem?_append_left hidx]

end PagedStack

namespace Nomt.Allocator

open Overflow (PAGE_SIZE PageNumber)

/-- `MAX_PNS_PER_PAGE`: the page numbers a page holds after its 6-byte header. -/
def MAX_PNS_PER_PAGE : Nat := (PAGE_SIZE - 6) / 4

/-- `FREELIST_EMPTY`. -/
def FREELIST_EMPTY : PageNumber := 0

open ByteOrder
open Overflow (pageNumberBytes readPageNumber)

/-- `encode_free_list_page`, over a page from the pool: the previous portion's page number, the
count of page numbers as a `u16`, then the page numbers, little-endian. A portion fits its page:
`push` keeps at most `MAX_PNS_PER_PAGE` page numbers in it. -/
def encodeFreeListPage (blank : List UInt8) (prev : PageNumber) (pns : List PageNumber) :
    List UInt8 :=
  let bytes := pageNumberBytes prev ++ leBytes pns.length 2 ++ pns.flatMap pageNumberBytes
  bytes ++ blank.drop bytes.length

/-- `decode_free_list_page`: the previous page number and the page numbers of the page. `none` is
a panic: a page number read past the end of the page, or one not below `max_pn`, outside the
file (the `assert!`). -/
def decodeFreeListPage (page : List UInt8) (maxPn : PageNumber) :
    Option (PageNumber × List PageNumber) := do
  let prev := readPageNumber (← RustSlice.range page 0 4)
  let itemCount := ofLeBytes (← RustSlice.range page 4 6)
  let freeList ← (List.range itemCount).mapM fun i => do
    let start := 6 + i * 4
    let pn := readPageNumber (← RustSlice.range page start (start + 4))
    -- each page number falls within the file bounds
    if pn < maxPn then some pn else none
  pure (prev, freeList)

/-- `FreeList`. -/
structure FreeList where
  /-- The portions, the head last: the page each is stored in and the page numbers it holds. -/
  portions : List (PageNumber × List PageNumber)
  /-- `pop`: whether something was popped since the last commit. -/
  popped : Bool
  len : Nat
  fragmented : Bool
  releasedPortions : List PageNumber
  deriving DecidableEq

/-- `len_and_fragmented`. -/
def lenAndFragmented (portions : List (PageNumber × List PageNumber)) : Nat × Bool :=
  match portions.getLast?, portions.dropLast.getLast? with
  | none, _ => (0, false)
  | some (_, p), some (_, penultimate) =>
    -- account for fragmentation
    if p.length = 1 then
      ((portions.length - 2) * MAX_PNS_PER_PAGE + penultimate.length + 1,
        penultimate.length ≠ MAX_PNS_PER_PAGE)
    else ((portions.length - 1) * MAX_PNS_PER_PAGE + p.length, false)
  | some (_, p), none => ((portions.length - 1) * MAX_PNS_PER_PAGE + p.length, false)

namespace FreeList

/-- The free list `FreeList::read` makes of the portions it decoded, head last. -/
def ofPortions (portions : List (PageNumber × List PageNumber)) : FreeList :=
  ⟨portions, false, (lenAndFragmented portions).1, (lenAndFragmented portions).2, []⟩

/-- `FreeList::head_pn`. -/
def headPn (fl : FreeList) : Option PageNumber :=
  fl.portions.getLast?.map Prod.fst

/-- Replace the head portion. -/
def setHead (fl : FreeList) (head : PageNumber × List PageNumber) : FreeList :=
  { fl with portions := fl.portions.dropLast ++ [head] }

/-- `FreeList::pop`: `none` inside on an empty free list. -/
def pop (fl : FreeList) : Option (FreeList × Option PageNumber) :=
  match fl.portions.getLast? with
  | none => some (fl, none)
  | some (headPn, headPns) =>
    -- `head.1.pop().unwrap()`: portions are never empty
    match headPns.getLast? with
    | none => none
    | some pn =>
      if headPns.dropLast.isEmpty then
        let fl : FreeList := { fl with portions := fl.portions.dropLast, popped := true }
        some ({ fl with releasedPortions := fl.releasedPortions ++ [headPn] }, some pn)
      else
        let fl := fl.setHead (headPn, headPns.dropLast)
        some ({ fl with popped := true }, some pn)

-- the hypotheses named in the body are for `decreasing_by`
set_option linter.unusedVariables false in
/-- The loop of `FreeList::discard`, `discarded` page numbers discarded so far. Each round
either discards at least one page number or releases a portion. -/
def discardLoop (n discarded : Nat) (fl : FreeList) : Nat × FreeList :=
  if h : discarded < n then
    match hhead : fl.portions.getLast? with
    | none => (discarded, fl)
    | some (headPn, head) =>
      let toDiscard := min head.length (n - discarded)
      let head' := head.take (head.length - toDiscard)
      let fl' : FreeList := { fl with portions := fl.portions.dropLast, popped := true }
      if hkeep : head'.isEmpty = false then
        discardLoop n (discarded + toDiscard) { fl' with portions := fl'.portions ++ [(headPn, head')] }
      else
        discardLoop n (discarded + toDiscard)
          { fl' with releasedPortions := fl'.releasedPortions ++ [headPn] }
    else (n, fl)
termination_by (n - discarded) + fl.portions.length
decreasing_by
  · have hlen : 0 < head.length := by
      have := List.length_pos_iff.mpr (List.isEmpty_eq_false_iff.mp hkeep)
      rw [List.length_take] at this
      omega
    have hne : fl.portions ≠ [] := fun h' => by rw [h'] at hhead; cases hhead
    simp only [List.length_append, List.length_dropLast, List.length_singleton]
    have := List.length_pos_iff.mpr hne
    omega
  · have hne : fl.portions ≠ [] := fun h' => by rw [h'] at hhead; cases hhead
    simp only [List.length_dropLast]
    have := List.length_pos_iff.mpr hne
    omega

/-- `FreeList::discard`: the number of page numbers discarded, and the free list after it. -/
def discard (fl : FreeList) (n : Nat) : Nat × FreeList := discardLoop n 0 fl

-- the hypotheses named in the body are for `decreasing_by`
set_option linter.unusedVariables false in
/-- The `while` loop of `preallocate`. `i` is where the pushes reach the end of a page: the free
list's length plus `i` stays a multiple of `MAX_PNS_PER_PAGE`. Returns the free list, the page
numbers to push, the bump and the new pages. -/
def preallocateLoop (bump : PageNumber) (newPages : List PageNumber) (newFullPortion : Bool)
    (i : Nat) (fl : FreeList) (toPush : List PageNumber) :
    Option (FreeList × List PageNumber × PageNumber × List PageNumber) :=
  if h : i < toPush.length then
    match hfilter : fl.portions.getLast?.filter fun _ => newFullPortion with
    | some (headPn, headPns) =>
      -- just popped into a new portion: prepare it for rewrite
      match headPns.getLast? with
      | none => none
      | some newHeadPn =>
        preallocateLoop bump newPages false (i + 1) (fl.setHead (newHeadPn, headPns.dropLast))
          (toPush ++ [headPn])
    | none =>
      match fl.pop with
      | none => none
      | some (fl, some pn) =>
        match fl.releasedPortions.getLast? with
        | some released =>
          preallocateLoop bump (newPages ++ [pn, released]) true (i + 1 + MAX_PNS_PER_PAGE)
            { fl with releasedPortions := fl.releasedPortions.dropLast } toPush
        | none =>
          preallocateLoop bump (newPages ++ [pn]) newFullPortion (i + 1 + MAX_PNS_PER_PAGE) fl toPush
      | some (fl, none) =>
        preallocateLoop (bump + 1) (newPages ++ [bump]) newFullPortion (i + MAX_PNS_PER_PAGE) fl
          toPush
  else some (fl, toPush, bump, newPages)
termination_by 2 * (toPush.length - i) + (if newFullPortion then 1 else 0)
decreasing_by
  · -- the filter kept the head: `new_full_portion` was set
    have hfull : newFullPortion = true := (Option.filter_eq_some_iff.mp hfilter).2
    simp only [hfull, List.length_append, List.length_singleton, ↓reduceIte]
    omega
  all_goals simp only [MAX_PNS_PER_PAGE, PAGE_SIZE]
  all_goals split_ifs <;> omega

/-- `FreeList::preallocate`: the pops and bumps the pushes need, with the previous page number of
every rewritten portion scheduled for pushing. -/
def preallocate (fl : FreeList) (toPush : List PageNumber) (bump : PageNumber) :
    Option (FreeList × List PageNumber × PageNumber × List PageNumber) := do
  let (fl, popped) ← fl.pop
  match popped with
  | some pn =>
    -- check if this freed a page and handle that
    match fl.releasedPortions.getLast? with
    | some x =>
      let fl := { fl with releasedPortions := fl.releasedPortions.dropLast }
      match fl.portions.getLast? with
      | some (newHeadPn, newHeadPns) =>
        if newHeadPns.length = MAX_PNS_PER_PAGE - 1 then
          -- fix up fragmentation: rewrite the second-to-last portion into the popped page
          preallocateLoop bump [] false (MAX_PNS_PER_PAGE - newHeadPns.length)
            (fl.setHead (pn, newHeadPns)) (toPush ++ [newHeadPn, x])
        else preallocateLoop bump [pn] true MAX_PNS_PER_PAGE fl (toPush ++ [x])
      | none => preallocateLoop bump [pn] true MAX_PNS_PER_PAGE fl (toPush ++ [x])
    | none =>
      match fl.portions.getLast? with
      | none => none
      | some (headPn, headPns) =>
        -- the head is partially full: rewrite it into the popped page
        preallocateLoop bump [] false (MAX_PNS_PER_PAGE - headPns.length) (fl.setHead (pn, headPns))
          (toPush ++ [headPn])
  | none => preallocateLoop bump [] true 0 fl toPush

/-- `FreeList::push`: only into a head that is not full. -/
def push (fl : FreeList) (pn : PageNumber) : Option FreeList :=
  match fl.portions.getLast? with
  | none => none
  | some (headPn, head) =>
    if head.length < MAX_PNS_PER_PAGE then some (fl.setHead (headPn, head ++ [pn])) else none

/-- `FreeList::encode_head`: the head page, pointing at the portion below it. -/
def encodeHead (fl : FreeList) (blank : List UInt8) : Option (PageNumber × List UInt8) :=
  fl.portions.getLast?.map fun (headPn, headPns) =>
    let prevPn := (fl.portions.dropLast.getLast?.map Prod.fst).getD FREELIST_EMPTY
    (headPn, encodeFreeListPage blank prevPn headPns)

/-- The loop of `push_and_encode`: a new portion when the head is full, or for the last page
number when the head is one short of full and a new page is left (fragmentation). -/
def pushAndEncodeLoop (fl : FreeList) (blank : List UInt8) (newPages : List PageNumber) :
    List PageNumber → Option (FreeList × List PageNumber × List (PageNumber × List UInt8))
  | [] => some (fl, newPages, [])
  | pn :: rest => do
    let headFull := (fl.portions.getLast?.map fun h => h.2.length == MAX_PNS_PER_PAGE).getD true
    let fragmentation :=
      (fl.portions.getLast?.map fun h => h.2.length == MAX_PNS_PER_PAGE - 1).getD false &&
        !newPages.isEmpty && rest.isEmpty
    let (fl, newPages, encoded) ← if headFull || fragmentation then
        match newPages with
        | [] => none
        | newHeadPn :: newPages =>
          some ({ fl with portions := fl.portions ++ [(newHeadPn, [])] }, newPages,
            (fl.encodeHead blank).toList)
      else some (fl, newPages, [])
    let fl ← fl.push pn
    let (fl, newPages, encoded') ← pushAndEncodeLoop fl blank newPages rest
    pure (fl, newPages, encoded ++ encoded')

/-- `FreeList::push_and_encode`: every new page is used. -/
def pushAndEncode (fl : FreeList) (blank : List UInt8) (toPush newPages : List PageNumber) :
    Option (FreeList × List (PageNumber × List UInt8)) := do
  let (fl, newPages, encoded) ← pushAndEncodeLoop fl blank newPages toPush
  if newPages.isEmpty then pure (fl, encoded ++ (fl.encodeHead blank).toList) else none

/-- `FreeList::commit`, its pages encoded over `blank`: the free list, the pages to write and the
bump. -/
def commit (fl : FreeList) (blank : List UInt8) (toPush : List PageNumber) (bump : PageNumber) :
    Option (FreeList × List (PageNumber × List UInt8) × PageNumber) :=
  let hadPops := fl.popped
  let fl := { fl with popped := false }
  if !hadPops && toPush.isEmpty then some (fl, [], bump)
  else do
    -- append the released free-list pages
    let toPush := toPush ++ fl.releasedPortions
    let fl := { fl with releasedPortions := [] }
    let (fl, toPush, bump, newPages) ← fl.preallocate toPush bump
    let (fl, pages) ← fl.pushAndEncode blank toPush newPages
    let (len, fragmented) := lenAndFragmented fl.portions
    pure ({ fl with popped := false, len, fragmented }, pages, bump)

/-- `CleanFreeList::get_nth_pop`, with its index arithmetic as the source has it. -/
def getNthPop (fl : FreeList) (n : Nat) : Option PageNumber :=
  let portions := fl.portions
  let nPortions := portions.length
  if fl.fragmented then
    if n = 0 then
      -- `n_portions - 1` underflows on an empty list
      if nPortions < 1 then none else portions[nPortions - 1]? >>= fun p => p.2[0]?
    else if n < MAX_PNS_PER_PAGE then
      if nPortions < 2 then none
      else portions[nPortions - 2]? >>= fun p => p.2[MAX_PNS_PER_PAGE - n - 1]?
    else
      let portionOffset := 2 + n / MAX_PNS_PER_PAGE
      let n := n % MAX_PNS_PER_PAGE
      if nPortions < portionOffset then none
      else portions[nPortions - portionOffset]? >>= fun p => p.2[MAX_PNS_PER_PAGE - n - 1]?
  else
    if nPortions < 1 then none
    else do
      let head ← portions[nPortions - 1]?
      let headLen := head.2.length
      if n < headLen then head.2[headLen - n - 1]?
      else
        let n := n - headLen
        let portionOffset := 2 + n / MAX_PNS_PER_PAGE
        let n := n % MAX_PNS_PER_PAGE
        if nPortions < portionOffset then none
        else portions[nPortions - portionOffset]? >>= fun p => p.2[MAX_PNS_PER_PAGE - n - 1]?

/-- What the `n + 1`-th of repeated `pop`s returns. -/
def nthPop (fl : FreeList) : Nat → Option (Option PageNumber)
  | 0 => fl.pop.map Prod.snd
  | n + 1 => fl.pop >>= fun (fl, _) => nthPop fl n

/-! ### The stack and the shape of the portions -/

/-- The free list as a stack: the page numbers of the portions, bottom first. -/
def stack (portions : List (PageNumber × List PageNumber)) : List PageNumber :=
  (portions.map Prod.snd).flatten

/-- Every portion below the head is full. -/
def FullBelowHead (portions : List (PageNumber × List PageNumber)) : Prop :=
  ∀ p ∈ portions.dropLast, p.2.length = MAX_PNS_PER_PAGE

/-- The fragmented form `commit` may leave: a head holding one page number above a portion one
short of full, and every portion below those full. -/
def Fragmented (portions : List (PageNumber × List PageNumber)) : Prop :=
  ∃ below a b, portions = below ++ [a, b] ∧ (∀ p ∈ below, p.2.length = MAX_PNS_PER_PAGE) ∧
    a.2.length = MAX_PNS_PER_PAGE - 1 ∧ b.2.length = 1

/-- The representation invariant of the free list. -/
structure Shape (portions : List (PageNumber × List PageNumber)) : Prop where
  nonempty : ∀ p ∈ portions, p.2 ≠ []
  full_or_fragmented : FullBelowHead portions ∨ Fragmented portions

theorem maxPns_eq : MAX_PNS_PER_PAGE = 1022 := rfl

theorem maxPns_pos : 0 < MAX_PNS_PER_PAGE := by
  rw [maxPns_eq]
  decide

@[simp] theorem stack_nil : stack [] = [] := rfl

@[simp] theorem stack_append (P Q : List (PageNumber × List PageNumber)) :
    stack (P ++ Q) = stack P ++ stack Q := by
  simp [stack]

@[simp] theorem stack_singleton (q : PageNumber × List PageNumber) : stack [q] = q.2 := by
  simp [stack]

@[simp] theorem stack_cons (q : PageNumber × List PageNumber)
    (P : List (PageNumber × List PageNumber)) : stack (q :: P) = q.2 ++ stack P := by
  simp [stack]

theorem FullBelowHead.append_singleton {P : List (PageNumber × List PageNumber)}
    (h : ∀ p ∈ P, p.2.length = MAX_PNS_PER_PAGE) (q : PageNumber × List PageNumber) :
    FullBelowHead (P ++ [q]) := by
  intro p hp
  rw [List.dropLast_concat] at hp
  exact h p hp

/-- Changing the head keeps the portions below it. -/
theorem FullBelowHead.setHead {P : List (PageNumber × List PageNumber)} (h : FullBelowHead P)
    (q : PageNumber × List PageNumber) : FullBelowHead (P.dropLast ++ [q]) :=
  FullBelowHead.append_singleton h q

/-- Dropping the head leaves full portions below the new head. -/
theorem FullBelowHead.dropLast {P : List (PageNumber × List PageNumber)} (h : FullBelowHead P) :
    FullBelowHead P.dropLast :=
  fun p hp => h p (List.dropLast_subset _ hp)

theorem Fragmented.dropLast {P : List (PageNumber × List PageNumber)} (h : Fragmented P) :
    FullBelowHead P.dropLast := by
  obtain ⟨below, a, b, rfl, hbelow, -, -⟩ := h
  rw [show below ++ [a, b] = (below ++ [a]) ++ [b] by simp, List.dropLast_concat]
  exact FullBelowHead.append_singleton hbelow a

/-- A full portion is not empty. -/
theorem ne_nil_of_full {p : PageNumber × List PageNumber} (h : p.2.length = MAX_PNS_PER_PAGE) :
    p.2 ≠ [] :=
  List.ne_nil_of_length_pos (by rw [h, maxPns_eq]; decide)

/-- Full portions below a nonempty head have the shape. -/
theorem shape_of_fullBelowHead {P : List (PageNumber × List PageNumber)} {q : PageNumber × List PageNumber}
    (h : FullBelowHead (P ++ [q])) (hq : q.2 ≠ []) : Shape (P ++ [q]) where
  nonempty p hp := by
    rcases List.mem_append.mp hp with hp | hp
    · exact ne_nil_of_full (h p (by rw [List.dropLast_concat]; exact hp))
    · rw [List.mem_singleton.mp hp]
      exact hq
  full_or_fragmented := .inl h

theorem Shape.dropLast {P : List (PageNumber × List PageNumber)} (h : Shape P) : Shape P.dropLast where
  nonempty p hp := h.nonempty p (List.dropLast_subset _ hp)
  full_or_fragmented := .inl (h.full_or_fragmented.elim FullBelowHead.dropLast Fragmented.dropLast)

/-! ### What one `pop` does -/

variable {fl fl' : FreeList}

/-- The inversion lemma of `pop`: on an empty free list it returns nothing; otherwise it takes
the last page number of the head, and releases the head when that was its only one. -/
theorem pop_eq_some {r : Option PageNumber} (h : fl.pop = some (fl', r)) :
    (fl.portions = [] ∧ fl' = fl ∧ r = none) ∨
      ∃ P hp hs x, fl.portions = P ++ [(hp, hs ++ [x])] ∧ r = some x ∧ fl'.popped = true ∧
        ((hs = [] ∧ fl'.portions = P ∧ fl'.releasedPortions = fl.releasedPortions ++ [hp]) ∨
          (hs ≠ [] ∧ fl'.portions = P ++ [(hp, hs)] ∧
            fl'.releasedPortions = fl.releasedPortions)) := by
  unfold pop at h
  rcases hhead : fl.portions.getLast? with _ | ⟨hp, hs₀⟩
  · rw [hhead] at h
    cases h
    exact .inl ⟨List.getLast?_eq_none_iff.mp hhead, rfl, rfl⟩
  obtain ⟨P, hP⟩ := List.getLast?_eq_some_iff.mp hhead
  rw [hhead] at h
  dsimp only at h
  rcases hlast : hs₀.getLast? with _ | x
  · rw [hlast] at h
    cases h
  obtain ⟨hs, rfl⟩ := List.getLast?_eq_some_iff.mp hlast
  rw [hlast, List.dropLast_concat] at h
  dsimp only at h
  refine .inr ⟨P, hp, hs, x, hP, ?_⟩
  by_cases hnil : hs = []
  · rw [if_pos (List.isEmpty_iff.mpr hnil)] at h
    cases h
    exact ⟨rfl, rfl, .inl ⟨hnil, by rw [hP, List.dropLast_concat], rfl⟩⟩
  · rw [if_neg (by rwa [List.isEmpty_iff])] at h
    cases h
    exact ⟨rfl, rfl, .inr ⟨hnil, by rw [setHead, hP, List.dropLast_concat], rfl⟩⟩

/-- A pop that takes no page number found the free list empty, and leaves it as it was. -/
theorem pop_eq_some_none (h : fl.pop = some (fl', none)) : fl.portions = [] ∧ fl' = fl := by
  rcases pop_eq_some h with ⟨hnil, hfl, -⟩ | ⟨_, _, _, _, -, hr, -⟩
  · exact ⟨hnil, hfl⟩
  · cases hr

/-- A pop that takes a page number found a head. -/
theorem portions_ne_nil_of_pop {pn : PageNumber} (h : fl.pop = some (fl', some pn)) :
    fl.portions ≠ [] := by
  rcases pop_eq_some h with ⟨-, -, hr⟩ | ⟨P, _, _, _, hP, -⟩
  · cases hr
  · simp [hP]

/-- A pop changes the head only: it keeps it, drops it, or replaces it. -/
theorem pop_fullBelowHead {r : Option PageNumber} (hfull : FullBelowHead fl.portions)
    (h : fl.pop = some (fl', r)) : FullBelowHead fl'.portions := by
  rcases pop_eq_some h with ⟨-, rfl, -⟩ | ⟨P, hp, hs, x, hP, -, -, ⟨-, hport, -⟩ | ⟨-, hport, -⟩⟩
  · exact hfull
  · have hbelow := hfull.dropLast
    rwa [hP, List.dropLast_concat, ← hport] at hbelow
  · rw [hport]
    rw [hP] at hfull
    exact FullBelowHead.append_singleton (fun p hp' => hfull p (by rw [List.dropLast_concat]; exact hp')) _

/-- A pop takes the top of the stack. -/
theorem pop_stack {r : Option PageNumber} (h : fl.pop = some (fl', r)) :
    stack fl'.portions = (stack fl.portions).dropLast ∧ r = (stack fl.portions).getLast? := by
  rcases pop_eq_some h with ⟨hnil, rfl, rfl⟩ | ⟨P, hp, hs, x, hP, rfl, -, ⟨rfl, hport, -⟩ | ⟨-, hport, -⟩⟩
  · rw [hnil]
    exact ⟨rfl, rfl⟩
  · rw [hport, hP, stack_append, stack_singleton, List.nil_append, List.dropLast_concat,
      List.getLast?_append, List.getLast?_singleton]
    exact ⟨rfl, rfl⟩
  · rw [hport, hP, stack_append, stack_append, stack_singleton, stack_singleton,
      ← List.append_assoc, List.dropLast_concat, List.getLast?_append, List.getLast?_singleton]
    exact ⟨rfl, rfl⟩

/-- A pop keeps every portion nonempty. -/
theorem pop_nonempty {r : Option PageNumber} (hne : ∀ p ∈ fl.portions, p.2 ≠ [])
    (h : fl.pop = some (fl', r)) : ∀ p ∈ fl'.portions, p.2 ≠ [] := by
  rcases pop_eq_some h with ⟨-, rfl, -⟩ | ⟨P, hp, hs, x, hP, -, -, ⟨-, hport, -⟩ | ⟨hs0, hport, -⟩⟩
  · exact hne
  · rw [hport]
    exact fun p hp' => hne p (by rw [hP]; exact List.mem_append_left _ hp')
  · rw [hport]
    intro p hp'
    rcases List.mem_append.mp hp' with hp' | hp'
    · exact hne p (by rw [hP]; exact List.mem_append_left _ hp')
    · rw [List.mem_singleton.mp hp']
      exact hs0

/-- `pop` does not panic when every portion is nonempty. -/
theorem pop_isSome (hne : ∀ p ∈ fl.portions, p.2 ≠ []) : ∃ fl' r, fl.pop = some (fl', r) := by
  unfold pop
  rcases hhead : fl.portions.getLast? with _ | ⟨hp, hs₀⟩
  · exact ⟨fl, none, rfl⟩
  obtain ⟨P, hP⟩ := List.getLast?_eq_some_iff.mp hhead
  have hs₀ne : hs₀ ≠ [] := hne (hp, hs₀) (by rw [hP]; exact List.mem_append_right _ (List.mem_singleton_self _))
  obtain ⟨hs, x, rfl⟩ : ∃ hs x, hs₀ = hs ++ [x] :=
    ⟨hs₀.dropLast, hs₀.getLast hs₀ne, (List.dropLast_append_getLast hs₀ne).symm⟩
  simp only [List.getLast?_concat]
  split_ifs
  · exact ⟨_, _, rfl⟩
  · exact ⟨_, _, rfl⟩

/-! ### `discard` -/

/-- A fragmented free list has a head of one page number. -/
theorem Fragmented.head_length {P : List (PageNumber × List PageNumber)} (h : Fragmented P)
    {q : PageNumber × List PageNumber} (hq : P.getLast? = some q) : q.2.length = 1 := by
  obtain ⟨below, a, b, rfl, -, -, hb⟩ := h
  rw [show below ++ [a, b] = (below ++ [a]) ++ [b] by simp, List.getLast?_concat] at hq
  cases hq
  exact hb

/-- Each round of `discard` shortens the head or releases it, so the shape is kept: a
fragmented head holds one page number and is released at once. -/
theorem Shape.discardLoop {n discarded : Nat} {fl : FreeList} (h : Shape fl.portions) :
    Shape (FreeList.discardLoop n discarded fl).2.portions := by
  fun_induction FreeList.discardLoop n discarded fl with
  | case1 => exact h
  | case2 discarded fl hlt headPn head hhead toDiscard head' fl' hkeep ih =>
    -- the head keeps some of its page numbers
    apply ih
    have hne : head' ≠ [] := List.isEmpty_eq_false_iff.mp hkeep
    rcases h.full_or_fragmented with hfull | hfrag
    · exact shape_of_fullBelowHead (hfull.setHead _) hne
    · have hlen := hfrag.head_length hhead
      exfalso
      apply hne
      simp only [head', toDiscard, hlen]
      rw [Nat.min_eq_left (by omega), Nat.sub_self, List.take_zero]
  | case3 discarded fl hlt headPn head hhead toDiscard head' fl' hkeep ih =>
    -- the head is released
    exact ih h.dropLast
  | case4 => exact h

/-- After `discard` the free list is dirty, unless it did nothing. -/
theorem discardLoop_popped {n discarded : Nat} {fl : FreeList}
    (h : (FreeList.discardLoop n discarded fl).2.popped = false) :
    (FreeList.discardLoop n discarded fl).2 = fl := by
  have hdirty : ∀ {n discarded : Nat} {fl : FreeList}, fl.popped = true →
      (FreeList.discardLoop n discarded fl).2.popped = true := by
    intro n discarded fl hfl
    fun_induction FreeList.discardLoop n discarded fl with
    | case1 => exact hfl
    | case2 discarded fl hlt headPn head hhead toDiscard head' fl' hkeep ih => exact ih rfl
    | case3 discarded fl hlt headPn head hhead toDiscard head' fl' hkeep ih => exact ih rfl
    | case4 => exact hfl
  fun_induction FreeList.discardLoop n discarded fl with
  | case1 => rfl
  | case2 discarded fl hlt headPn head hhead toDiscard head' fl' hkeep ih =>
    exact absurd (hdirty rfl) (by rw [h]; decide)
  | case3 discarded fl hlt headPn head hhead toDiscard head' fl' hkeep ih =>
    exact absurd (hdirty rfl) (by rw [h]; decide)
  | case4 => rfl

/-! ### `preallocate` -/

/-- The pops of `preallocate` change the head only, and it only appends to the page numbers to
push; on an empty free list it only bumps. -/
theorem preallocateLoop_spec {bump : PageNumber} {newPages : List PageNumber}
    {newFullPortion : Bool} {i : Nat} {fl : FreeList} {toPush : List PageNumber}
    {res : FreeList × List PageNumber × PageNumber × List PageNumber}
    (h : preallocateLoop bump newPages newFullPortion i fl toPush = some res) :
    (FullBelowHead fl.portions → FullBelowHead res.1.portions) ∧ toPush <+: res.2.1 ∧
      (fl.portions = [] → res.1.portions = []) := by
  fun_induction preallocateLoop bump newPages newFullPortion i fl toPush with
  | case1 => cases h
  | case2 bump newPages nfp i fl toPush hlt headPn headPns hfilter pn hlast ih =>
    -- the new portion's own last page number becomes its page
    obtain ⟨ihfull, ihpush, -⟩ := ih h
    refine ⟨fun hfull => ihfull (hfull.setHead _), (List.prefix_append _ _).trans ihpush, ?_⟩
    intro hnil
    rw [hnil] at hfilter
    cases hfilter
  | case3 => cases h
  | case4 bump newPages nfp i fl toPush hlt hfilter fl₁ pn hpop released hrel ih =>
    obtain ⟨ihfull, ihpush, -⟩ := ih h
    exact ⟨fun hfull => ihfull (pop_fullBelowHead hfull hpop :), ihpush,
      fun hnil => absurd hnil (portions_ne_nil_of_pop hpop)⟩
  | case5 bump newPages nfp i fl toPush hlt hfilter fl₁ pn hpop hrel ih =>
    obtain ⟨ihfull, ihpush, -⟩ := ih h
    exact ⟨fun hfull => ihfull (pop_fullBelowHead hfull hpop :), ihpush,
      fun hnil => absurd hnil (portions_ne_nil_of_pop hpop)⟩
  | case6 bump newPages nfp i fl toPush hlt hfilter fl₁ hpop ih =>
    -- nothing to pop: the free list is empty and a page is bumped
    obtain ⟨-, rfl⟩ := pop_eq_some_none hpop
    exact ih h
  | case7 =>
    cases h
    exact ⟨id, List.prefix_refl _, id⟩

/-- `preallocate` on a nonempty list of page numbers to push leaves full portions below the head,
and page numbers to push. -/
theorem preallocateLoop_fullBelowHead {bump : PageNumber} {newPages : List PageNumber}
    {newFullPortion : Bool} {i : Nat} {fl : FreeList} {toPush : List PageNumber}
    {res : FreeList × List PageNumber × PageNumber × List PageNumber}
    (h : preallocateLoop bump newPages newFullPortion i fl toPush = some res)
    (hfull : FullBelowHead fl.portions) (hpush : toPush ≠ []) :
    FullBelowHead res.1.portions ∧ (res.2.1 = [] → res.1.portions = []) := by
  obtain ⟨hspec, hprefix, -⟩ := preallocateLoop_spec h
  exact ⟨hspec hfull, fun hnil => absurd (List.prefix_nil.mp (hnil ▸ hprefix)) hpush⟩

/-- A pop from a free list of the shape leaves every portion below the head full: a fragmented
head holds one page number, so the pop releases it. -/
theorem Shape.pop_fullBelowHead {r : Option PageNumber} (hshape : Shape fl.portions)
    (h : fl.pop = some (fl', r)) : FullBelowHead fl'.portions := by
  rcases hshape.full_or_fragmented with hfull | hfrag
  · exact FreeList.pop_fullBelowHead hfull h
  rcases pop_eq_some h with ⟨hnil, rfl, -⟩ | ⟨P, hp, hs, x, hP, -, -, ⟨-, hport, -⟩ | ⟨hs0, -, -⟩⟩
  · intro p hp
    rw [hnil] at hp
    cases hp
  · have hbelow := hfrag.dropLast
    rwa [hP, List.dropLast_concat, ← hport] at hbelow
  · have hlen := hfrag.head_length (by rw [hP]; exact List.getLast?_concat ..)
    simp only [List.length_append, List.length_singleton] at hlen
    exact absurd (List.eq_nil_of_length_eq_zero (by omega)) hs0

/-- After `preallocate` every portion below the head is full, and there is something to push
unless the free list is empty. -/
theorem preallocate_spec {toPush : List PageNumber} {bump : PageNumber}
    {res : FreeList × List PageNumber × PageNumber × List PageNumber}
    (h : fl.preallocate toPush bump = some res) (hshape : Shape fl.portions) :
    FullBelowHead res.1.portions ∧ (res.2.1 = [] → res.1.portions = []) := by
  simp only [preallocate, bind, Option.bind_eq_some_iff] at h
  obtain ⟨⟨fl₁, popped⟩, hpop, h⟩ := h
  have hfull₁ := hshape.pop_fullBelowHead hpop
  dsimp only at h
  rcases popped with _ | pn
  · -- nothing to pop: the free list is empty and stays so
    obtain ⟨hnil, rfl⟩ := pop_eq_some_none hpop
    obtain ⟨hspec, -, hempty⟩ := preallocateLoop_spec h
    exact ⟨hspec hfull₁, fun _ => hempty hnil⟩
  dsimp only at h
  -- every other branch rewrites a portion, whose old page is pushed
  split at h
  · -- the pop released a portion
    split at h
    · split at h
      · exact preallocateLoop_fullBelowHead h (hfull₁.setHead _) (by simp)
      · exact preallocateLoop_fullBelowHead h hfull₁ (by simp)
    · exact preallocateLoop_fullBelowHead h hfull₁ (by simp)
  · split at h
    · cases h
    · exact preallocateLoop_fullBelowHead h (hfull₁.setHead _) (by simp)

/-! ### `push_and_encode` -/

/-- The inversion lemma of `push`: into a head that is not full. -/
theorem push_eq_some {pn : PageNumber} (h : fl.push pn = some fl') :
    ∃ P hp hs, fl.portions = P ++ [(hp, hs)] ∧ hs.length < MAX_PNS_PER_PAGE ∧
      fl'.portions = P ++ [(hp, hs ++ [pn])] := by
  unfold push at h
  rcases hhead : fl.portions.getLast? with _ | ⟨hp, hs⟩
  · rw [hhead] at h
    cases h
  obtain ⟨P, hP⟩ := List.getLast?_eq_some_iff.mp hhead
  rw [hhead] at h
  dsimp only at h
  split_ifs at h with hlt
  cases h
  exact ⟨P, hp, hs, hP, hlt, by rw [setHead, hP, List.dropLast_concat]⟩

/-- The inversion lemma of one round of `push_and_encode`: the page number goes into the head, or
into a new portion on the next new page, above a full head or above a head one short of full for
the last page number (fragmentation); a new portion first encodes the head below it. -/
theorem pushAndEncodeLoop_cons_eq_some {blank : List UInt8} {newPages : List PageNumber}
    {pn : PageNumber} {rest : List PageNumber}
    {res : FreeList × List PageNumber × List (PageNumber × List UInt8)}
    (h : pushAndEncodeLoop fl blank newPages (pn :: rest) = some res) :
    ∃ fl₁ fl₂ newPages₁ res₂,
      ((fl₁ = fl ∧ newPages₁ = newPages ∧ res.2.2 = res₂.2.2) ∨
        ∃ newHeadPn, newPages = newHeadPn :: newPages₁ ∧
          fl₁ = { fl with portions := fl.portions ++ [(newHeadPn, [])] } ∧
          res.2.2 = (fl.encodeHead blank).toList ++ res₂.2.2 ∧
          ∀ q ∈ fl.portions.getLast?, q.2.length = MAX_PNS_PER_PAGE ∨
            (q.2.length = MAX_PNS_PER_PAGE - 1 ∧ rest = [])) ∧
      fl₁.push pn = some fl₂ ∧ pushAndEncodeLoop fl₂ blank newPages₁ rest = some res₂ ∧
        res.1 = res₂.1 ∧ res.2.1 = res₂.2.1 := by
  simp only [pushAndEncodeLoop] at h
  split at h
  next hcond =>
    split at h
    next => simp at h
    next newHeadPn newPages₁ =>
      simp only [bind, Option.bind_eq_some_iff] at h
      obtain ⟨_, ⟨⟩, fl₂, hpush, res₂, hloop, hres⟩ := h
      cases hres
      refine ⟨_, fl₂, newPages₁, res₂, .inr ⟨newHeadPn, rfl, rfl, rfl, fun q hq => ?_⟩, hpush,
        hloop, rfl, rfl⟩
      rw [Option.mem_def] at hq
      rw [hq] at hcond
      simpa using hcond
  next =>
    simp only [bind, Option.bind_eq_some_iff] at h
    obtain ⟨_, ⟨⟩, fl₂, hpush, res₂, hloop, hres⟩ := h
    cases hres
    exact ⟨fl, fl₂, _, res₂, .inl ⟨rfl, rfl, List.nil_append _⟩, hpush, hloop, rfl, rfl⟩

/-- What the shape needs of a round: the portions it pushes into. -/
theorem newPortion_of_round {blank : List UInt8} {fl₁ : FreeList} {newPages newPages₁ : List PageNumber}
    {rest : List PageNumber} {encoded encoded₂ : List (PageNumber × List UInt8)}
    (h : (fl₁ = fl ∧ newPages₁ = newPages ∧ encoded = encoded₂) ∨
      ∃ newHeadPn, newPages = newHeadPn :: newPages₁ ∧
        fl₁ = { fl with portions := fl.portions ++ [(newHeadPn, [])] } ∧
        encoded = (fl.encodeHead blank).toList ++ encoded₂ ∧
        ∀ q ∈ fl.portions.getLast?, q.2.length = MAX_PNS_PER_PAGE ∨
          (q.2.length = MAX_PNS_PER_PAGE - 1 ∧ rest = [])) :
    fl₁ = fl ∨ ∃ newHeadPn, fl₁.portions = fl.portions ++ [(newHeadPn, [])] ∧
      ∀ q ∈ fl.portions.getLast?, q.2.length = MAX_PNS_PER_PAGE ∨
        (q.2.length = MAX_PNS_PER_PAGE - 1 ∧ rest = []) := by
  rcases h with ⟨rfl, -, -⟩ | ⟨newHeadPn, -, rfl, -, hhead⟩
  · exact .inl rfl
  · exact .inr ⟨newHeadPn, rfl, hhead⟩

theorem Shape.nil : Shape [] where
  nonempty _ hp := by cases hp
  full_or_fragmented := .inl fun _ hp => by cases hp

/-- One round of `push_and_encode` gives the shape, and keeps every portion below the head full
unless it was the last round. -/
theorem Shape.pushStep {fl₁ fl₂ : FreeList} {pn : PageNumber} {rest : List PageNumber}
    (hfull : FullBelowHead fl.portions)
    (hnew : fl₁ = fl ∨ ∃ newHeadPn, fl₁.portions = fl.portions ++ [(newHeadPn, [])] ∧
        ∀ q ∈ fl.portions.getLast?, q.2.length = MAX_PNS_PER_PAGE ∨
          (q.2.length = MAX_PNS_PER_PAGE - 1 ∧ rest = []))
    (hpush : fl₁.push pn = some fl₂) :
    Shape fl₂.portions ∧ (rest ≠ [] → FullBelowHead fl₂.portions) := by
  obtain ⟨P, hp, hs, hP, -, hport⟩ := push_eq_some hpush
  rcases hnew with rfl | ⟨newHeadPn, hnewPort, hhead⟩
  · -- pushed into the head
    have hfull₂ : FullBelowHead fl₂.portions := by
      rw [hport]
      rw [hP] at hfull
      exact FullBelowHead.append_singleton
        (fun p hp' => hfull p (by rw [List.dropLast_concat]; exact hp')) _
    refine ⟨?_, fun _ => hfull₂⟩
    rw [hport] at hfull₂ ⊢
    exact shape_of_fullBelowHead hfull₂ (by simp)
  -- pushed into a new portion
  rw [hnewPort] at hP
  obtain ⟨rfl, hq⟩ := List.append_inj' hP rfl
  cases hq
  rw [List.nil_append] at hport
  rcases hlast : fl.portions.getLast? with _ | q
  · rw [List.getLast?_eq_none_iff.mp hlast] at hport
    rw [hport]
    exact ⟨shape_of_fullBelowHead (fun p hp' => by simp at hp') (by simp),
      fun _ _ hp' => by simp at hp'⟩
  obtain ⟨R, hR⟩ := List.getLast?_eq_some_iff.mp hlast
  have hbelow : ∀ p ∈ R, p.2.length = MAX_PNS_PER_PAGE := by
    rw [hR] at hfull
    exact fun p hp' => hfull p (by rw [List.dropLast_concat]; exact hp')
  rcases hhead q hlast with hq | ⟨hq, rfl⟩
  · -- above a full head
    have hall : ∀ p ∈ fl.portions, p.2.length = MAX_PNS_PER_PAGE := by
      rw [hR]
      intro p hp'
      rcases List.mem_append.mp hp' with hp' | hp'
      · exact hbelow p hp'
      · rw [List.mem_singleton.mp hp']
        exact hq
    have hfull₂ : FullBelowHead fl₂.portions := by
      rw [hport]
      exact FullBelowHead.append_singleton hall _
    refine ⟨?_, fun _ => hfull₂⟩
    rw [hport] at hfull₂ ⊢
    exact shape_of_fullBelowHead hfull₂ (by simp)
  · -- the fragmented form, left by the last round only
    refine ⟨⟨?_, .inr ⟨R, q, (hp, [pn]), by rw [hport, hR]; simp, hbelow, hq, rfl⟩⟩,
      fun h => absurd rfl h⟩
    rw [hport, hR]
    intro p hp'
    simp only [List.mem_append, List.mem_singleton] at hp'
    rcases hp' with (hp' | rfl) | rfl
    · exact ne_nil_of_full (hbelow p hp')
    · exact List.ne_nil_of_length_pos (by rw [hq, maxPns_eq]; decide)
    · simp

/-- `push_and_encode` of at least one page number, onto full portions below the head, leaves
the shape. -/
theorem Shape.pushAndEncodeLoop {blank : List UInt8} {newPages : List PageNumber}
    {pn : PageNumber} {rest : List PageNumber}
    {res : FreeList × List PageNumber × List (PageNumber × List UInt8)}
    (hfull : FullBelowHead fl.portions)
    (h : pushAndEncodeLoop fl blank newPages (pn :: rest) = some res) :
    Shape res.1.portions := by
  -- induction on the page numbers after the first, carrying the full portions below the head
  induction rest generalizing fl newPages pn res with
  | nil =>
    obtain ⟨fl₁, fl₂, newPages₁, res₂, hnew, hpush, hloop, hres, -⟩ :=
      pushAndEncodeLoop_cons_eq_some h
    cases hloop
    rw [hres]
    exact (Shape.pushStep hfull (newPortion_of_round hnew) hpush).1
  | cons pn' rest ih =>
    obtain ⟨fl₁, fl₂, newPages₁, res₂, hnew, hpush, hloop, hres, -⟩ :=
      pushAndEncodeLoop_cons_eq_some h
    rw [hres]
    exact ih ((Shape.pushStep hfull (newPortion_of_round hnew) hpush).2 (List.cons_ne_nil _ _)) hloop

/-- `push_and_encode` leaves the shape, or the free list as it was when there was nothing to
push. -/
theorem pushAndEncode_shape {toPush newPages : List PageNumber}
    {blank : List UInt8} {res : FreeList × List (PageNumber × List UInt8)}
    (hfull : FullBelowHead fl.portions) (h : fl.pushAndEncode blank toPush newPages = some res) :
    (toPush = [] ∧ res.1 = fl) ∨ Shape res.1.portions := by
  simp only [pushAndEncode, bind, Option.bind_eq_some_iff] at h
  obtain ⟨⟨fl₁, newPages₁, encoded⟩, hloop, h⟩ := h
  split at h
  · cases h
    cases toPush with
    | nil =>
      cases hloop
      exact .inl ⟨rfl, rfl⟩
    | cons pn rest => exact .inr (Shape.pushAndEncodeLoop hfull hloop)
  · cases h

/-! ### Clean free lists -/

/-- A clean free list, as `as_clean` asserts it after a commit: of the shape, with nothing popped
since, and with its length and fragmentation as `len_and_fragmented` counts them. -/
structure Clean (fl : FreeList) : Prop where
  shape : Shape fl.portions
  popped : fl.popped = false
  lenAndFragmented : lenAndFragmented fl.portions = (fl.len, fl.fragmented)

theorem Clean.ofPortions {P : List (PageNumber × List PageNumber)} (h : Shape P) :
    Clean (ofPortions P) :=
  ⟨h, rfl, rfl⟩

/-- A sync keeps the free list clean: `discard` keeps the shape, and `commit` either finds
nothing to do, or rewrites the portions into the shape and counts them again. -/
theorem Clean.sync {n : Nat} {toPush : List PageNumber} {bump : PageNumber}
    {blank : List UInt8} {res : FreeList × List (PageNumber × List UInt8) × PageNumber}
    (hclean : Clean fl) (h : (fl.discard n).2.commit blank toPush bump = some res) :
    Clean res.1 := by
  have hshape : Shape (fl.discard n).2.portions := hclean.shape.discardLoop
  unfold commit at h
  dsimp only at h
  split at h
  next hidle =>
    -- nothing popped and nothing to push: `discard` did nothing
    cases h
    have hpopped : (fl.discard n).2.popped = false :=
      (by simpa using hidle : _ ∧ toPush = []).1
    rw [discard, discardLoop_popped hpopped]
    exact ⟨hclean.shape, rfl, hclean.lenAndFragmented⟩
  next =>
    simp only [bind, Option.bind_eq_some_iff] at h
    obtain ⟨⟨fl₁, toPush₁, bump₁, newPages⟩, hpre, ⟨fl₂, pages⟩, hpush, h⟩ := h
    cases h
    obtain ⟨hfull₁, hnil₁⟩ := preallocate_spec hpre hshape
    refine ⟨?_, rfl, rfl⟩
    rcases pushAndEncode_shape hfull₁ hpush with ⟨hnil, rfl⟩ | hshape₂
    · rw [hnil₁ hnil]
      exact Shape.nil
    · exact hshape₂

end FreeList

end Nomt.Allocator

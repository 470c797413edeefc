import Nomt.Beatree.FreeListStore

/-!
# What a sync keeps of the free list and its file (`SyncFinisher::finish`)

`commit` rewrites the portions copy-on-write: the pages it takes for the rewritten and the new
portions come from the free list itself, from the portions it releases, or from the bump, and the
pages it leaves are pushed. So no page is lost or taken twice: the pages the free list owns after
a commit are those it owned, the freed pages and the pages bumped (`commit_spec`). Every portion a
commit touches is rewritten: the portions below the head `preallocate` leaves are a prefix of
those below the head before, and `push_and_encode` writes every portion from that head up,
each over the page of the portion below it (`pushAndEncode_spec`).

A store (`Store`) runs through syncs (`finish`), writes of the tree's own pages, growth of its
file and reopenings (`Reachable`). Every store it reaches keeps its free list clean, its pages
distinct and below the bump, and its portions as a chain of pages in the file (`Kept`), so that
reopening reads back the free list the store held (`Kept.openStore_eq`, `Kept.openStore_eq_some`).
-/

namespace Nomt.Allocator

open Overflow (PAGE_SIZE PageNumber)
open PageChain

namespace FreeList

/-! ### The pages the free list owns -/

/-- `FreeList::all_tracked_pages`, as a list: the page of each portion and the page numbers the
portions hold. -/
def allTrackedPages (fl : FreeList) : List PageNumber :=
  fl.portions.map Prod.fst ++ stack fl.portions

/-- Every page the free list owns: the pages it tracks, and the portion pages it released since
the last commit. -/
def owned (fl : FreeList) : List PageNumber :=
  fl.allTrackedPages ++ fl.releasedPortions

/-- Every portion fits its page. -/
def Bounded (P : List (PageNumber × List PageNumber)) : Prop :=
  ∀ p ∈ P, p.2.length ≤ MAX_PNS_PER_PAGE

/-- The `k` pages bumped from `bump`, page numbers wrapping as a `u32` does. -/
def bumpRange (bump : PageNumber) (k : Nat) : List PageNumber :=
  (List.range k).map fun j => bump + UInt32.ofNat j

/-- The pages `push_and_encode` writes for the portions `U` above the page `prev`. -/
def encodeChain (blank : List UInt8) (prev : PageNumber) (U : List (PageNumber × List PageNumber)) :
    List (PageNumber × List UInt8) :=
  (chain prev U).map fun e => (e.1, encodeFreeListPage blank e.2.1 e.2.2)

@[simp] theorem encodeChain_nil (blank : List UInt8) (prev : PageNumber) :
    encodeChain blank prev [] = [] := rfl

theorem encodeChain_cons (blank : List UInt8) (prev : PageNumber) (q : PageNumber × List PageNumber)
    (U : List (PageNumber × List PageNumber)) :
    encodeChain blank prev (q :: U) = (q.1, encodeFreeListPage blank prev q.2) :: encodeChain blank q.1 U :=
  rfl

theorem owned_eq {fl : FreeList} {P : List (PageNumber × List PageNumber)}
    {q : PageNumber × List PageNumber} (h : fl.portions = P ++ [q]) :
    fl.owned = P.map Prod.fst ++ [q.1] ++ (stack P ++ q.2) ++ fl.releasedPortions := by
  rw [owned, allTrackedPages, h, List.map_append, stack_append, stack_singleton, List.map_singleton]

@[simp] theorem length_bumpRange (bump : PageNumber) (k : Nat) : (bumpRange bump k).length = k := by
  simp [bumpRange]

/-- Adding without a wrap. -/
theorem toNat_add_ofNat {a : PageNumber} {n : Nat} (h : a.toNat + n < 2 ^ 32) :
    (a + UInt32.ofNat n).toNat = a.toNat + n := by
  rw [UInt32.toNat_add, UInt32.toNat_ofNat', Nat.mod_eq_of_lt (a := n) (by omega), Nat.mod_eq_of_lt h]

theorem bumpRange_zero (bump : PageNumber) : bumpRange bump 0 = [] := rfl

theorem bumpRange_succ (bump : PageNumber) (k : Nat) :
    bumpRange bump (k + 1) = bump :: bumpRange (bump + 1) k := by
  rw [bumpRange, List.range_succ_eq_map, List.map_cons, List.map_map, bumpRange]
  congr 1
  · exact UInt32.add_zero bump
  · refine List.map_congr_left fun j _ => ?_
    simp only [Function.comp, Nat.succ_eq_add_one, UInt32.ofNat_add, UInt32.ofNat_one]
    ac_rfl

/-- Without a wrap, the pages bumped are `bump` and the `k - 1` after it. -/
theorem toNat_of_mem_bumpRange {bump pn : PageNumber} {k : Nat} (hroom : bump.toNat + k ≤ 2 ^ 32)
    (h : pn ∈ bumpRange bump k) : bump.toNat ≤ pn.toNat ∧ pn.toNat < bump.toNat + k := by
  obtain ⟨j, hj, rfl⟩ := List.mem_map.mp h
  rw [List.mem_range] at hj
  rw [UInt32.toNat_add, UInt32.toNat_ofNat', Nat.mod_eq_of_lt (by omega), Nat.mod_eq_of_lt (by omega)]
  omega

theorem nodup_bumpRange {bump : PageNumber} {k : Nat} (hroom : bump.toNat + k ≤ 2 ^ 32) :
    (bumpRange bump k).Nodup := by
  refine (List.nodup_range).map_on fun i hi j hj hij => ?_
  rw [List.mem_range] at hi hj
  have := congrArg UInt32.toNat hij
  rw [UInt32.toNat_add, UInt32.toNat_add, UInt32.toNat_ofNat', UInt32.toNat_ofNat',
    Nat.mod_eq_of_lt (by omega), Nat.mod_eq_of_lt (by omega), Nat.mod_eq_of_lt (by omega),
    Nat.mod_eq_of_lt (by omega)] at this
  omega

/-- `fl'` comes from `fl` by changes to its head alone: the portions below its head are a prefix
of those below the head of `fl`, and no portion outgrows its page. -/
structure HeadOnly (fl fl' : FreeList) : Prop where
  below : fl'.portions.dropLast <+: fl.portions.dropLast
  bounded : Bounded fl.portions → Bounded fl'.portions

theorem HeadOnly.refl (fl : FreeList) : HeadOnly fl fl :=
  ⟨List.prefix_refl _, id⟩

theorem HeadOnly.trans {fl₁ fl₂ fl₃ : FreeList} (h₁ : HeadOnly fl₁ fl₂) (h₂ : HeadOnly fl₂ fl₃) :
    HeadOnly fl₁ fl₃ :=
  ⟨h₂.below.trans h₁.below, h₂.bounded ∘ h₁.bounded⟩

/-- `HeadOnly` reads the portions alone. -/
theorem HeadOnly.congr_left {fl₁ fl₂ fl₃ : FreeList} (h₂ : HeadOnly fl₂ fl₃)
    (h : fl₁.portions = fl₂.portions) : HeadOnly fl₁ fl₃ :=
  ⟨by rw [h]; exact h₂.below, by rw [h]; exact h₂.bounded⟩

theorem setHead_portions {fl : FreeList} {P : List (PageNumber × List PageNumber)}
    {q : PageNumber × List PageNumber} (hP : fl.portions = P ++ [q]) (q' : PageNumber × List PageNumber) :
    (fl.setHead q').portions = P ++ [q'] := by
  rw [FreeList.setHead, hP, List.dropLast_concat]

@[simp] theorem setHead_releasedPortions (fl : FreeList) (q : PageNumber × List PageNumber) :
    (fl.setHead q).releasedPortions = fl.releasedPortions := rfl

/-- Rewriting the head into the page `pn` swaps its page for `pn` among the pages owned. -/
theorem owned_setHead_perm {fl : FreeList} {P : List (PageNumber × List PageNumber)}
    {hp : PageNumber} {hs : List PageNumber} (hP : fl.portions = P ++ [(hp, hs)]) (pn : PageNumber) :
    ((fl.setHead (pn, hs)).owned ++ [hp]).Perm (fl.owned ++ [pn]) := by
  rw [owned_eq (setHead_portions hP _), owned_eq hP, setHead_releasedPortions, List.perm_iff_count]
  intro a
  simp only [List.count_append, List.count_singleton]
  omega

/-- Dropping the portion page released last hands it back. -/
theorem owned_dropReleased {fl : FreeList} {x : PageNumber} (h : fl.releasedPortions = [x]) :
    { fl with releasedPortions := fl.releasedPortions.dropLast }.owned ++ [x] = fl.owned := by
  simp [owned, allTrackedPages, h]

/-- Replacing the head by one with no more page numbers changes the head only. -/
theorem HeadOnly.of_head {fl fl' : FreeList} {P : List (PageNumber × List PageNumber)}
    {q q' : PageNumber × List PageNumber} (hP : fl.portions = P ++ [q])
    (hP' : fl'.portions = P ++ [q']) (hlen : q'.2.length ≤ q.2.length) : HeadOnly fl fl' := by
  have hbelow : fl'.portions.dropLast = fl.portions.dropLast := by
    rw [hP, hP', List.dropLast_concat, List.dropLast_concat]
  refine ⟨hbelow ▸ List.prefix_refl _, fun hb p hp => ?_⟩
  rw [hP'] at hp
  rcases List.mem_append.mp hp with hp | hp
  · exact hb p (by rw [hP]; exact List.mem_append_left _ hp)
  · rw [List.mem_singleton.mp hp]
    exact Nat.le_trans hlen (hb q (by rw [hP]; exact List.mem_append_right _ (List.mem_singleton_self _)))

/-! ### One pop -/

section Pop

variable {fl fl' : FreeList}

/-- A pop hands out the page it takes, and keeps every other page it owned. -/
theorem pop_owned {r : Option PageNumber} (h : fl.pop = some (fl', r)) :
    fl.owned.Perm (fl'.owned ++ r.toList) := by
  rcases pop_eq_some h with ⟨-, rfl, rfl⟩ | ⟨P, hp, hs, x, hP, rfl, -, ⟨rfl, hport, hrel⟩ |
    ⟨-, hport, hrel⟩⟩
  · simp
  · rw [owned, allTrackedPages, owned, allTrackedPages, hP, hport, hrel, List.perm_iff_count]
    intro a
    simp only [List.map_append, stack_append, stack_singleton, List.count_append, List.map_singleton,
      List.nil_append, Option.toList_some, List.count_singleton]
    omega
  · rw [owned_eq hP, owned_eq hport, hrel, List.perm_iff_count]
    intro a
    simp only [List.count_append, Option.toList_some, List.count_singleton]
    omega

/-- A pop changes the head only. -/
theorem pop_headOnly {r : Option PageNumber} (h : fl.pop = some (fl', r)) : HeadOnly fl fl' := by
  rcases pop_eq_some h with ⟨-, rfl, -⟩ | ⟨P, hp, hs, x, hP, -, -, ⟨-, hport, -⟩ | ⟨-, hport, -⟩⟩
  · exact HeadOnly.refl _
  · refine ⟨?_, fun hb p hp' => hb p (by rw [hP]; exact List.mem_append_left _ (hport ▸ hp'))⟩
    rw [hport, hP, List.dropLast_concat]
    exact List.dropLast_prefix P
  · exact HeadOnly.of_head hP hport (by simp)

/-- A pop from a free list with no released portion releases at most the head page: a portion
released after it is the only one. -/
theorem pop_releasedPortions {r : Option PageNumber} {x : PageNumber} (h : fl.pop = some (fl', r))
    (hrel : fl.releasedPortions = []) (hx : fl'.releasedPortions.getLast? = some x) :
    fl'.releasedPortions = [x] := by
  rcases pop_eq_some h with ⟨-, rfl, -⟩ | ⟨P, hp, hs, x, hP, -, -, ⟨-, -, hrel'⟩ | ⟨-, -, hrel'⟩⟩
  · rw [hrel] at hx
    cases hx
  · rw [hrel', hrel] at hx ⊢
    cases hx
    rfl
  · rw [hrel', hrel] at hx
    cases hx

end Pop

/-! ### `discard` -/

/-- `discard` keeps page numbers of the head or releases the head page: the free list owns no
page it did not own before, and only its head changes. -/
theorem discardLoop_owned {n discarded : Nat} {fl : FreeList} :
    (discardLoop n discarded fl).2.owned.Subperm fl.owned ∧
      HeadOnly fl (discardLoop n discarded fl).2 := by
  fun_induction discardLoop n discarded fl with
  | case1 => exact ⟨List.Subperm.refl _, HeadOnly.refl _⟩
  | case2 discarded fl hlt headPn head hhead toDiscard head' fl' hkeep ih =>
    -- the head keeps the first of its page numbers
    obtain ⟨P, hP⟩ := List.getLast?_eq_some_iff.mp hhead
    have hP' : (P ++ [(headPn, head')]) = { fl' with portions := fl'.portions ++ [(headPn, head')] }.portions := by
      simp only [fl', hP, List.dropLast_concat]
    have hsub : { fl' with portions := fl'.portions ++ [(headPn, head')] }.owned.Subperm fl.owned := by
      rw [owned_eq hP'.symm, owned_eq hP]
      exact ((List.take_sublist _ head).append_left _ |>.append_left _ |>.append_right _).subperm
    exact ⟨ih.1.trans hsub, (HeadOnly.of_head hP hP'.symm (List.take_sublist _ head).length_le).trans ih.2⟩
  | case3 discarded fl hlt headPn head hhead toDiscard head' fl' hkeep ih =>
    -- the head page is released
    obtain ⟨P, hP⟩ := List.getLast?_eq_some_iff.mp hhead
    have hsub : (fl'.owned ++ [headPn]).Subperm fl.owned := by
      rw [owned, allTrackedPages, owned_eq hP]
      simp only [fl', hP, List.dropLast_concat]
      refine List.subperm_ext_iff.mpr fun a _ => ?_
      simp only [List.count_append, List.count_singleton]
      omega
    have hstep : HeadOnly fl { fl' with releasedPortions := fl'.releasedPortions ++ [headPn] } := by
      refine ⟨?_, fun hb p hp => hb p ?_⟩
      · simp only [fl', hP, List.dropLast_concat]
        exact List.dropLast_prefix P
      · simp only [fl', hP, List.dropLast_concat] at hp
        rw [hP]
        exact List.mem_append_left _ hp
    refine ⟨ih.1.trans ?_, hstep.trans ih.2⟩
    simpa [owned, allTrackedPages] using hsub
  | case4 => exact ⟨List.Subperm.refl _, HeadOnly.refl _⟩

/-! ### `preallocate` -/

theorem ofNat_succ_add (bump : PageNumber) (k : Nat) :
    bump + 1 + UInt32.ofNat k = bump + UInt32.ofNat (k + 1) := by
  rw [UInt32.ofNat_add, UInt32.ofNat_one]
  ac_rfl

/-- The pops and bumps of the loop of `preallocate` hand every page they take to the pages to
push or the new pages: after it, the free list, the pages to push and the new pages own
together what they owned before, and the `k` pages bumped. Only the head changes, and no
portion is left released. -/
theorem preallocateLoop_owned {bump : PageNumber} {newPages : List PageNumber}
    {newFullPortion : Bool} {i : Nat} {fl : FreeList} {toPush : List PageNumber}
    {res : FreeList × List PageNumber × PageNumber × List PageNumber}
    (h : preallocateLoop bump newPages newFullPortion i fl toPush = some res)
    (hrel : fl.releasedPortions = []) :
    ∃ k, res.2.2.1 = bump + UInt32.ofNat k ∧
      (res.1.owned ++ res.2.1 ++ res.2.2.2).Perm (fl.owned ++ toPush ++ newPages ++ bumpRange bump k) ∧
      HeadOnly fl res.1 ∧ res.1.releasedPortions = [] := by
  fun_induction preallocateLoop bump newPages newFullPortion i fl toPush with
  | case1 => cases h
  | case2 bump newPages nfp i fl toPush hlt headPn headPns hfilter pn hlast ih =>
    -- the new portion's last page number becomes its page, and its old page is pushed
    obtain ⟨P, hP⟩ := List.getLast?_eq_some_iff.mp (Option.filter_eq_some_iff.mp hfilter).1
    obtain ⟨hs, rfl⟩ := List.getLast?_eq_some_iff.mp hlast
    rw [List.dropLast_concat] at h ih
    obtain ⟨k, hbump, hperm, hhead, hrel'⟩ := ih h hrel
    have hset := setHead_portions hP (pn, hs)
    refine ⟨k, hbump, hperm.trans ?_, (HeadOnly.of_head hP hset (by simp)).trans hhead, hrel'⟩
    rw [owned_eq hset, owned_eq hP, setHead_releasedPortions, List.perm_iff_count]
    intro a
    simp only [List.count_append, List.count_singleton]
    omega
  | case3 => cases h
  | case4 bump newPages nfp i fl toPush hlt hfilter fl₁ pn hpop released hreleased ih =>
    -- the pop released the head page: it becomes a new page, with the page popped
    have hrel₁ := pop_releasedPortions hpop hrel hreleased
    obtain ⟨k, hbump, hperm, hhead, hrel'⟩ := ih h (by rw [hrel₁]; rfl)
    refine ⟨k, hbump, hperm.trans ?_, (pop_headOnly hpop).trans (hhead.congr_left rfl), hrel'⟩
    have hown : fl.owned.Perm ({ fl₁ with releasedPortions := fl₁.releasedPortions.dropLast }.owned ++
        [released] ++ [pn]) := by
      rw [owned_dropReleased hrel₁]
      exact pop_owned hpop
    rw [List.perm_iff_count]
    intro a
    have := hown.count_eq a
    simp only [List.count_append, List.count_cons, List.count_nil] at this ⊢
    omega
  | case5 bump newPages nfp i fl toPush hlt hfilter fl₁ pn hpop hreleased ih =>
    -- a page number popped becomes a new page
    have hrel₁ : fl₁.releasedPortions = [] := List.getLast?_eq_none_iff.mp hreleased
    obtain ⟨k, hbump, hperm, hhead, hrel'⟩ := ih h hrel₁
    refine ⟨k, hbump, hperm.trans ?_, (pop_headOnly hpop).trans hhead, hrel'⟩
    have hown := (pop_owned hpop).count_eq
    rw [List.perm_iff_count]
    intro a
    have := hown a
    simp only [List.count_append, List.count_singleton, Option.toList_some] at this ⊢
    omega
  | case6 bump newPages nfp i fl toPush hlt hfilter fl₁ hpop ih =>
    -- nothing to pop: the page is bumped
    obtain ⟨-, rfl⟩ := pop_eq_some_none hpop
    obtain ⟨k, hbump, hperm, hhead, hrel'⟩ := ih h hrel
    refine ⟨k + 1, by rw [hbump, ofNat_succ_add], hperm.trans ?_, hhead, hrel'⟩
    rw [bumpRange_succ, List.perm_iff_count]
    intro a
    simp only [List.count_append, List.count_cons, List.count_nil]
    omega
  | case7 =>
    cases h
    refine ⟨0, (UInt32.add_zero _).symm, ?_, HeadOnly.refl _, hrel⟩
    rw [bumpRange_zero, List.append_nil]

/-- Entering the loop of `preallocate` from a free list, page numbers to push and new pages that
own together what `fl` and `toPush` own, with only the head changed and nothing released, keeps
every page owned. -/
theorem preallocateLoop_owned_of_perm {bump : PageNumber} {newPages : List PageNumber}
    {newFullPortion : Bool} {i : Nat} {fl fl₁ : FreeList} {toPush toPush₁ : List PageNumber}
    {res : FreeList × List PageNumber × PageNumber × List PageNumber}
    (h : preallocateLoop bump newPages newFullPortion i fl₁ toPush₁ = some res)
    (hrel : fl₁.releasedPortions = []) (hhead : HeadOnly fl fl₁)
    (hperm : (fl₁.owned ++ toPush₁ ++ newPages).Perm (fl.owned ++ toPush)) :
    ∃ k, res.2.2.1 = bump + UInt32.ofNat k ∧
      (res.1.owned ++ res.2.1 ++ res.2.2.2).Perm (fl.owned ++ toPush ++ bumpRange bump k) ∧
      HeadOnly fl res.1 ∧ res.1.releasedPortions = [] := by
  obtain ⟨k, hbump, hperm', hhead', hrel'⟩ := preallocateLoop_owned h hrel
  exact ⟨k, hbump, hperm'.trans (hperm.append_right _), hhead.trans hhead', hrel'⟩

/-- `preallocate`, its first pop included, keeps every page owned, as its loop does. -/
theorem preallocate_owned {fl : FreeList} {toPush : List PageNumber} {bump : PageNumber}
    {res : FreeList × List PageNumber × PageNumber × List PageNumber}
    (h : fl.preallocate toPush bump = some res) (hrel : fl.releasedPortions = []) :
    ∃ k, res.2.2.1 = bump + UInt32.ofNat k ∧
      (res.1.owned ++ res.2.1 ++ res.2.2.2).Perm (fl.owned ++ toPush ++ bumpRange bump k) ∧
      HeadOnly fl res.1 ∧ res.1.releasedPortions = [] := by
  simp only [preallocate, bind, Option.bind_eq_some_iff] at h
  obtain ⟨⟨fl₁, popped⟩, hpop, h⟩ := h
  have hhead := pop_headOnly hpop
  dsimp only at h
  rcases popped with _ | pn
  · -- nothing to pop: the free list is empty
    obtain ⟨-, rfl⟩ := pop_eq_some_none hpop
    exact preallocateLoop_owned_of_perm h hrel hhead (List.Perm.of_eq (List.append_nil _))
  dsimp only at h
  -- the pop hands out `pn` and keeps every other page
  have h₁ := fun a => (pop_owned hpop).count_eq a
  simp only [Option.toList_some, List.count_append, List.count_singleton] at h₁
  split at h
  next x hx =>
    -- the pop released the head page `x`, which is pushed
    have hrel₁ := pop_releasedPortions hpop hrel hx
    have h₂ := fun a => congrArg (List.count a) (owned_dropReleased hrel₁)
    simp only [List.count_append, List.count_singleton] at h₂
    have hrel₂ : ({ fl₁ with releasedPortions := fl₁.releasedPortions.dropLast }).releasedPortions = [] := by
      rw [hrel₁]
      rfl
    have hhead₂ := hhead.trans ((HeadOnly.refl
      { fl₁ with releasedPortions := fl₁.releasedPortions.dropLast }).congr_left rfl)
    -- unless the portion below is rewritten, `pn` is the one new page
    have hpushed : ({ fl₁ with releasedPortions := fl₁.releasedPortions.dropLast }.owned ++
        (toPush ++ [x]) ++ [pn]).Perm (fl.owned ++ toPush) := by
      rw [List.perm_iff_count]
      intro a
      have := h₁ a
      have := h₂ a
      simp only [List.count_append, List.count_cons, List.count_nil]
      omega
    split at h
    next newHeadPn newHeadPns hnew =>
      split at h
      next =>
        -- fragmentation: the portion below becomes the head, rewritten into the page popped
        obtain ⟨P, hP⟩ := List.getLast?_eq_some_iff.mp hnew
        replace hP : ({ fl₁ with releasedPortions := fl₁.releasedPortions.dropLast }).portions =
            P ++ [(newHeadPn, newHeadPns)] := hP
        refine preallocateLoop_owned_of_perm h (by rw [setHead_releasedPortions, hrel₂])
          (hhead₂.trans (HeadOnly.of_head hP (setHead_portions hP (pn, newHeadPns)) le_rfl)) ?_
        have h₃ := fun a => (owned_setHead_perm hP pn).count_eq a
        simp only [List.count_append, List.count_singleton] at h₃
        rw [List.perm_iff_count]
        intro a
        have := h₁ a
        have := h₂ a
        have := h₃ a
        simp only [List.count_append, List.count_cons, List.count_nil]
        omega
      next => exact preallocateLoop_owned_of_perm h hrel₂ hhead₂ hpushed
    next => exact preallocateLoop_owned_of_perm h hrel₂ hhead₂ hpushed
  next hx =>
    have hrel₁ : fl₁.releasedPortions = [] := List.getLast?_eq_none_iff.mp hx
    split at h
    next => cases h
    next headPn headPns hnew =>
      -- the head is rewritten into the page popped, and its old page pushed
      obtain ⟨P, hP⟩ := List.getLast?_eq_some_iff.mp hnew
      refine preallocateLoop_owned_of_perm h (by rw [setHead_releasedPortions, hrel₁])
        (hhead.trans (HeadOnly.of_head hP (setHead_portions hP (pn, headPns)) le_rfl)) ?_
      have h₃ := fun a => (owned_setHead_perm hP pn).count_eq a
      simp only [List.count_append, List.count_singleton] at h₃
      rw [List.perm_iff_count]
      intro a
      have := h₁ a
      have := h₃ a
      simp only [List.count_append, List.count_cons, List.count_nil]
      omega

/-! ### `push_and_encode` -/

theorem push_releasedPortions {fl fl' : FreeList} {pn : PageNumber} (h : fl.push pn = some fl') :
    fl'.releasedPortions = fl.releasedPortions := by
  unfold push at h
  split at h
  · cases h
  · split_ifs at h
    cases h
    rfl

/-- `push` puts the page number into the head, which stays within its page. -/
theorem push_owned {fl fl' : FreeList} {pn : PageNumber} (h : fl.push pn = some fl') :
    fl'.owned.Perm (fl.owned ++ [pn]) ∧ fl'.portions.dropLast = fl.portions.dropLast ∧
      (Bounded fl.portions → Bounded fl'.portions) := by
  obtain ⟨P, hp, hs, hP, hlt, hport⟩ := push_eq_some h
  refine ⟨?_, by rw [hport, hP, List.dropLast_concat, List.dropLast_concat], fun hb p hmem => ?_⟩
  · rw [owned_eq hport, owned_eq hP, push_releasedPortions h, List.perm_iff_count]
    intro a
    simp only [List.count_append, List.count_singleton]
    omega
  · rw [hport] at hmem
    rcases List.mem_append.mp hmem with hmem | hmem
    · exact hb p (by rw [hP]; exact List.mem_append_left _ hmem)
    · rw [List.mem_singleton.mp hmem, List.length_append, List.length_singleton]
      exact hlt

/-- A new empty portion on the page `n` adds that page alone. -/
theorem owned_newPortion (fl : FreeList) (n : PageNumber) :
    { fl with portions := fl.portions ++ [(n, [])] }.owned.Perm (fl.owned ++ [n]) := by
  rw [owned, allTrackedPages, owned, allTrackedPages, List.perm_iff_count]
  intro a
  simp only [List.map_append, stack_append, stack_singleton, List.count_append, List.map_singleton,
    List.count_singleton, List.count_nil]
  omega

theorem encodeHead_concat {fl : FreeList} {D : List (PageNumber × List PageNumber)}
    {q : PageNumber × List PageNumber} (h : fl.portions = D ++ [q]) (blank : List UInt8) :
    fl.encodeHead blank = some (q.1, encodeFreeListPage blank (lastAddr FREELIST_EMPTY D) q.2) := by
  rw [encodeHead, h, List.getLast?_concat, List.dropLast_concat]
  rfl

theorem encodeHead_nil {fl : FreeList} (h : fl.portions = []) (blank : List UInt8) :
    fl.encodeHead blank = none := by
  rw [encodeHead, h]
  rfl

/-- The head alone, encoded over the page of the portion below it, is the chain of pages from
there. -/
theorem encodeHead_eq_encodeChain (fl : FreeList) (blank : List UInt8) :
    ∃ U, fl.portions = fl.portions.dropLast ++ U ∧
      (fl.encodeHead blank).toList = encodeChain blank (lastAddr FREELIST_EMPTY fl.portions.dropLast) U := by
  rcases List.eq_nil_or_concat' fl.portions with hnil | ⟨D, q, hq⟩
  · refine ⟨[], by rw [hnil]; rfl, ?_⟩
    rw [encodeHead_nil hnil]
    rfl
  · refine ⟨[q], by rw [hq, List.dropLast_concat], ?_⟩
    rw [encodeHead_concat hq, hq, List.dropLast_concat]
    rfl

/-- The loop of `push_and_encode` puts the page numbers to push and the new pages it takes into
the free list, and encodes every portion from the head it found up, each over the page of the
portion below it, but the head it leaves. -/
theorem pushAndEncodeLoop_spec {blank : List UInt8} {toPush : List PageNumber} :
    ∀ {fl : FreeList} {newPages : List PageNumber}
      {res : FreeList × List PageNumber × List (PageNumber × List UInt8)},
      pushAndEncodeLoop fl blank newPages toPush = some res →
      (res.1.owned ++ res.2.1).Perm (fl.owned ++ newPages ++ toPush) ∧
        res.1.releasedPortions = fl.releasedPortions ∧
        (∃ U, res.1.portions = fl.portions.dropLast ++ U ∧
          res.2.2 ++ (res.1.encodeHead blank).toList =
            encodeChain blank (lastAddr FREELIST_EMPTY fl.portions.dropLast) U) ∧
        (Bounded fl.portions → Bounded res.1.portions) := by
  -- induction on the page numbers to push, one round of the loop each
  induction toPush with
  | nil =>
    intro fl newPages res h
    cases h
    obtain ⟨U, hU, henc⟩ := encodeHead_eq_encodeChain fl blank
    exact ⟨by rw [List.append_nil], rfl, ⟨U, hU, by rw [List.nil_append, henc]⟩, id⟩
  | cons pn rest ih =>
    intro fl newPages res h
    obtain ⟨fl₁, fl₂, newPages₁, res₂, hround, hpush, hloop, hres₁, hres₂⟩ :=
      pushAndEncodeLoop_cons_eq_some h
    obtain ⟨hperm, hrel, ⟨U, hU, henc⟩, hbounded⟩ := ih hloop
    obtain ⟨hperm₁, hbelow₁, hbounded₁⟩ := push_owned hpush
    rw [hres₁] at ⊢
    rcases hround with ⟨rfl, rfl, hencoded⟩ | ⟨n, rfl, rfl, hencoded, -⟩
    · -- pushed into the head
      refine ⟨?_, hrel.trans (push_releasedPortions hpush), ⟨U, by rw [hU, hbelow₁], ?_⟩,
        hbounded ∘ hbounded₁⟩
      · rw [hres₂, List.perm_iff_count]
        intro a
        have h₁ := hperm.count_eq a
        have h₂ := hperm₁.count_eq a
        simp only [List.count_append, List.count_cons, List.count_nil] at h₁ h₂ ⊢
        omega
      · rw [hencoded, henc, hbelow₁]
    · -- pushed into a new portion on the page `n`: the head below it is encoded
      have hbelow : fl₂.portions.dropLast = fl.portions := by
        rw [hbelow₁, List.dropLast_concat]
      have hrel₂ := push_releasedPortions hpush
      refine ⟨?_, hrel.trans hrel₂, ?_, fun hb => hbounded (hbounded₁ fun p hp => ?_)⟩
      · rw [hres₂, List.perm_iff_count]
        intro a
        have h₁ := hperm.count_eq a
        have h₂ := hperm₁.count_eq a
        have h₃ := (owned_newPortion fl n).count_eq a
        simp only [List.count_append, List.count_cons, List.count_nil] at h₁ h₂ h₃ ⊢
        omega
      · rw [hbelow] at hU henc
        rcases List.eq_nil_or_concat' fl.portions with hnil | ⟨D, q, hq⟩
        · refine ⟨U, by rw [hU, hnil]; rfl, ?_⟩
          rw [hencoded, encodeHead_nil hnil, hnil]
          rw [hnil] at henc
          exact henc
        · refine ⟨q :: U, by rw [hU, hq, List.dropLast_concat, List.append_assoc]; rfl, ?_⟩
          rw [hencoded, encodeHead_concat hq, hq, List.dropLast_concat, encodeChain_cons]
          rw [hq, lastAddr_concat] at henc
          rw [← henc]
          rfl
      · rcases List.mem_append.mp hp with hp | hp
        · exact hb p hp
        · rw [List.mem_singleton.mp hp]
          exact Nat.zero_le _

theorem setHead_setHead (fl : FreeList) (q q' : PageNumber × List PageNumber) :
    (fl.setHead q).setHead q' = fl.setHead q' := by
  simp only [FreeList.setHead, List.dropLast_concat]

theorem setHead_eq_self {fl : FreeList} {P : List (PageNumber × List PageNumber)}
    {q : PageNumber × List PageNumber} (hP : fl.portions = P ++ [q]) : fl.setHead q = fl := by
  obtain ⟨portions, popped, len, fragmented, releasedPortions⟩ := fl
  dsimp only at hP
  subst hP
  simp only [FreeList.setHead, List.dropLast_concat]

/-- Page numbers that fit the head go into it and encode nothing, while some are left to push
after them: the head is neither full nor, with more to come, fragmented. -/
theorem pushAndEncodeLoop_append_of_room {blank : List UInt8} {newPages : List PageNumber}
    {rest : List PageNumber} (hrest : rest ≠ []) {l : List PageNumber} :
    ∀ {fl : FreeList} {P : List (PageNumber × List PageNumber)} {hp : PageNumber}
      {hs : List PageNumber}, fl.portions = P ++ [(hp, hs)] →
      hs.length + l.length ≤ MAX_PNS_PER_PAGE →
      pushAndEncodeLoop fl blank newPages (l ++ rest) =
        pushAndEncodeLoop (fl.setHead (hp, hs ++ l)) blank newPages rest := by
  induction l with
  | nil =>
    intro fl P hp hs hP _
    rw [List.nil_append, List.append_nil, setHead_eq_self hP]
  | cons x l ih =>
    intro fl P hp hs hP hroom
    rw [List.length_cons] at hroom
    have hlt : hs.length < MAX_PNS_PER_PAGE := by omega
    have hpush : fl.push x = some (fl.setHead (hp, hs ++ [x])) := by
      rw [push, hP, List.getLast?_concat]
      exact if_pos hlt
    have hne : (l ++ rest).isEmpty = false := by simp [hrest]
    have hfull : (hs.length == MAX_PNS_PER_PAGE) = false := by simp; omega
    rw [List.cons_append]
    conv_lhs => rw [pushAndEncodeLoop.eq_def]
    simp only [hP, List.getLast?_concat, Option.map_some, Option.getD_some, hfull, hne, Bool.and_false, Bool.or_false,
      Bool.false_eq_true, ↓reduceIte, bind, pure, Option.bind_some, hpush]
    rw [ih (setHead_portions hP (hp, hs ++ [x])) (by simp; omega), setHead_setHead,
      List.append_assoc, List.singleton_append]
    cases pushAndEncodeLoop (fl.setHead (hp, hs ++ x :: l)) blank newPages rest <;> rfl

/-- `push_and_encode` uses every new page: it adds them and the page numbers to push to the free
list, and encodes every portion from the head it found up, each over the page of the portion
below it. -/
theorem pushAndEncode_spec {fl : FreeList} {blank : List UInt8} {toPush newPages : List PageNumber}
    {res : FreeList × List (PageNumber × List UInt8)}
    (h : fl.pushAndEncode blank toPush newPages = some res) :
    res.1.owned.Perm (fl.owned ++ newPages ++ toPush) ∧ res.1.releasedPortions = fl.releasedPortions ∧
      (∃ U, res.1.portions = fl.portions.dropLast ++ U ∧
        res.2 = encodeChain blank (lastAddr FREELIST_EMPTY fl.portions.dropLast) U) ∧
      (Bounded fl.portions → Bounded res.1.portions) := by
  simp only [pushAndEncode, bind, Option.bind_eq_some_iff] at h
  obtain ⟨⟨fl₁, newPages₁, encoded⟩, hloop, h⟩ := h
  split at h
  next hempty =>
    cases h
    obtain ⟨hperm, hrel, hU, hbounded⟩ := pushAndEncodeLoop_spec hloop
    rw [List.isEmpty_iff.mp hempty, List.append_nil] at hperm
    exact ⟨hperm, hrel, hU, hbounded⟩
  next => cases h

/-! ### `commit` -/

/-- `commit` either finds nothing to do, or rewrites the portions from a head at or below the
head it found: the portions below that head stay as they were, and every portion from it up is
encoded over the page of the portion below it. The free list then owns the pages it owned, the
page numbers pushed and the `k` pages bumped, and no released portion. -/
theorem commit_spec {fl : FreeList} {blank : List UInt8} {toPush : List PageNumber}
    {bump : PageNumber} {res : FreeList × List (PageNumber × List UInt8) × PageNumber}
    (h : fl.commit blank toPush bump = some res) :
    (fl.popped = false ∧ toPush = [] ∧ res = ({ fl with popped := false }, [], bump)) ∨
      ∃ K U k, K <+: fl.portions.dropLast ∧ res.1.portions = K ++ U ∧
        res.2.1 = encodeChain blank (lastAddr FREELIST_EMPTY K) U ∧
        res.2.2 = bump + UInt32.ofNat k ∧ res.1.owned.Perm (fl.owned ++ toPush ++ bumpRange bump k) ∧
        res.1.releasedPortions = [] ∧ (Bounded fl.portions → Bounded res.1.portions) := by
  unfold commit at h
  dsimp only at h
  split at h
  next hidle =>
    cases h
    have hidle' : fl.popped = false ∧ toPush = [] := by simpa using hidle
    exact .inl ⟨hidle'.1, hidle'.2, rfl⟩
  next =>
    simp only [bind, Option.bind_eq_some_iff] at h
    obtain ⟨⟨fl₁, toPush₁, bump₁, newPages⟩, hpre, ⟨fl₂, pages⟩, hpush, h⟩ := h
    cases h
    obtain ⟨k, hbump, hperm₁, hhead, hrel₁⟩ := preallocate_owned hpre rfl
    obtain ⟨hperm₂, hrel₂, ⟨U, hU, hpages⟩, hbounded⟩ := pushAndEncode_spec hpush
    refine .inr ⟨fl₁.portions.dropLast, U, k, hhead.below, hU, hpages, hbump, ?_, hrel₂.trans hrel₁,
      fun hb => hbounded (hhead.bounded hb)⟩
    -- the released portions are pushed with the freed pages
    have hrel : ({ fl with popped := false, releasedPortions := [] } : FreeList).owned ++
        fl.releasedPortions = fl.owned := by
      simp [owned, allTrackedPages]
    show fl₂.owned.Perm _
    rw [List.perm_iff_count]
    intro a
    have h₁ := hperm₁.count_eq a
    have h₂ := hperm₂.count_eq a
    have h₃ := congrArg (List.count a) hrel
    simp only [List.count_append] at h₁ h₂ h₃ ⊢
    omega

/-- A clean free list with no released portion is the one `read` makes of its portions. -/
theorem Clean.eq_ofPortions {fl : FreeList} (h : Clean fl) (hrel : fl.releasedPortions = []) :
    fl = FreeList.ofPortions fl.portions := by
  obtain ⟨portions, popped, len, fragmented, releasedPortions⟩ := fl
  obtain ⟨-, hpopped, hlf⟩ := h
  dsimp only at hpopped hlf hrel
  subst hpopped hrel
  rw [FreeList.ofPortions, hlf]

theorem eq_of_popped_eq_false {fl : FreeList} (h : fl.popped = false) :
    { fl with popped := false } = fl := by
  obtain ⟨portions, popped, len, fragmented, releasedPortions⟩ := fl
  dsimp only at h
  rw [h]

theorem Subperm.nodup_owned {l₁ l₂ : List PageNumber} (h : l₁.Subperm l₂) (h₂ : l₂.Nodup) :
    l₁.Nodup := by
  obtain ⟨l, hperm, hsub⟩ := h
  exact hperm.nodup_iff.mp (h₂.sublist hsub)

theorem mem_owned_of_mem_portions {fl : FreeList} {p : PageNumber × List PageNumber}
    (hp : p ∈ fl.portions) : p.1 ∈ fl.owned :=
  List.mem_append_left _ (List.mem_append_left _ (List.mem_map_of_mem hp))

theorem mem_owned_of_mem_stack {fl : FreeList} {p : PageNumber × List PageNumber}
    (hp : p ∈ fl.portions) {pn : PageNumber} (hpn : pn ∈ p.2) : pn ∈ fl.owned :=
  List.mem_append_left _ (List.mem_append_right _
    (List.mem_flatten.mpr ⟨p.2, List.mem_map_of_mem hp, hpn⟩))

/-- The page of each portion leads its entry in the list of pages owned, so they are distinct
when those are. -/
theorem nodup_pages_of_nodup_owned {fl : FreeList} (h : fl.owned.Nodup) :
    (fl.portions.map Prod.fst).Nodup :=
  h.sublist ((List.sublist_append_left _ _).trans (List.sublist_append_left _ _))

end FreeList

/-! ### The store -/

/-- `StoreSync`: the next page number of the store, and its free list. The capacity of the file
(`max_bump`) is left out with the growth of the file, which `finish` asks for when the bump
passes it. -/
structure StoreSync where
  bump : PageNumber
  freeList : FreeList
  deriving DecidableEq

/-- `StoreMeta`: the metadata a sync leaves. -/
structure StoreMeta where
  freelistPn : PageNumber
  bump : PageNumber
  deriving DecidableEq

/-- `SyncFinisher::finish`, after `allocations` allocations, the free-list pages encoded over the
pool page `blank`: the sync state, the pages to write, and the metadata. `none` is a panic. -/
def StoreSync.finish (sync : StoreSync) (blank : List UInt8) (allocations : Nat)
    (freed : List PageNumber) : Option (StoreSync × List (PageNumber × List UInt8) × StoreMeta) := do
  -- `discard` never discards more than it is asked to, so the subtraction does not underflow
  let (discarded, freeList) := sync.freeList.discard allocations
  let bumps := allocations - discarded
  -- remaining allocations all logically incremented bump
  let nextBump := sync.bump + UInt32.ofNat bumps
  let (freeList, freelistPages, nextBump) ← freeList.commit blank freed nextBump
  pure (⟨nextBump, freeList⟩, freelistPages, ⟨freeList.headPn.getD FREELIST_EMPTY, nextBump⟩)

/-- `finish` is a commit after `discard`, from the bump the allocations reached. -/
theorem StoreSync.finish_eq (sync : StoreSync) (blank : List UInt8) (allocations : Nat)
    (freed : List PageNumber) :
    sync.finish blank allocations freed =
      ((sync.freeList.discard allocations).2.commit blank freed
        (sync.bump + UInt32.ofNat (allocations - (sync.freeList.discard allocations).1))).map
        fun c => (⟨c.2.2, c.1⟩, c.2.1, ⟨c.1.headPn.getD FREELIST_EMPTY, c.2.2⟩) := by
  unfold StoreSync.finish
  rcases sync.freeList.discard allocations with ⟨discarded, fl₀⟩
  simp only [bind, pure]
  cases fl₀.commit blank freed (sync.bump + UInt32.ofNat (allocations - discarded)) <;> rfl

/-- The inversion lemma of `finish`. -/
theorem StoreSync.finish_eq_some {sync : StoreSync} {blank : List UInt8} {allocations : Nat}
    {freed : List PageNumber} {res : StoreSync × List (PageNumber × List UInt8) × StoreMeta}
    (h : sync.finish blank allocations freed = some res) :
    ∃ c, (sync.freeList.discard allocations).2.commit blank freed
        (sync.bump + UInt32.ofNat (allocations - (sync.freeList.discard allocations).1)) = some c ∧
      res = (⟨c.2.2, c.1⟩, c.2.1, ⟨c.1.headPn.getD FREELIST_EMPTY, c.2.2⟩) := by
  rw [StoreSync.finish_eq] at h
  obtain ⟨c, hc, rfl⟩ := Option.map_eq_some_iff.mp h
  exact ⟨c, hc, rfl⟩

/-- The head `Beatree::open` passes to `Store::open`: none for `FREELIST_EMPTY`. -/
def StoreMeta.freeListHead (m : StoreMeta) : Option PageNumber :=
  (some m.freelistPn).filter fun x => x != FREELIST_EMPTY

/-- `Store::open`: the free list read from the file, and the bump. -/
def openStore (file : StoreFile) (fuel : Nat) (bump : PageNumber) (freeListHead : Option PageNumber) :
    Option StoreSync :=
  (FreeList.read file fuel freeListHead).map fun freeList => ⟨bump, freeList⟩

/-- A store between syncs: its sync state, the metadata of its last sync, and its file. -/
structure Store where
  sync : StoreSync
  storeMeta : StoreMeta
  file : StoreFile

/-- The stores a run reaches: a new store, then in any order syncs, writes of the tree's own
pages, growth of the file and reopenings. -/
inductive Reachable : Store → Prop
  /-- A new store: no free list, and page `0` kept for `FREELIST_EMPTY`. -/
  | create {file : StoreFile} {fuel : Nat} {sync : StoreSync}
      (hopen : openStore file fuel 1 none = some sync) :
      Reachable ⟨sync, ⟨FREELIST_EMPTY, 1⟩, file⟩
  /-- The store opened again from its metadata. -/
  | reopen {st : Store} {fuel : Nat} {sync : StoreSync} (h : Reachable st)
      (hopen : openStore st.file fuel st.storeMeta.bump st.storeMeta.freeListHead = some sync) :
      Reachable { st with sync }
  /-- A sync, its free-list pages written to the file. The pages freed are distinct, and were
  allocated: they are not the free list's after `discard`, and lie below the bump the
  allocations reached. The store stays within the page numbers a `u32` holds. -/
  | sync {st : Store} {blank : List UInt8} {allocations : Nat} {freed : List PageNumber}
      {res : StoreSync × List (PageNumber × List UInt8) × StoreMeta} (h : Reachable st)
      (hblank : blank.length = PAGE_SIZE) (hnodup : freed.Nodup)
      (hfreed : ∀ pn ∈ freed, pn ∉ (st.sync.freeList.discard allocations).2.owned ∧
        0 < pn.toNat ∧
        pn.toNat < st.sync.bump.toNat + (allocations - (st.sync.freeList.discard allocations).1))
      (hfinish : st.sync.finish blank allocations freed = some res)
      (hroom : st.sync.bump.toNat + allocations + res.1.freeList.owned.length < 2 ^ 32) :
      Reachable ⟨res.1, res.2.2, { st.file with pages := Undo.write st.file.pages res.2.1 }⟩
  /-- The tree writes one of its own pages, none of the free list's. -/
  | write {st : Store} {pn : PageNumber} {page : List UInt8} (h : Reachable st)
      (hpn : ∀ p ∈ st.sync.freeList.portions, p.1 ≠ pn) :
      Reachable { st with file := { st.file with pages := Function.update st.file.pages pn page } }
  /-- The file grows. -/
  | grow {st : Store} {len : Nat} (h : Reachable st) (hlen : st.file.len ≤ len) :
      Reachable { st with file := { st.file with len } }

open FreeList

/-- What every store a run reaches keeps: a clean free list of portions that fit their pages,
with no released portion; the pages it owns distinct, nonzero and below the bump; its portions a
chain of pages in the file; and metadata naming its head page and the bump. -/
structure Kept (st : Store) : Prop where
  clean : Clean st.sync.freeList
  bounded : Bounded st.sync.freeList.portions
  released : st.sync.freeList.releasedPortions = []
  nodup : st.sync.freeList.owned.Nodup
  bump_pos : 0 < st.sync.bump.toNat
  lt_bump : ∀ pn ∈ st.sync.freeList.owned, 0 < pn.toNat ∧ pn.toNat < st.sync.bump.toNat
  stored : Stored st.file st.sync.freeList.portions
  storeMeta_eq : st.storeMeta = ⟨st.sync.freeList.headPn.getD FREELIST_EMPTY, st.sync.bump⟩

namespace Kept

variable {st : Store}

/-- A clean free list with no released portion is the one `read` makes of its portions. -/
theorem eq_ofPortions (h : Kept st) : st.sync.freeList = ofPortions st.sync.freeList.portions :=
  h.clean.eq_ofPortions h.released

/-- No portion lies on the page `FREELIST_EMPTY`: every page owned is nonzero. -/
theorem portion_ne_empty (h : Kept st) {p : PageNumber × List PageNumber}
    (hp : p ∈ st.sync.freeList.portions) : p.1 ≠ FREELIST_EMPTY := by
  intro h0
  have hpos := (h.lt_bump _ (mem_owned_of_mem_portions hp)).1
  rw [h0] at hpos
  exact absurd hpos (by decide)

/-- The metadata names the head page, which is never `FREELIST_EMPTY`. -/
theorem freeListHead_eq (h : Kept st) :
    st.storeMeta.freeListHead = st.sync.freeList.portions.getLast?.map Prod.fst := by
  rw [h.storeMeta_eq, StoreMeta.freeListHead, headPn]
  rcases hlast : st.sync.freeList.portions.getLast? with _ | p
  · rfl
  · simp [h.portion_ne_empty (List.mem_of_getLast? hlast)]

/-- Reopening a store reads back the free list it held, whenever the read succeeds. -/
theorem openStore_eq (h : Kept st) {fuel : Nat} {sync : StoreSync}
    (hopen : openStore st.file fuel st.storeMeta.bump st.storeMeta.freeListHead = some sync) :
    sync = st.sync := by
  rw [openStore, h.freeListHead_eq] at hopen
  obtain ⟨fl, hread, rfl⟩ := Option.map_eq_some_iff.mp hopen
  rw [eq_ofPortions_of_read h.stored h.bounded (fun _ => h.portion_ne_empty) hread, ← h.eq_ofPortions,
    h.storeMeta_eq]

/-- Reopening a store reads back the free list it held, given fuel for its portions, when the
file holds every page below the bump and its page numbers fit a `u32`. -/
theorem openStore_eq_some (h : Kept st) (hlen : st.sync.bump.toNat * PAGE_SIZE ≤ st.file.len)
    (hfile : st.file.len / PAGE_SIZE < 2 ^ 32) {fuel : Nat}
    (hfuel : st.sync.freeList.portions.length < fuel) :
    openStore st.file fuel st.storeMeta.bump st.storeMeta.freeListHead = some st.sync := by
  have hbelow : st.sync.bump.toNat ≤ st.file.len / PAGE_SIZE :=
    (Nat.le_div_iff_mul_le (by decide)).mpr hlen
  have hpn : ∀ p ∈ st.sync.freeList.portions,
      p.1 ≠ FREELIST_EMPTY ∧ (p.1.toNat + 1) * PAGE_SIZE ≤ st.file.len := by
    intro p hp
    have hlt := (h.lt_bump _ (mem_owned_of_mem_portions hp)).2
    exact ⟨h.portion_ne_empty hp, Nat.le_trans (Nat.mul_le_mul_right _ hlt) hlen⟩
  have hitems : ∀ p ∈ st.sync.freeList.portions, ∀ pn ∈ p.2, pn.toNat < st.file.len / PAGE_SIZE :=
    fun p hp pn hpn' => Nat.lt_of_lt_of_le (h.lt_bump _ (mem_owned_of_mem_stack hp hpn')).2 hbelow
  rw [openStore, h.freeListHead_eq, read_eq_some h.stored h.bounded hpn hitems hfile hfuel,
    ← h.eq_ofPortions, h.storeMeta_eq]
  rfl

/-! ### Each step keeps the invariant -/

theorem create {file : StoreFile} {fuel : Nat} {sync : StoreSync}
    (hopen : openStore file fuel 1 none = some sync) : Kept ⟨sync, ⟨FREELIST_EMPTY, 1⟩, file⟩ := by
  rw [openStore, read_none, Option.map_some] at hopen
  cases hopen
  exact ⟨Clean.ofPortions Shape.nil, (fun _ hp => by cases hp), rfl, List.nodup_nil,
    (by decide : 0 < (1 : PageNumber).toNat),
    (fun _ hpn => by cases hpn), (fun _ he => by cases he), rfl⟩

theorem reopen (h : Kept st) {fuel : Nat} {sync : StoreSync}
    (hopen : openStore st.file fuel st.storeMeta.bump st.storeMeta.freeListHead = some sync) :
    Kept { st with sync } := by
  obtain rfl := h.openStore_eq hopen
  exact h

/-- A write to a page that holds no portion leaves the chain of portion pages as it was. -/
theorem write (h : Kept st) {pn : PageNumber} {page : List UInt8}
    (hpn : ∀ p ∈ st.sync.freeList.portions, p.1 ≠ pn) :
    Kept { st with file := { st.file with pages := Function.update st.file.pages pn page } } := by
  refine ⟨h.clean, h.bounded, h.released, h.nodup, h.bump_pos, h.lt_bump, fun e he => ?_,
    h.storeMeta_eq⟩
  show HoldsPortion (Function.update st.file.pages pn page e.1) e.2
  rw [Function.update_of_ne (hpn _ (mem_of_mem_chain he))]
  exact h.stored e he

theorem grow (h : Kept st) (len : Nat) : Kept { st with file := { st.file with len } } :=
  ⟨h.clean, h.bounded, h.released, h.nodup, h.bump_pos, h.lt_bump, h.stored, h.storeMeta_eq⟩

section Finish

variable {blank : List UInt8} {allocations : Nat} {freed : List PageNumber}

/-- A sync with nothing popped and nothing freed only moves the bump past the allocations. -/
theorem finish_idle (h : Kept st) {bump : PageNumber}
    (hbump : bump.toNat = st.sync.bump.toNat + (allocations - (st.sync.freeList.discard allocations).1))
    (hpopped : (st.sync.freeList.discard allocations).2.popped = false) :
    Kept ⟨⟨bump, { (st.sync.freeList.discard allocations).2 with popped := false }⟩,
      ⟨({ (st.sync.freeList.discard allocations).2 with popped := false } : FreeList).headPn.getD
        FREELIST_EMPTY, bump⟩, { st.file with pages := Undo.write st.file.pages [] }⟩ := by
  have hfl : (st.sync.freeList.discard allocations).2 = st.sync.freeList := discardLoop_popped hpopped
  rw [hfl, eq_of_popped_eq_false h.clean.popped, Undo.write_nil]
  refine ⟨h.clean, h.bounded, h.released, h.nodup, ?_, fun pn hpn => ?_, h.stored, rfl⟩
  · show 0 < bump.toNat
    have := h.bump_pos
    omega
  · show 0 < pn.toNat ∧ pn.toNat < bump.toNat
    have := h.lt_bump pn hpn
    omega

/-- A sync that commits keeps the invariant: the pages the free list owns after it are those it
kept through `discard`, the pages freed and the pages bumped, all distinct and below the new bump;
and the pages it writes extend the chain of the portions it kept. -/
theorem finish_commit (h : Kept st) (hblank : blank.length = PAGE_SIZE) (hnodup : freed.Nodup)
    (hfreed : ∀ pn ∈ freed, pn ∉ (st.sync.freeList.discard allocations).2.owned ∧ 0 < pn.toNat ∧
      pn.toNat < st.sync.bump.toNat + (allocations - (st.sync.freeList.discard allocations).1))
    {c : FreeList × List (PageNumber × List UInt8) × PageNumber}
    (hc : (st.sync.freeList.discard allocations).2.commit blank freed
      (st.sync.bump + UInt32.ofNat (allocations - (st.sync.freeList.discard allocations).1)) = some c)
    {K U : List (PageNumber × List PageNumber)} {k : Nat}
    (hK : K <+: (st.sync.freeList.discard allocations).2.portions.dropLast)
    (hport : c.1.portions = K ++ U) (hpages : c.2.1 = encodeChain blank (lastAddr FREELIST_EMPTY K) U)
    (hbump : c.2.2 = st.sync.bump + UInt32.ofNat (allocations - (st.sync.freeList.discard allocations).1) +
      UInt32.ofNat k)
    (hperm : c.1.owned.Perm ((st.sync.freeList.discard allocations).2.owned ++ freed ++
      bumpRange (st.sync.bump + UInt32.ofNat (allocations - (st.sync.freeList.discard allocations).1)) k))
    (hrel : c.1.releasedPortions = [])
    (hbounded : Bounded (st.sync.freeList.discard allocations).2.portions → Bounded c.1.portions)
    (hroom : st.sync.bump.toNat + allocations + c.1.owned.length < 2 ^ 32) :
    Kept ⟨⟨c.2.2, c.1⟩, ⟨c.1.headPn.getD FREELIST_EMPTY, c.2.2⟩,
      { st.file with pages := Undo.write st.file.pages c.2.1 }⟩ := by
  have hclean := Clean.sync h.clean hc
  have hdisc : (st.sync.freeList.discard allocations).2.owned.Subperm st.sync.freeList.owned ∧
      HeadOnly st.sync.freeList (st.sync.freeList.discard allocations).2 := discardLoop_owned
  generalize st.sync.freeList.discard allocations = D at *
  obtain ⟨hsub', hhead⟩ := hdisc
  have hpos := h.bump_pos
  -- no bump wraps: the pages bumped are among those the free list owns
  have hk : k ≤ c.1.owned.length := by
    rw [hperm.length_eq, List.length_append, length_bumpRange]
    omega
  have hb₀ := toNat_add_ofNat (a := st.sync.bump) (n := allocations - D.1) (by omega)
  have hb' : c.2.2.toNat = st.sync.bump.toNat + (allocations - D.1) + k := by
    rw [hbump, toNat_add_ofNat (by omega), hb₀]
  -- where each page the free list owns comes from
  have hfrom : ∀ pn ∈ c.1.owned, pn ∈ st.sync.freeList.owned ∨ pn ∈ freed ∨
      pn ∈ bumpRange (st.sync.bump + UInt32.ofNat (allocations - D.1)) k := by
    intro pn hpn
    rcases List.mem_append.mp (hperm.subset hpn) with hpn | hpn
    · rcases List.mem_append.mp hpn with hpn | hpn
      · exact .inl (hsub'.subset hpn)
      · exact .inr (.inl hpn)
    · exact .inr (.inr hpn)
  have hrange := fun pn (hpn : pn ∈ bumpRange (st.sync.bump + UInt32.ofNat (allocations - D.1)) k) =>
    toNat_of_mem_bumpRange (by omega) hpn
  have hnodup' : c.1.owned.Nodup := by
    refine hperm.nodup_iff.mpr (List.nodup_append.mpr ⟨List.nodup_append.mpr
      ⟨Subperm.nodup_owned hsub' h.nodup, hnodup, fun a ha b hb hab => (hfreed b hb).1 (hab ▸ ha)⟩,
      nodup_bumpRange (by omega), fun a ha b hb hab => ?_⟩)
    have hb := (hrange b hb).1
    rcases List.mem_append.mp ha with ha | ha
    · have := (h.lt_bump a (hsub'.subset ha)).2
      rw [hab] at this
      omega
    · have := (hfreed a ha).2.2
      rw [hab] at this
      omega
  refine ⟨hclean, hbounded (hhead.bounded h.bounded), hrel, hnodup', ?_, fun pn hpn => ?_, ?_, rfl⟩
  · show 0 < c.2.2.toNat
    omega
  · show 0 < pn.toNat ∧ pn.toNat < c.2.2.toNat
    rcases hfrom pn hpn with hpn | hpn | hpn
    · have := h.lt_bump pn hpn
      omega
    · have := hfreed pn hpn
      omega
    · have := hrange pn hpn
      omega
  · -- the pages written extend the chain of the portions kept
    have hK' : K <+: st.sync.freeList.portions :=
      (hK.trans hhead.below).trans (List.dropLast_prefix _)
    have hchain := Holds.write_chain (h.stored.of_prefix hK')
      (fun node => encodeFreeListPage blank node.1 node.2) (fun node => ⟨blank, hblank, rfl⟩)
      (by rw [← hport]; exact nodup_pages_of_nodup_owned hnodup')
    show Holds (Undo.write st.file.pages c.2.1) HoldsPortion FREELIST_EMPTY c.1.portions
    rw [hport, hpages]
    exact hchain

/-- A sync keeps the invariant. -/
theorem finish (h : Kept st) (hblank : blank.length = PAGE_SIZE) (hnodup : freed.Nodup)
    (hfreed : ∀ pn ∈ freed, pn ∉ (st.sync.freeList.discard allocations).2.owned ∧ 0 < pn.toNat ∧
      pn.toNat < st.sync.bump.toNat + (allocations - (st.sync.freeList.discard allocations).1))
    {res : StoreSync × List (PageNumber × List UInt8) × StoreMeta}
    (hfinish : st.sync.finish blank allocations freed = some res)
    (hroom : st.sync.bump.toNat + allocations + res.1.freeList.owned.length < 2 ^ 32) :
    Kept ⟨res.1, res.2.2, { st.file with pages := Undo.write st.file.pages res.2.1 }⟩ := by
  obtain ⟨c, hc, rfl⟩ := StoreSync.finish_eq_some hfinish
  rcases commit_spec hc with ⟨hpopped, -, rfl⟩ |
    ⟨K, U, k, hK, hport, hpages, hbump, hperm, hrel, hbounded⟩
  · exact h.finish_idle (toNat_add_ofNat (by omega)) hpopped
  · exact h.finish_commit hblank hnodup hfreed hc hK hport hpages hbump hperm hrel hbounded hroom

end Finish

end Kept

/-- Every store a run reaches keeps the invariant. -/
theorem Reachable.kept {st : Store} (h : Reachable st) : Kept st := by
  induction h with
  | create hopen => exact Kept.create hopen
  | reopen _ hopen ih => exact ih.reopen hopen
  | sync _ hblank hnodup hfreed hfinish hroom ih => exact ih.finish hblank hnodup hfreed hfinish hroom
  | write _ hpn ih => exact ih.write hpn
  | grow _ _ ih => exact ih.grow _

end Nomt.Allocator

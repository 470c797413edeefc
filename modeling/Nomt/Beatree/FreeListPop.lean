import Nomt.Beatree.FreeListSync

/-!
# The pop view of a clean free list (`CleanFreeList::get_nth_pop`)

Between syncs the allocator hands out the pages the free list would pop without popping them:
`get_nth_pop n` reads the `n + 1`-th page number from the top of the stack by index arithmetic
over the portions. That arithmetic takes every portion below the head to be full, with the one
exception of the fragmented form, where the head holds one page number and the portion below it
one short of full.

`nthPop_eq` says what repeated pops return: the stack read from its top. `getNthPop_eq` says that
`get_nth_pop` reads the same on a clean free list, in either form: the head first, and then full
portions indexed by `PagedStack.getElem?_reverse_flatten` (`getElem?_bind_of_full`). On a clean
free list `len` is the length of the stack (`Clean.len_eq`), and every free list a store holds,
through any run of syncs, writes and reopenings, is clean (`Reachable.kept`), so for every
`n < len` the two agree.
-/

namespace Nomt.Allocator

open Overflow (PAGE_SIZE PageNumber)

namespace FreeList

variable {fl : FreeList}

/-- The `n + 1`-th of repeated pops is the `n`-th page number from the top of the stack. -/
theorem nthPop_eq (hne : ∀ p ∈ fl.portions, p.2 ≠ []) (n : Nat) :
    fl.nthPop n = some (stack fl.portions).reverse[n]? := by
  -- induction on the pops, each taking the top of the stack
  induction n generalizing fl with
  | zero =>
    obtain ⟨fl', r, hpop⟩ := pop_isSome hne
    rw [nthPop, hpop, (pop_stack hpop).2, ← List.head?_reverse, List.head?_eq_getElem?]
    rfl
  | succ n ih =>
    obtain ⟨fl', r, hpop⟩ := pop_isSome hne
    rw [nthPop, hpop, Option.bind_eq_bind, Option.bind_some]
    dsimp only
    rw [ih (pop_nonempty hne hpop), (pop_stack hpop).1, ← List.tail_reverse, List.getElem?_tail]

theorem length_stack_of_full {P : List (PageNumber × List PageNumber)}
    (h : ∀ p ∈ P, p.2.length = MAX_PNS_PER_PAGE) :
    (stack P).length = P.length * MAX_PNS_PER_PAGE := by
  induction P with
  | nil => rfl
  | cons q P ih =>
    rw [stack_cons, List.length_append, h q (List.mem_cons_self ..),
      ih fun p hp => h p (List.mem_cons_of_mem _ hp), List.length_cons, Nat.succ_mul, Nat.add_comm]

/-- The `m`-th page number from the top of full portions `P`, read as `get_nth_pop` does from the
portion `m / MAX_PNS_PER_PAGE` from their top, whatever portions lie above them. -/
theorem getElem?_bind_of_full {P : List (PageNumber × List PageNumber)}
    (hP : ∀ p ∈ P, p.2.length = MAX_PNS_PER_PAGE) (Q : List (PageNumber × List PageNumber))
    {m j : Nat} (hm : m < (stack P).length) (hj : j = P.length - 1 - m / MAX_PNS_PER_PAGE) :
    ((P ++ Q)[j]? >>= fun p => p.2[MAX_PNS_PER_PAGE - m % MAX_PNS_PER_PAGE - 1]?) =
      (stack P).reverse[m]? := by
  rw [length_stack_of_full hP] at hm
  have hjlt : j < P.length := by
    have hdiv : m / MAX_PNS_PER_PAGE < P.length := (Nat.div_lt_iff_lt_mul maxPns_pos).mpr hm
    rw [hj]
    generalize m / MAX_PNS_PER_PAGE = q at hdiv
    omega
  have hpages : ∀ page ∈ P.map Prod.snd, page.length = MAX_PNS_PER_PAGE := by
    simp only [List.mem_map]
    rintro _ ⟨p, hp, rfl⟩
    exact hP p hp
  rw [stack, PagedStack.getElem?_reverse_flatten hpages (by rw [List.length_map]; exact hm),
    List.length_map, ← hj, List.getElem?_append_left hjlt, List.getElem?_map, Option.bind_eq_bind,
    Option.bind_map, Nat.sub_right_comm]
  rfl

/-- `get_nth_pop` on a free list with every portion below the head full: the head read from its
top, then the full portions. -/
theorem getNthPop_of_fullBelowHead (hfrag : fl.fragmented = false)
    (hfull : FullBelowHead fl.portions) {n : Nat} (hn : n < (stack fl.portions).length) :
    fl.getNthPop n = (stack fl.portions).reverse[n]? := by
  rcases List.eq_nil_or_concat fl.portions with hnil | ⟨R, q, hport⟩
  · rw [hnil] at hn
    cases hn
  rw [List.concat_eq_append] at hport
  have hR : ∀ p ∈ R, p.2.length = MAX_PNS_PER_PAGE :=
    fun p hp => hfull p (by rw [hport, List.dropLast_concat]; exact hp)
  rw [hport, stack_append, stack_singleton, List.length_append] at hn
  rw [hport, stack_append, stack_singleton, List.reverse_append]
  simp only [getNthPop, hfrag, hport, Bool.false_eq_true, ↓reduceIte, List.length_append,
    List.length_singleton, Nat.add_sub_cancel, List.getElem?_concat_length, Option.bind_eq_bind,
    Option.bind_some]
  rw [if_neg (by omega)]
  by_cases hlt : n < q.2.length
  · -- in the head
    rw [if_pos hlt, List.getElem?_append_left (by rwa [List.length_reverse]),
      List.getElem?_reverse hlt, Nat.sub_right_comm]
  · -- in a full portion below it
    have hm : n - q.2.length < (stack R).length := by omega
    have hdiv : (n - q.2.length) / MAX_PNS_PER_PAGE < R.length := by
      rw [length_stack_of_full hR] at hm
      exact (Nat.div_lt_iff_lt_mul maxPns_pos).mpr hm
    have hbelow : (q.2.reverse ++ (stack R).reverse)[n]? = (stack R).reverse[n - q.2.length]? := by
      rw [List.getElem?_append_right (by rw [List.length_reverse]; omega), List.length_reverse]
    rw [if_neg hlt, if_neg (by omega), hbelow]
    exact getElem?_bind_of_full hR [q] hm
      (by generalize (n - q.2.length) / MAX_PNS_PER_PAGE = x at hdiv; omega)

/-- `get_nth_pop` on a fragmented free list: the head's one page number, then the portion one
short of full below it, then full portions. -/
theorem getNthPop_of_fragmented (hfrag : fl.fragmented = true) (hshape : Fragmented fl.portions)
    {n : Nat} (hn : n < (stack fl.portions).length) :
    fl.getNthPop n = (stack fl.portions).reverse[n]? := by
  obtain ⟨below, a, ⟨bp, bs⟩, hport, hbelow, ha, hb⟩ := hshape
  obtain ⟨y, rfl⟩ := List.length_eq_one_iff.mp hb
  have hstack : (stack fl.portions).reverse = y :: (a.2.reverse ++ (stack below).reverse) := by
    rw [hport, stack_append]
    simp
  rw [hport, stack_append] at hn
  simp only [stack_cons, stack_nil, List.append_nil, List.length_append, List.length_singleton] at hn
  rw [hstack]
  simp only [getNthPop, hfrag, hport, ↓reduceIte, List.length_append, List.length_cons,
    List.length_nil, Option.bind_eq_bind]
  rcases Nat.eq_zero_or_pos n with rfl | hpos
  · -- the head's page number
    rw [if_pos rfl, if_neg (by omega), show below.length + (0 + 1 + 1) - 1 = below.length + 1 by omega,
      List.getElem?_append_right (by omega), show below.length + 1 - below.length = 1 by omega]
    rfl
  rw [if_neg (by omega)]
  by_cases hlt : n < MAX_PNS_PER_PAGE
  · -- in the portion one short of full
    obtain ⟨n', rfl⟩ : ∃ n', n = n' + 1 := ⟨n - 1, by omega⟩
    rw [if_pos hlt, if_neg (by omega), show below.length + (0 + 1 + 1) - 2 = below.length by omega,
      List.getElem?_append_right (Nat.le_refl _), Nat.sub_self, List.getElem?_cons_succ,
      List.getElem?_append_left (by rw [List.length_reverse, ha]; omega),
      List.getElem?_reverse (by rw [ha]; omega), ha,
      show MAX_PNS_PER_PAGE - 1 - 1 - n' = MAX_PNS_PER_PAGE - (n' + 1) - 1 by omega]
    rfl
  · -- in a full portion below those
    obtain ⟨m, rfl⟩ := Nat.exists_eq_add_of_le (Nat.le_of_not_lt hlt)
    have hm : m < (stack below).length := by
      have := maxPns_pos
      omega
    have hdiv : m / MAX_PNS_PER_PAGE < below.length := by
      rw [length_stack_of_full hbelow] at hm
      exact (Nat.div_lt_iff_lt_mul maxPns_pos).mpr hm
    have hrest : (y :: (a.2.reverse ++ (stack below).reverse))[MAX_PNS_PER_PAGE + m]? =
        (stack below).reverse[m]? := by
      obtain ⟨k, hk⟩ : ∃ k, MAX_PNS_PER_PAGE = k + 1 :=
        ⟨MAX_PNS_PER_PAGE - 1, by have := maxPns_pos; omega⟩
      rw [hk, Nat.add_right_comm, List.getElem?_cons_succ,
        List.getElem?_append_right (by rw [List.length_reverse, ha, hk]; omega),
        List.length_reverse, ha, hk]
      congr 1
      omega
    rw [if_neg hlt, Nat.add_div_left _ maxPns_pos, Nat.add_mod_left,
      if_neg (by generalize m / MAX_PNS_PER_PAGE = x at hdiv; omega), hrest]
    exact getElem?_bind_of_full hbelow [a, (bp, [y])] hm
      (by generalize m / MAX_PNS_PER_PAGE = x at hdiv; omega)

/-- Under the shape, `len_and_fragmented` counts the stack and tells the two forms apart. -/
theorem Shape.lenAndFragmented_eq {P : List (PageNumber × List PageNumber)} (h : Shape P) :
    (lenAndFragmented P = ((stack P).length, false) ∧ FullBelowHead P) ∨
      (lenAndFragmented P = ((stack P).length, true) ∧ Fragmented P) := by
  rcases List.eq_nil_or_concat P with rfl | ⟨R, q, rfl⟩
  · exact .inl ⟨rfl, fun p hp => by cases hp⟩
  rw [List.concat_eq_append]
  rcases List.eq_nil_or_concat R with rfl | ⟨S, a, rfl⟩
  · -- a single portion
    refine .inl ⟨?_, fun p hp => by cases hp⟩
    simp [Allocator.lenAndFragmented]
  rw [List.concat_eq_append]
  simp only [List.concat_eq_append] at h
  have hlen : (S ++ [a] ++ [q]).length = S.length + 1 + 1 := by simp
  have hstack : (stack (S ++ [a] ++ [q])).length = (stack S).length + a.2.length + q.2.length := by
    simp [Nat.add_assoc]
  simp only [Allocator.lenAndFragmented, List.getLast?_concat, List.dropLast_concat, hlen, hstack,
    Nat.add_sub_cancel]
  rcases h.full_or_fragmented with hfull | ⟨below, a', b', heq, hbelow, ha, hb⟩
  · -- every portion below the head full
    have hS : ∀ p ∈ S, p.2.length = MAX_PNS_PER_PAGE :=
      fun p hp => hfull p (by rw [List.dropLast_concat]; exact List.mem_append_left _ hp)
    have ha : a.2.length = MAX_PNS_PER_PAGE := hfull a (by simp)
    refine .inl ⟨?_, hfull⟩
    rw [length_stack_of_full hS, ha, Nat.succ_mul]
    split_ifs with hq
    · simp [hq]
    · rfl
  · -- the fragmented form
    rw [List.append_assoc, List.singleton_append] at heq
    obtain ⟨rfl, hab⟩ := List.append_inj' heq rfl
    obtain ⟨rfl, rfl⟩ : a = a' ∧ q = b' := by simpa using hab
    refine .inr ⟨?_, S, a, q, by simp, hbelow, ha, hb⟩
    have hne : a.2.length ≠ MAX_PNS_PER_PAGE := by
      have := maxPns_pos
      omega
    rw [if_pos hb, length_stack_of_full hbelow, hb, decide_eq_true hne]
    rfl

/-- The length of a clean free list is that of its stack. -/
theorem Clean.len_eq (h : Clean fl) : fl.len = (stack fl.portions).length := by
  rcases h.shape.lenAndFragmented_eq with ⟨heq, -⟩ | ⟨heq, -⟩ <;>
    · rw [h.lenAndFragmented] at heq
      exact (Prod.mk.inj heq).1

/-- `get_nth_pop` on a clean free list reads the stack from its top. -/
theorem Clean.getNthPop_eq (h : Clean fl) {n : Nat} (hn : n < (stack fl.portions).length) :
    fl.getNthPop n = (stack fl.portions).reverse[n]? := by
  rcases h.shape.lenAndFragmented_eq with ⟨heq, hfull⟩ | ⟨heq, hfrag⟩
  · rw [h.lenAndFragmented] at heq
    exact getNthPop_of_fullBelowHead (Prod.mk.inj heq).2 hfull hn
  · rw [h.lenAndFragmented] at heq
    exact getNthPop_of_fragmented (Prod.mk.inj heq).2 hfrag hn

/-- Every free list a store holds keeps the shape, and `get_nth_pop n` returns, for every
`n < len`, the page number the `n + 1`-th of repeated pops returns. -/
theorem getNthPop_eq_nthPop {st : Store} (h : Reachable st) :
    Shape st.sync.freeList.portions ∧
      ∀ n < st.sync.freeList.len, ∃ pn, st.sync.freeList.getNthPop n = some pn ∧
        st.sync.freeList.nthPop n = some (some pn) := by
  have hclean := h.kept.clean
  refine ⟨hclean.shape, fun n hn => ?_⟩
  rw [hclean.len_eq] at hn
  have hidx : n < (stack st.sync.freeList.portions).reverse.length := by rwa [List.length_reverse]
  refine ⟨(stack st.sync.freeList.portions).reverse[n], ?_, ?_⟩
  · rw [hclean.getNthPop_eq hn, List.getElem?_eq_getElem hidx]
  · rw [nthPop_eq hclean.shape.nonempty, List.getElem?_eq_getElem hidx]

/-- A commit of the 1021 pages from `3` onto one portion of two page numbers, on page `1101`:
the pop takes page `2` and releases the portion, so pages `1` and `2` are the new pages; the
pushes fill a portion on page `1` to one short of full, and the last page number pushed, the
released `1101`, goes into a portion of its own on page `2`. -/
theorem commit_fragmenting : ∃ pages, (⟨[(1101, [1, 2])], false, 2, false, []⟩ : FreeList).commit
    (List.replicate PAGE_SIZE 0) (bumpRange 3 1021) 1102 =
      some (ofPortions [(1, bumpRange 3 1021), (2, [1101])], pages, 1102) := by
  have hpre : (⟨[(1101, [1, 2])], false, 2, false, []⟩ : FreeList).preallocate
      (bumpRange 3 1021 ++ []) 1102 =
      some (⟨[], true, 2, false, []⟩, bumpRange 3 1021 ++ [] ++ [1101], 1102, [1, 2]) := by
    decide +kernel
  -- the first page number opens the portion on page `1`; the next 1020 fit it, so the loop
  -- reaches the last one with the portion one short of full
  have hfirst : ∀ L, pushAndEncodeLoop ⟨[], true, 2, false, []⟩ (List.replicate PAGE_SIZE 0) [1, 2]
      (3 :: L) = (pushAndEncodeLoop ⟨[(1, [3])], true, 2, false, []⟩ (List.replicate PAGE_SIZE 0) [2]
        L).bind fun r => some (r.1, r.2.1, [] ++ r.2.2) := fun L => rfl
  obtain ⟨⟨fl, newPages, encoded⟩, hlast, hres⟩ := Option.map_eq_some_iff.mp (show
    (pushAndEncodeLoop (FreeList.setHead ⟨[(1, [3])], true, 2, false, []⟩ (1, [3] ++ bumpRange 4 1020))
      (List.replicate PAGE_SIZE 0) [2] [1101]).map (fun r => (r.1, r.2.1)) =
      some (⟨[(1, [3] ++ bumpRange 4 1020), (2, [1101])], true, 2, false, []⟩, []) by decide +kernel)
  simp only [Prod.mk.injEq] at hres
  obtain ⟨rfl, rfl⟩ := hres
  have hloop := hfirst (bumpRange 4 1020 ++ [1101])
  rw [pushAndEncodeLoop_append_of_room (P := []) (by simp) rfl (by simp [maxPns_eq]), hlast] at hloop
  have hT : bumpRange 3 1021 ++ [] ++ [1101] = 3 :: (bumpRange 4 1020 ++ [1101]) := by
    rw [List.append_nil, bumpRange_succ]
    rfl
  have hlf : lenAndFragmented [(1, [3] ++ bumpRange 4 1020), (2, [1101])] = (1022, true) := by
    decide +kernel
  have hfl : (⟨[(1, [3] ++ bumpRange 4 1020), (2, [1101])], false, 1022, true, []⟩ : FreeList) =
      ofPortions [(1, bumpRange 3 1021), (2, [1101])] := by
    decide +kernel
  rw [FreeList.commit]
  dsimp only
  rw [if_neg (by decide +kernel)]
  simp only [bind]
  rw [hpre, Option.bind_some]
  dsimp only
  rw [FreeList.pushAndEncode, hT, hloop, Option.bind_some]
  simp only [bind, Option.bind_some, List.isEmpty_nil, ↓reduceIte, pure, hlf, ← hfl]
  exact ⟨_, rfl⟩

/-- A run over a new store. A first sync bumps 1100 pages and frees pages `1` and `2`; a second
frees the 1021 pages from `3` and leaves two portions in the fragmented shape, which reopening
the grown file reads back; a third frees page `1024` and leaves a full portion below the head.
Every pop of either free list is read from the top by `get_nth_pop`, across its portions. -/
theorem getNthPop_eq_nthPop_run :
    ∃ st₂ st₃ : Store, Reachable st₂ ∧ Reachable st₃ ∧
      st₂.sync.freeList = ofPortions [(1, bumpRange 3 1021), (2, [1101])] ∧
      st₃.sync.freeList = ofPortions [(1101, bumpRange 3 1020 ++ [1024, 1]), (1023, [2])] ∧
      (Shape st₂.sync.freeList.portions ∧ ∀ n < st₂.sync.freeList.len, ∃ pn,
        st₂.sync.freeList.getNthPop n = some pn ∧ st₂.sync.freeList.nthPop n = some (some pn)) ∧
      (Shape st₃.sync.freeList.portions ∧ ∀ n < st₃.sync.freeList.len, ∃ pn,
        st₃.sync.freeList.getNthPop n = some pn ∧ st₃.sync.freeList.nthPop n = some (some pn)) := by
  have hblank : (List.replicate PAGE_SIZE (0 : UInt8)).length = PAGE_SIZE := List.length_replicate
  -- a new store over an empty file
  have h₀ := @Reachable.create ⟨0, fun _ => []⟩ 0 ⟨1, ofPortions []⟩ rfl
  -- the first sync: pages `1` and `2` go into a new portion on the bumped page `1101`
  obtain ⟨⟨sync₁, pages₁, meta₁⟩, hr₁, hp₁⟩ := Option.map_eq_some_iff.mp (show
    (StoreSync.finish ⟨1, ofPortions []⟩ (List.replicate PAGE_SIZE 0) 1100 [1, 2]).map
      (fun r => (r.1, r.2.2)) =
      some (⟨1102, ⟨[(1101, [1, 2])], false, 2, false, []⟩⟩, ⟨1101, 1102⟩) by decide +kernel)
  simp only [Prod.mk.injEq] at hp₁
  obtain ⟨rfl, rfl⟩ := hp₁
  -- the freed pages were bumped by the allocations, and no page is free yet
  have h₁ := Reachable.sync h₀ hblank (by decide) (fun pn hpn => by
      simp only [List.mem_cons, List.not_mem_nil, or_false] at hpn
      rcases hpn with rfl | rfl <;> decide +kernel) hr₁ (by dsimp only; decide)
  -- the second sync leaves the fragmented shape
  obtain ⟨pages₂, hc₂⟩ := commit_fragmenting
  have hd₂ : (⟨[(1101, [1, 2])], false, 2, false, []⟩ : FreeList).discard 0 =
      (0, ⟨[(1101, [1, 2])], false, 2, false, []⟩) := by
    decide +kernel
  have hr₂ : StoreSync.finish ⟨1102, ⟨[(1101, [1, 2])], false, 2, false, []⟩⟩
      (List.replicate PAGE_SIZE 0) 0 (bumpRange 3 1021) =
      some (⟨1102, ofPortions [(1, bumpRange 3 1021), (2, [1101])]⟩, pages₂, ⟨2, 1102⟩) := by
    rw [StoreSync.finish_eq, hd₂, show (1102 : PageNumber) + UInt32.ofNat (0 - 0) = 1102 by decide, hc₂]
    rfl
  -- the freed pages lie between the pages the free list holds and the bump
  have hfreed₂ : ∀ pn ∈ bumpRange 3 1021, pn ∉ [1101, 1, 2] ∧ 0 < pn.toNat ∧ pn.toNat < 1102 := by
    intro pn hpn
    have hlt := toNat_of_mem_bumpRange (by decide) hpn
    refine ⟨fun hmem => ?_, by simp at hlt; omega, by simp at hlt; omega⟩
    simp only [List.mem_cons, List.not_mem_nil, or_false] at hmem
    rcases hmem with rfl | rfl | rfl <;> revert hlt <;> decide
  have h₂ := Reachable.sync h₁ hblank (nodup_bumpRange (by decide)) (fun pn hpn => by
      dsimp only
      rw [hd₂]
      exact hfreed₂ pn hpn) hr₂ (by dsimp only; decide +kernel)
  -- the file grows to hold every page below the bump, and the store is opened again
  have h₂g := @Reachable.grow _ (1102 * PAGE_SIZE) h₂ (Nat.zero_le _)
  have h₂r := @Reachable.reopen _ 3 _ h₂g
    (h₂g.kept.openStore_eq_some (by dsimp only; decide) (by dsimp only; decide)
      (by dsimp only; decide))
  -- the third sync fixes the fragmentation up: page `1024` and the page numbers of the head go
  -- into the portion below it, rewritten into the page popped, and the old page `1` is pushed
  obtain ⟨⟨sync₃, pages₃, meta₃⟩, hr₃, hp₃⟩ := Option.map_eq_some_iff.mp (show
    (StoreSync.finish ⟨1102, ofPortions [(1, bumpRange 3 1021), (2, [1101])]⟩
      (List.replicate PAGE_SIZE 0) 0 [1024]).map (fun r => (r.1, r.2.2)) =
      some (⟨1102, ofPortions [(1101, bumpRange 3 1020 ++ [1024, 1]), (1023, [2])]⟩, ⟨1023, 1102⟩) by
    decide +kernel)
  simp only [Prod.mk.injEq] at hp₃
  obtain ⟨rfl, rfl⟩ := hp₃
  have h₃ := Reachable.sync h₂r hblank (by decide) (fun pn hpn => by
      simp only [List.mem_cons, List.not_mem_nil, or_false] at hpn
      subst hpn
      dsimp only
      decide +kernel) hr₃ (by dsimp only; decide +kernel)
  exact ⟨_, _, h₂r, h₃, rfl, rfl, getNthPop_eq_nthPop h₂r, getNthPop_eq_nthPop h₃⟩

end FreeList

end Nomt.Allocator

import Nomt.Merkle.PageWalker
import Nomt.Core.PageLayout

/-!
# What the page walker holds

The walker's pages say which node each trie position holds, and `PageWalker.view` reads it: the
`root` field at the root; below it, the slot of the node's page where that page is on the stack,
and else the slot in the page set (`PageSet.nodeAt`). Every operation of the walker gets a spec
lemma stated against the view, so that the proofs about whole calls never unfold an operation.

`Inv w c` is what the walker keeps between its operations: the position is well formed at the
path `c`; the stack holds exactly the pages on the path to `c`, top first (`pagesAlong c`); the
walker updates (it does not reconstruct) with no parent page and outputs updated pages; and the
leaf counters of its stack pages are those a page read from the hash table or a fresh page starts
with, so that the elision arithmetic of `handle_elision_threshold` never panics.

The spec lemmas:
* reads: `node_eq`, `siblingNode_eq` read the view at the position and at its sibling;
* writes: `setNode_spec`, `setSibling_spec` update the view there and nowhere else, and
  `placeNode_spec` does so at the root as well, keeping the node it overwrites;
* moves: `downBit_spec` pushes the page entered (the view changes only strictly below the old
  position, and not at all for a page of the page set), `up_spec` pops the page left (the view
  changes only strictly below the new position).
-/

namespace Nomt.Merkle

open TriePos TriePos.TriePosition

variable {N V : Type}

/-- What the view reads of a stack page: its path and its slots. -/
def StackPage.slots (sp : StackPage N) : List UInt8 × Vector N NODES_PER_PAGE :=
  (sp.pageId.path, sp.page.nodes)

/-! ## The invariant -/

/-- A stack page's leaf counters as a page read from the hash table (none) or a fresh page (zero)
starts with them; the children count is only ever set over a previous one. -/
structure StackPage.CountersSane (sp : StackPage N) : Prop where
  pageLeaves : sp.pageLeavesCounter = none ∨ sp.pageLeavesCounter = some 0
  prevChildren : sp.prevChildrenLeavesCounter = none ∨ sp.prevChildrenLeavesCounter = some 0
  children : sp.childrenLeavesCounter.isSome → sp.prevChildrenLeavesCounter.isSome

/-- Every page of the page set was read from the hash table. -/
def PageSet.Persisted (ps : PageSet N) : Prop :=
  ∀ pageId page origin, ps.get pageId = some (page, origin) →
    ∃ bucketInfo, origin = .persisted bucketInfo

namespace PageWalker

/-- The updating walker: no reconstruction and no parent page, updated pages in its output, and
leaf counters that keep the elision arithmetic from panicking. -/
structure Sane (w : PageWalker N) : Prop where
  reconstruction : w.reconstruction = false
  parentPage : w.parentPage = none
  outputs : ∀ o ∈ w.outputPages, ∃ u, o = .updated u
  counters : ∀ sp ∈ w.stack, sp.CountersSane

/-- What the updating walker keeps between its operations, at the path `c`: the position is well
formed there, and the stack holds the pages on the path to it, top first. -/
structure Inv (w : PageWalker N) (c : List Bool) : Prop extends Sane w where
  wellFormed : w.position.WellFormed
  path_eq : w.position.path = c
  pages : w.stack.map (fun sp => sp.pageId.path) = pagesAlong c

/-- The position is not part of the sanity conditions. -/
theorem Sane.setPosition {w : PageWalker N} (hs : Sane w) (position : TriePos.TriePosition) :
    Sane { w with position } :=
  ⟨hs.reconstruction, hs.parentPage, hs.outputs, hs.counters⟩

namespace Inv

variable {w : PageWalker N} {c : List Bool}

theorem depth_eq (hinv : Inv w c) : w.position.depth = c.length := by
  rw [← hinv.path_eq, length_path]

theorem nodeIndex_eq (hinv : Inv w c) : w.position.nodeIndex = slotOf c := by
  rw [(wellFormed_iff _).mp hinv.wellFormed, hinv.path_eq]
  rfl

theorem isRoot_iff (hinv : Inv w c) : w.position.isRoot = true ↔ c = [] := by
  rw [TriePos.TriePosition.isRoot_iff, hinv.path_eq]

theorem peekLastBit_eq (hinv : Inv w c) : w.position.peekLastBit = c.getLast? := by
  rw [TriePos.TriePosition.peekLastBit_eq, hinv.path_eq]

/-- Below the root, the top of the stack is the position's page. -/
theorem stack_eq_cons (hinv : Inv w c) (hc : c ≠ []) :
    ∃ top rest, w.stack = top :: rest ∧ top.pageId.path = pagePath c ∧
      rest.map (fun sp => sp.pageId.path) = (pagesAlong c).tail := by
  obtain ⟨more, hmore⟩ := pagesAlong_eq_cons hc
  have hpages := hinv.pages
  rw [hmore] at hpages ⊢
  match hs : w.stack, hpages with
  | top :: rest, hpages =>
    rw [List.map_cons, List.cons.injEq] at hpages
    exact ⟨top, rest, rfl, hpages.1, hpages.2⟩

/-- Writing the top page keeps the invariant. -/
theorem setTop (hinv : Inv w c) {top : StackPage N} {rest : List (StackPage N)}
    (hstack : w.stack = top :: rest) (page : NodePage N) (diff : PageDiff) :
    Inv { w with stack := { top with page, diff } :: rest } c where
  reconstruction := hinv.reconstruction
  parentPage := hinv.parentPage
  outputs := hinv.outputs
  counters sp hsp := by
    rcases List.mem_cons.mp hsp with rfl | hsp
    · have htop := hinv.counters top (by rw [hstack]; exact List.mem_cons_self ..)
      exact ⟨htop.pageLeaves, htop.prevChildren, htop.children⟩
    · exact hinv.counters sp (by rw [hstack]; exact List.mem_cons_of_mem _ hsp)
  wellFormed := hinv.wellFormed
  path_eq := hinv.path_eq
  pages := by rw [← hinv.pages, hstack]; rfl

end Inv

end PageWalker

/-! ## `count_leaves` does not panic

The walk of `count_leaves` visits the nodes of a page in depth-first order, each round at a later
node than the last. `preorder` numbers the nodes of a page in that order, from 1 to
`NODES_PER_PAGE`, so `NODES_PER_PAGE` rounds are enough. -/

section CountLeaves

/-- The place of the node at a path of a page in the depth-first order of the page's nodes: a
step right at height `h` passes the `2 ^ h - 1` nodes of the left sub-tree. -/
def preorder : Nat → List Bool → Nat
  | _, [] => 0
  | h, b :: q => (if b then 2 ^ h else 1) + preorder (h - 1) q

theorem preorder_append (h : Nat) (q : List Bool) (b : Bool) :
    preorder h (q ++ [b]) = preorder h q + if b then 2 ^ (h - q.length) else 1 := by
  induction q generalizing h with
  | nil => simp [preorder]
  | cons b' q ih =>
    rw [List.cons_append, preorder, preorder, ih, List.length_cons, Nat.sub_sub, Nat.add_comm 1,
      Nat.add_assoc]

/-- Every node of a page has a place up to `NODES_PER_PAGE`. -/
theorem preorder_add_two_le : ∀ (h : Nat) (q : List Bool), q.length ≤ h →
    preorder h q + 2 ≤ 2 ^ (h + 1)
  | h, [], _ => by
    rw [preorder, Nat.pow_succ]
    have := Nat.one_le_two_pow (n := h)
    omega
  | h + 1, b :: q, hlen => by
    have ih := preorder_add_two_le h q (by simp at hlen; omega)
    rw [preorder, Nat.add_sub_cancel, Nat.pow_succ 2 (h + 1)]
    have := Nat.one_le_two_pow (n := h + 1)
    split <;> omega

/-- Past a left turn and `k` right turns, the place after the left turn plus what the right
turns leave to the top of the left turn's sub-tree is fixed. -/
theorem preorder_climb (h : Nat) (q : List Bool) :
    ∀ k, q.length + 1 + k ≤ h →
      preorder h (q ++ false :: List.replicate k true) + 2 ^ (h - q.length - k) =
        preorder h q + 1 + 2 ^ (h - q.length)
  | 0, _ => by
    rw [List.replicate_zero, preorder_append, Nat.sub_zero]
    simp only [Bool.false_eq_true, if_false]
  | k + 1, hk => by
    have ih := preorder_climb h q k (by omega)
    have happ : q ++ false :: List.replicate (k + 1) true =
        (q ++ false :: List.replicate k true) ++ [true] := by
      simp [List.replicate_succ']
    have hpow : 2 ^ (h - q.length - k) = 2 * 2 ^ (h - q.length - (k + 1)) := by
      rw [← Nat.pow_succ']
      congr 1
      omega
    rw [happ, preorder_append, if_pos rfl]
    simp only [List.length_append, List.length_cons, List.length_replicate] at ih ⊢
    have hexp : h - (q.length + (k + 1)) = h - q.length - (k + 1) := by omega
    rw [hexp]
    omega

/-- The sibling the walk moves to after climbing comes later than the node it left. -/
theorem preorder_lt_of_climb {h : Nat} {q : List Bool} {k : Nat} (hk : q.length + 1 + k ≤ h) :
    preorder h (q ++ false :: List.replicate k true) < preorder h (q ++ [true]) := by
  have hclimb := preorder_climb h q k hk
  have hpos : 2 ≤ 2 ^ (h - q.length - k) := by
    calc 2 = 2 ^ 1 := rfl
      _ ≤ 2 ^ (h - q.length - k) := Nat.pow_le_pow_right (by decide) (by omega)
  rw [preorder_append, if_pos rfl]
  omega

theorem NodePage.node_isSome (page : NodePage N) {i : Nat} (hi : i < NODES_PER_PAGE) :
    (page.node i).isSome := by
  simp [NodePage.node, hi]

/-- Inside a page the depth is the depth in the page. -/
theorem depthInPage_eq_depth {p : TriePos.TriePosition} (h0 : p.depth ≠ 0)
    (h : p.depth ≤ pageDepth) :
    p.depthInPage = p.depth := by
  rw [depthInPage, if_neg h0, pageDepth_eq] at *
  omega

/-- The climb past right children stops below a left turn or at the top. -/
theorem climb_spec :
    ∀ (fuel : Nat) (pos : TriePos.TriePosition), pos.WellFormed → pos.depth ≤ fuel →
    ∃ pos', countLeavesLoop.climb fuel pos = some pos' ∧ pos'.WellFormed ∧
      ∃ k, pos.path = pos'.path ++ List.replicate k true ∧ pos'.path.getLast? ≠ some true
  | 0, pos, hw, hfuel => by
    have hpath : pos.path = [] := by
      rw [← List.length_eq_zero_iff, length_path]
      omega
    exact ⟨pos, rfl, hw, 0, by simp, by simp [hpath]⟩
  | fuel + 1, pos, hw, hfuel => by
    by_cases h0 : pos.depth = 0
    · have hpath : pos.path = [] := by rw [← List.length_eq_zero_iff, length_path, h0]
      exact ⟨pos, by simp [countLeavesLoop.climb, h0], hw, 0, by simp, by simp [hpath]⟩
    obtain ⟨bit, hbit⟩ : ∃ bit, pos.path.getLast? = some bit :=
      Option.isSome_iff_exists.mp (List.getLast?_isSome.mpr (by
        rw [← List.length_pos_iff, length_path]
        omega))
    cases bit with
    | false =>
      -- a left child: the climb stops here
      refine ⟨pos, ?_, hw, 0, by simp, by simp [hbit]⟩
      simp [countLeavesLoop.climb, h0, peekLastBit_eq, hbit]
    | true =>
      -- a right child: one step up, and the climb goes on from the parent
      obtain ⟨up, hup, hpath, hw'⟩ := hw.up (d := 1) (by omega)
      obtain ⟨pos', hclimb, hw'', k, hk, hlast⟩ := climb_spec fuel up hw' (by
        rw [← length_path, hpath, List.length_take]
        have := length_path pos
        omega)
      refine ⟨pos', ?_, hw'', k + 1, ?_, hlast⟩
      · simp [countLeavesLoop.climb, h0, peekLastBit_eq, hbit, hup, hclimb]
      · obtain ⟨xs, hxs⟩ := List.getLast?_eq_some_iff.mp hbit
        have hd : pos.depth = xs.length + 1 := by
          rw [← length_path, hxs, List.length_append, List.length_singleton]
        have hup_path : up.path = xs := by
          rw [hpath, hd, Nat.add_sub_cancel, hxs, List.take_left' rfl]
        rw [hxs, ← hup_path, hk, List.replicate_succ', List.append_assoc]

/-- The loop of `count_leaves` does not run out of rounds: each round moves to a later node. -/
theorem countLeavesLoop_isSome (H : NodeHasher N V) (page : NodePage N) :
    ∀ (fuel : Nat) (pos : TriePos.TriePosition) (counter : Nat), pos.WellFormed →
      pos.path ≠ [] → pos.path.length ≤ pageDepth →
      NODES_PER_PAGE + 1 ≤ preorder pageDepth pos.path + fuel →
      (countLeavesLoop H page fuel pos counter).isSome
  | 0, pos, _, _, _, hlen, hfuel => by
    have := preorder_add_two_le pageDepth pos.path hlen
    have hpow : (2 : Nat) ^ (pageDepth + 1) = 128 := rfl
    rw [NODES_PER_PAGE_eq] at hfuel
    rw [hpow] at this
    omega
  | fuel + 1, pos, counter, hw, hne, hlen, hfuel => by
    have hdepth : pos.path.length = pos.depth := length_path pos
    have hd0 : pos.depth ≠ 0 := by
      rw [← hdepth]
      exact fun h => hne (List.eq_nil_of_length_eq_zero h)
    have hindex : pos.nodeIndex < NODES_PER_PAGE := by
      rw [(wellFormed_iff pos).mp hw]
      exact slotOf_lt hne
    obtain ⟨node, hnode⟩ := Option.isSome_iff_exists.mp (page.node_isSome hindex)
    simp only [countLeavesLoop, hnode, Option.bind_eq_bind, Option.bind_some]
    split
    · -- an internal node above the page's last layer: down to its left child
      rename_i hdesc
      have hlt : pos.depth < pageDepth := by
        have := depthInPage_eq_depth hd0 (hdepth ▸ hlen)
        omega
      obtain ⟨child, hdown, hpath, hw'⟩ := hw.down (by rw [pageDepth_eq] at hlt; omega) false
      rw [hdown, Option.bind_some]
      refine countLeavesLoop_isSome H page fuel child _ hw' (by simp [hpath])
        (by simp [hpath]; omega) ?_
      rw [hpath, preorder_append]
      simp only [Bool.false_eq_true, if_false]
      omega
    · -- a leaf, a terminator or the last layer: climb, then over to the right sibling
      obtain ⟨top, hclimb, hw', k, hk, hlast⟩ := climb_spec pos.depth pos hw (Nat.le_refl _)
      rw [hclimb, Option.bind_some]
      split
      · rfl
      · rename_i htop0
        obtain ⟨q, hq⟩ : ∃ q, top.path = q ++ [false] := by
          obtain ⟨bit, hbit⟩ : ∃ bit, top.path.getLast? = some bit :=
            Option.isSome_iff_exists.mp (List.getLast?_isSome.mpr (by
              rw [← List.length_pos_iff, length_path]
              omega))
          obtain ⟨q, hq⟩ := List.getLast?_eq_some_iff.mp hbit
          cases bit with
          | false => exact ⟨q, hq⟩
          | true => exact absurd hbit hlast
        obtain ⟨sib, hsib, hsibpath, hwsib⟩ := hw'.sibling (x := false) (by simp [hq])
        rw [hsib, Option.bind_some]
        have hsibpath' : sib.path = q ++ [true] := by simpa [hq] using hsibpath
        have hposlen : (q ++ false :: List.replicate k true).length ≤ pageDepth := by
          rw [← List.singleton_append, ← List.append_assoc, ← hq, ← hk]
          exact hlen
        have hlt := preorder_lt_of_climb (h := pageDepth) (q := q) (k := k) (by
          simp only [List.length_append, List.length_cons, List.length_replicate] at hposlen
          omega)
        have hpos : pos.path = q ++ false :: List.replicate k true := by
          rw [hk, hq, List.append_assoc, List.singleton_append]
        refine countLeavesLoop_isSome H page fuel sib _ hwsib (by simp [hsibpath'])
          (by simp only [hsibpath', List.length_append, List.length_singleton]
              simp only [List.length_append, List.length_cons, List.length_replicate] at hposlen
              omega) ?_
        rw [hsibpath']
        rw [hpos] at hfuel
        omega

/-- `count_leaves` does not panic. -/
theorem countLeaves_isSome (H : NodeHasher N V) (page : NodePage N) :
    (countLeaves H page).isSome := by
  obtain ⟨pos, hdown, hpath, hw⟩ := wellFormed_new.down (by decide) false
  simp only [countLeaves, hdown, Option.bind_eq_bind, Option.bind_some]
  rw [path_new, List.nil_append] at hpath
  refine countLeavesLoop_isSome H page _ pos 0 hw (by simp [hpath])
    (by simp [hpath, pageDepth_eq]) ?_
  rw [hpath, NODES_PER_PAGE_eq]
  simp [preorder]

end CountLeaves

/-! ## Handing on the top page -/

/-- The counters a kept page leaves its parent are sane. -/
theorem StackPage.CountersSane.keep {parent : StackPage N} (hpar : parent.CountersSane)
    (e : ElidedChildren) :
    ({ parent with
      childrenLeavesCounter := none
      prevChildrenLeavesCounter := none
      elidedChildren := e } : StackPage N).CountersSane :=
  ⟨hpar.pageLeaves, Or.inl rfl, fun h => absurd h (by simp)⟩

/-- The counters an elided page leaves its parent are sane: a count is only added to one. -/
theorem StackPage.CountersSane.elide {parent : StackPage N} (hpar : parent.CountersSane)
    (n : Nat) (e : ElidedChildren) :
    ({ parent with
      childrenLeavesCounter :=
        (parent.childrenLeavesCounter.or parent.prevChildrenLeavesCounter).map (· + n)
      elidedChildren := e } : StackPage N).CountersSane := by
  refine ⟨hpar.pageLeaves, hpar.prevChildren, fun h => ?_⟩
  cases hc : parent.childrenLeavesCounter with
  | none =>
    cases hp : parent.prevChildrenLeavesCounter with
    | none => simp [hc, hp] at h
    | some _ => rfl
  | some _ => exact hpar.children (by simp [hc])

namespace PageWalker

section Handle

variable (H : NodeHasher N V) {w : PageWalker N}

theorem childIndexAtLevel_isSome {pageId : PageId} (h : pageId ≠ rootPageId) :
    (pageId.childIndexAtLevel (pageId.depth - 1)).isSome := by
  have := List.length_pos_iff.mpr (PageId.path_ne_nil h)
  rw [PageId.childIndexAtLevel, dif_pos (by rw [PageId.depth]; omega)]
  rfl

/-- The page `handle_elision_threshold` pops: the top page with its elided children written into
it, the root page apart. -/
def handedPage (top : StackPage N) : StackPage N :=
  if top.pageId ≠ rootPageId then
    { top with page := top.page.setElidedChildren top.elidedChildren }
  else top

/-- How `handle_elision_threshold` hands on the top page of `w`, as the stack and the outputs it
leaves. The page is output, or, only when the leaves `count_leaves` finds in it and its
children's leaf count stay below `PAGE_ELISION_THRESHOLD`, elided. -/
inductive HandedOn (w : PageWalker N) (stack : List (StackPage N))
    (outputPages : List (PageWalkerPageOutput N)) : Prop
  /-- Without a parent on the stack, or below the root page, the page is output. -/
  | output (top : StackPage N) (rest : List (StackPage N)) :
      w.stack = top :: rest → rest = [] ∨ top.pageId.parentPageId = rootPageId →
      stack = rest → outputPages = pushUpdated w.outputPages (handedPage top) →
      HandedOn w stack outputPages
  /-- A page not elided is output; the parent marks it kept and forgets its children's counts. -/
  | kept (top parent : StackPage N) (rest : List (StackPage N)) (childIndex : ChildPageIndex) :
      w.stack = top :: parent :: rest → top.pageId.parentPageId ≠ rootPageId →
      top.pageId.childIndexAtLevel (top.pageId.depth - 1) = some childIndex →
      (∀ pageLeavesCounter childrenLeavesCounter,
        countLeaves H (handedPage top).page = some pageLeavesCounter →
        top.childrenLeavesCounter.or top.prevChildrenLeavesCounter = some childrenLeavesCounter →
        w.inhibitElision = false →
        PAGE_ELISION_THRESHOLD ≤ pageLeavesCounter + childrenLeavesCounter) →
      stack = { parent with
        childrenLeavesCounter := none
        prevChildrenLeavesCounter := none
        elidedChildren := parent.elidedChildren.setElide childIndex false } :: rest →
      outputPages = pushUpdated w.outputPages (handedPage top) →
      HandedOn w stack outputPages
  /-- An elided page: the parent adds its leaves to its children's count and marks it elided,
  and a page from the hash table is output cleared. -/
  | elided (top parent : StackPage N) (rest : List (StackPage N)) (childIndex : ChildPageIndex)
      (pageLeavesCounter childrenLeavesCounter : Nat) :
      w.stack = top :: parent :: rest → top.pageId.parentPageId ≠ rootPageId →
      top.pageId.childIndexAtLevel (top.pageId.depth - 1) = some childIndex →
      countLeaves H (handedPage top).page = some pageLeavesCounter →
      top.childrenLeavesCounter.or top.prevChildrenLeavesCounter = some childrenLeavesCounter →
      pageLeavesCounter + childrenLeavesCounter < PAGE_ELISION_THRESHOLD →
      w.inhibitElision = false →
      stack = { parent with
        childrenLeavesCounter := (parent.childrenLeavesCounter.or
          parent.prevChildrenLeavesCounter).map (· + (pageLeavesCounter + childrenLeavesCounter))
        elidedChildren := parent.elidedChildren.setElide childIndex true } :: rest →
      outputPages = (if top.bucketInfo.isSome then
          pushUpdated w.outputPages { handedPage top with diff := top.diff.setCleared }
        else w.outputPages) →
      HandedOn w stack outputPages

theorem handedPage_eq (top : StackPage N) :
    ∃ page, handedPage top = { top with page } ∧ page.nodes = top.page.nodes := by
  unfold handedPage
  split
  · exact ⟨_, rfl, rfl⟩
  · exact ⟨_, rfl, rfl⟩

/-- A page kept: the parent forgets its children's counts and marks the page not elided. -/
theorem keepPage_eq (hrec : w.reconstruction = false) {sp parent : StackPage N}
    {childIndex : ChildPageIndex}
    (hchild : sp.pageId.childIndexAtLevel (sp.pageId.depth - 1) = some childIndex)
    (rest : List (StackPage N)) :
    w.keepPage sp parent rest = some { w with
      stack := { parent with
        childrenLeavesCounter := none
        prevChildrenLeavesCounter := none
        elidedChildren := parent.elidedChildren.setElide childIndex false } :: rest
      outputPages := pushUpdated w.outputPages sp } := by
  simp [keepPage, hchild, pushOutput, hrec]

/-- A page elided: for sane counters the parent's children count grows by the page's leaves and
its children's, so it never goes below zero. -/
theorem elidePage_eq (hrec : w.reconstruction = false) {sp parent : StackPage N}
    {childIndex : ChildPageIndex}
    (hchild : sp.pageId.childIndexAtLevel (sp.pageId.depth - 1) = some childIndex)
    (hspc : sp.CountersSane) (rest : List (StackPage N)) (pageLeavesCounter : Nat)
    {childrenLeavesCounter : Nat}
    (hcl : sp.childrenLeavesCounter.or sp.prevChildrenLeavesCounter = some childrenLeavesCounter) :
    w.elidePage sp parent rest pageLeavesCounter childrenLeavesCounter = some { w with
      stack := { parent with
        childrenLeavesCounter := (parent.childrenLeavesCounter.or
          parent.prevChildrenLeavesCounter).map (· + (pageLeavesCounter + childrenLeavesCounter))
        elidedChildren := parent.elidedChildren.setElide childIndex true } :: rest
      outputPages := if sp.bucketInfo.isSome then
          pushUpdated w.outputPages { sp with diff := sp.diff.setCleared }
        else w.outputPages } := by
  -- the page had a children count, so a previous one, which is zero
  have hprev : sp.prevChildrenLeavesCounter = some 0 := by
    rcases hspc.prevChildren with h | h
    · have hnone : sp.childrenLeavesCounter = none := by
        cases hc : sp.childrenLeavesCounter with
        | none => rfl
        | some _ => simpa [h, hc] using hspc.children
      simp [hnone, h] at hcl
    · exact h
  have hpl : sp.pageLeavesCounter.getD 0 = 0 := by
    rcases hspc.pageLeaves with h | h <;> simp [h]
  simp only [elidePage]
  split
  · -- the parent's children count moves by the page's leaves and its children's
    rename_i parentCount hpc
    simp only [hprev, hpl, Option.bind_eq_bind, Option.bind_some, Nat.cast_zero, sub_zero]
    rw [if_neg (by omega)]
    have hcount : (↑parentCount + ↑pageLeavesCounter + ↑childrenLeavesCounter : Int).toNat =
        parentCount + (pageLeavesCounter + childrenLeavesCounter) := by omega
    simp only [Option.pure_def, Option.bind_some, hchild, hrec, Bool.false_eq_true, if_false,
      hpc, Option.map_some, hcount]
    split <;> simp_all
  · rename_i hpc
    simp only [Option.pure_def, Option.bind_eq_bind, Option.bind_some, hchild, hrec,
      Bool.false_eq_true, if_false, hpc, Option.map_none]
    have hnone : parent.childrenLeavesCounter = none := by
      cases h : parent.childrenLeavesCounter with
      | none => rfl
      | some _ => simp [h] at hpc
    split <;> simp_all

theorem pushUpdated_outputs {outputPages : List (PageWalkerPageOutput N)}
    (h : ∀ o ∈ outputPages, ∃ u, o = .updated u) (sp : StackPage N) :
    ∀ o ∈ pushUpdated outputPages sp, ∃ u, o = .updated u := by
  intro o ho
  rcases List.mem_append.mp ho with ho | ho
  · exact h o ho
  · exact ⟨_, List.mem_singleton.mp ho⟩

/-- `handle_elision_threshold` of the updating walker pops the top page without a panic and hands
it on: it changes the stack, whose other pages keep their slots, and the outputs, and nothing
else. -/
theorem handleElisionThreshold_spec (hs : Sane w) {top : StackPage N} {rest : List (StackPage N)}
    (hstack : w.stack = top :: rest) :
    ∃ w', handleElisionThreshold H w = some w' ∧ Sane w' ∧
      w'.stack.map StackPage.slots = rest.map StackPage.slots ∧
      w' = { w with stack := w'.stack, outputPages := w'.outputPages } ∧
      HandedOn H w w'.stack w'.outputPages := by
  have htop := hs.counters top (by rw [hstack]; exact List.mem_cons_self ..)
  have hrest : ∀ sp ∈ rest, sp.CountersSane := fun sp hsp =>
    hs.counters sp (by rw [hstack]; exact List.mem_cons_of_mem _ hsp)
  -- the page handed on has the top page's id, counters and diff
  obtain ⟨page, hpage, -⟩ := handedPage_eq top
  set sp : StackPage N := if top.pageId ≠ rootPageId then
      { top with page := top.page.setElidedChildren top.elidedChildren } else top with hspdef
  have hsp : sp = { top with page } := (hspdef : sp = handedPage top).trans hpage
  have hspc : sp.CountersSane := by
    rw [hsp]
    exact ⟨htop.pageLeaves, htop.prevChildren, htop.children⟩
  have hout : ∀ o ∈ pushUpdated w.outputPages sp, ∃ u, o = .updated u :=
    pushUpdated_outputs hs.outputs _
  unfold handleElisionThreshold
  rw [hstack]
  simp only [← hspdef]
  cases rest with
  | nil =>
    simp only [pushOutput, Option.pure_def]
    rw [if_neg (by simp [hs.reconstruction])]
    exact ⟨_, rfl, ⟨hs.reconstruction, hs.parentPage, hout, by simp⟩, rfl, rfl,
      .output top [] hstack (Or.inl rfl) rfl rfl⟩
  | cons parent rest =>
    have hpar := hrest parent (List.mem_cons_self ..)
    have hrest' : ∀ sp ∈ rest, sp.CountersSane := fun sp' h =>
      hrest sp' (List.mem_cons_of_mem _ h)
    dsimp only
    split
    · rename_i hparent
      simp only [pushOutput, Option.pure_def]
      rw [if_neg (by simp [hs.reconstruction])]
      exact ⟨_, rfl, ⟨hs.reconstruction, hs.parentPage, hout,
        List.forall_mem_cons.mpr ⟨hpar, hrest'⟩⟩, rfl, rfl,
        .output top _ hstack (Or.inr (by rw [hsp] at hparent; exact hparent)) rfl rfl⟩
    · rename_i hparent
      have hparent' : top.pageId.parentPageId ≠ rootPageId := by rwa [hsp] at hparent
      -- a page below the root page is never the root page, so it has a child index
      have hne : top.pageId ≠ rootPageId := by
        intro hroot
        rw [hroot, PageId.parentPageId, if_pos rfl] at hparent'
        exact hparent' rfl
      obtain ⟨childIndex, hchild⟩ := Option.isSome_iff_exists.mp (childIndexAtLevel_isSome hne)
      have hchild' : sp.pageId.childIndexAtLevel (sp.pageId.depth - 1) = some childIndex := by
        rw [hsp]; exact hchild
      -- what keeping the page leaves
      have keep : (∀ pl cl, countLeaves H sp.page = some pl →
          top.childrenLeavesCounter.or top.prevChildrenLeavesCounter = some cl →
          w.inhibitElision = false → PAGE_ELISION_THRESHOLD ≤ pl + cl) →
          ∃ w', keepPage { w with stack := parent :: rest } sp parent rest =
            some w' ∧ Sane w' ∧
            w'.stack.map StackPage.slots = (parent :: rest).map StackPage.slots ∧
            w' = { w with stack := w'.stack, outputPages := w'.outputPages } ∧
            HandedOn H w w'.stack w'.outputPages := by
        intro hkeep
        rw [keepPage_eq (w := { w with stack := parent :: rest }) hs.reconstruction hchild' rest]
        exact ⟨_, rfl, ⟨hs.reconstruction, hs.parentPage, hout,
          List.forall_mem_cons.mpr ⟨hpar.keep _, hrest'⟩⟩, rfl, rfl,
          .kept top parent rest childIndex hstack hparent' hchild hkeep rfl rfl⟩
      split
      · rename_i childrenLeavesCounter hcl
        have hcl' : top.childrenLeavesCounter.or top.prevChildrenLeavesCounter =
            some childrenLeavesCounter := by rw [hsp] at hcl; exact hcl
        obtain ⟨pageLeavesCounter, hcount⟩ :=
          Option.isSome_iff_exists.mp (countLeaves_isSome H sp.page)
        simp only [hcount, Option.bind_eq_bind, Option.bind_some]
        split
        · rename_i helide
          simp only [Bool.and_eq_true, decide_eq_true_eq, Bool.not_eq_eq_eq_not,
            Bool.not_true] at helide
          rw [elidePage_eq (w := { w with stack := parent :: rest }) hs.reconstruction hchild' hspc
            rest pageLeavesCounter hcl]
          refine ⟨_, rfl, ⟨hs.reconstruction, hs.parentPage, fun o ho => ?_,
            List.forall_mem_cons.mpr ⟨hpar.elide _ _, hrest'⟩⟩, rfl, rfl,
            .elided top parent rest childIndex pageLeavesCounter childrenLeavesCounter hstack
              hparent' hchild hcount hcl' helide.1 helide.2 rfl (by rw [hsp, hpage])⟩
          split at ho
          · exact pushUpdated_outputs hs.outputs _ o ho
          · exact hs.outputs o ho
        · rename_i hnot
          refine keep fun pl cl hpl hcl'' hinhibit => ?_
          rw [hcount] at hpl
          rw [hcl''] at hcl'
          cases hpl
          cases hcl'
          simp only [hinhibit, Bool.not_false, Bool.and_true, decide_eq_true_eq] at hnot
          omega
      · rename_i hnone
        refine keep fun pl cl _ hcl'' _ => ?_
        rw [hsp] at hnone
        simp [hnone] at hcl''

end Handle

end PageWalker

theorem PageDiff.setChanged_eq_some (d : PageDiff) {i : Nat} (hi : i < NODES_PER_PAGE) :
    ∃ d', d.setChanged i = some d' :=
  ⟨_, dif_pos hi⟩

variable [Zero N]

/-! ## Slots, the page set and the view -/

namespace NodePage

/-- The node in slot `i`, `TERMINATOR` out of range. -/
def slot (page : NodePage N) (i : Nat) : N := (page.node i).getD terminator

theorem node_eq_some_slot (page : NodePage N) {i : Nat} (hi : i < NODES_PER_PAGE) :
    page.node i = some (page.slot i) := by
  simp [slot, node, hi]

theorem slot_congr {page page' : NodePage N} (h : page.nodes = page'.nodes) :
    page.slot = page'.slot := by
  funext i
  simp [slot, node, h]

/-- `set_node` in range writes the slot and keeps the others. -/
theorem setNode_eq_some (page : NodePage N) {i : Nat} (hi : i < NODES_PER_PAGE) (n : N) :
    ∃ page', page.setNode i n = some page' ∧
      ∀ j, page'.slot j = if j = i then n else page.slot j := by
  refine ⟨_, dif_pos hi, fun j => ?_⟩
  by_cases hj : j < NODES_PER_PAGE
  · by_cases hji : j = i
    · subst hji
      simp [slot, node, hj]
    · simp [slot, node, hj, hji, Vector.getElem_set_ne _ _ (Ne.symm hji)]
  · have hji : j ≠ i := by omega
    simp [slot, node, hj, hji]

end NodePage

/-- The node at `q` in the page set: the slot of `q` in `q`'s page, `TERMINATOR` where the page
set has no such page. -/
def PageSet.nodeAt (ps : PageSet N) (q : List Bool) : N :=
  (((pageIdOf q).bind ps.get).map fun entry => entry.1.slot (slotOf q)).getD terminator

/-- The node at `q` below the root: in the first page of `stack` that is `q`'s page, or else in
the page set. -/
def stackView (ps : PageSet N) (stack : List (StackPage N)) (q : List Bool) : N :=
  ((stack.find? fun sp => sp.pageId.path == pagePath q).map fun sp =>
    sp.page.slot (slotOf q)).getD (ps.nodeAt q)

namespace PageWalker

/-- The node the walker holds at `q`. -/
def view (ps : PageSet N) (w : PageWalker N) (q : List Bool) : N :=
  if q = [] then w.root else stackView ps w.stack q

end PageWalker

section StackView

variable (ps : PageSet N)

@[simp] theorem stackView_nil (q : List Bool) : stackView ps [] q = ps.nodeAt q := rfl

theorem stackView_cons (sp : StackPage N) (rest : List (StackPage N)) (q : List Bool) :
    stackView ps (sp :: rest) q =
      if sp.pageId.path = pagePath q then sp.page.slot (slotOf q) else stackView ps rest q := by
  by_cases h : sp.pageId.path = pagePath q <;> simp [stackView, h]

/-- The view reads the paths and slots of the stack pages only. -/
theorem stackView_congr {s s' : List (StackPage N)}
    (h : s.map StackPage.slots = s'.map StackPage.slots) :
    stackView ps s = stackView ps s' := by
  funext q
  induction s generalizing s' with
  | nil =>
    rw [List.map_nil, eq_comm, List.map_eq_nil_iff] at h
    rw [h]
  | cons sp rest ih =>
    cases s' with
    | nil => simp at h
    | cons sp' rest' =>
      rw [List.map_cons, List.map_cons, List.cons.injEq] at h
      have hpath : sp.pageId.path = sp'.pageId.path := congrArg Prod.fst h.1
      have hslot : sp.page.slot = sp'.page.slot := NodePage.slot_congr (congrArg Prod.snd h.1)
      rw [stackView_cons, stackView_cons, hpath, hslot, ih h.2]

/-- Where no stack page is `q`'s page, the view is the page set's. -/
theorem stackView_of_forall_ne {s : List (StackPage N)} {q : List Bool}
    (h : ∀ sp ∈ s, sp.pageId.path ≠ pagePath q) : stackView ps s q = ps.nodeAt q := by
  induction s with
  | nil => rfl
  | cons sp rest ih =>
    rw [stackView_cons, if_neg (h sp (List.mem_cons_self ..))]
    exact ih fun sp' hsp' => h sp' (List.mem_cons_of_mem _ hsp')

end StackView

namespace PageWalker

variable {ps : PageSet N}

@[simp] theorem view_nil (w : PageWalker N) : view ps w [] = w.root := if_pos rfl

theorem view_of_ne_nil (w : PageWalker N) {q : List Bool} (hq : q ≠ []) :
    view ps w q = stackView ps w.stack q := if_neg hq

/-- Walkers with one root and the same stack slots hold the same nodes. -/
theorem view_congr {w w' : PageWalker N} (hroot : w'.root = w.root)
    (hstack : w'.stack.map StackPage.slots = w.stack.map StackPage.slots) :
    view ps w' = view ps w := by
  funext q
  simp only [view, hroot, stackView_congr ps hstack]

end PageWalker


namespace PageWalker

variable {ps : PageSet N}

/-- A walker holding the invariant one step below the root: the root page alone on the stack. -/
theorem exists_inv_below_root : ∃ w : PageWalker N, Inv w [false] := by
  obtain ⟨pos, -, hpath, hw⟩ := wellFormed_new.down (by decide) false
  refine ⟨{ PageWalker.new (0 : N) none with
    position := pos
    stack := [StackPage.new rootPageId ⟨Vector.replicate NODES_PER_PAGE 0, ElidedChildren.new⟩
      PageDiff.default (.persisted .fresh)] }, ?_⟩
  exact
    { reconstruction := rfl
      parentPage := rfl
      outputs := fun o ho => by simp [PageWalker.new, PageWalker.newInner] at ho
      counters := fun sp hsp => by
        rw [List.mem_singleton.mp hsp]
        exact ⟨Or.inl rfl, Or.inl rfl, fun h => by simp [StackPage.new] at h⟩
      wellFormed := hw
      path_eq := by rw [hpath, path_new, List.nil_append]
      pages := by rw [pagesAlong_singleton]; rfl }

/-! ## Reading and writing the node at the position -/

/-- `node` reads the view at the position. -/
theorem node_eq {w : PageWalker N} {c : List Bool} (hinv : Inv w c) (hc : c ≠ []) :
    w.node = some (view ps w c) := by
  obtain ⟨top, rest, hstack, htop, -⟩ := hinv.stack_eq_cons hc
  rw [view_of_ne_nil _ hc, hstack, stackView_cons, if_pos htop, ← top.page.node_eq_some_slot
    (slotOf_lt hc), ← hinv.nodeIndex_eq]
  simp [PageWalker.node, hstack]

/-- `sibling_node` reads the view at the sibling of the position. -/
theorem siblingNode_eq {w : PageWalker N} {c : List Bool} {x : Bool} (hinv : Inv w c)
    (hlast : c.getLast? = some x) :
    w.siblingNode = some (view ps w (c.dropLast ++ [!x])) := by
  have hc : c ≠ [] := fun h => by simp [h] at hlast
  obtain ⟨top, rest, hstack, htop, -⟩ := hinv.stack_eq_cons hc
  have hsib : c.dropLast ++ [!x] ≠ [] := by simp
  have hlt : siblingIndex (slotOf c) < NODES_PER_PAGE := by
    rw [← slotOf_sibling hlast]
    exact slotOf_lt hsib
  rw [view_of_ne_nil _ hsib, hstack, stackView_cons,
    if_pos (htop.trans (pagePath_sibling hc _).symm),
    slotOf_sibling hlast, ← top.page.node_eq_some_slot hlt, ← hinv.nodeIndex_eq]
  simp [PageWalker.siblingNode, hstack]

/-- Writing the top page at the slot of `c` updates the view at `c` alone. -/
theorem view_setTop {w : PageWalker N} {top : StackPage N} {rest : List (StackPage N)}
    (hstack : w.stack = top :: rest) {c : List Bool} (hc : c ≠ [])
    (htop : top.pageId.path = pagePath c) {page : NodePage N} {n : N}
    (hpage : ∀ j, page.slot j = if j = slotOf c then n else top.page.slot j) (diff : PageDiff) :
    view ps { w with stack := { top with page, diff } :: rest } =
      Function.update (view ps w) c n := by
  funext q
  by_cases hq : q = []
  · subst hq
    rw [view_nil, Function.update_of_ne (Ne.symm hc), view_nil]
  rw [view_of_ne_nil _ hq]
  show stackView ps ({ top with page, diff } :: rest) q = _
  rw [stackView_cons]
  by_cases hqc : q = c
  · subst hqc
    rw [if_pos htop, hpage, if_pos rfl, Function.update_self]
  rw [Function.update_of_ne hqc, view_of_ne_nil _ hq, hstack, stackView_cons]
  split_ifs with hp
  · -- one page, so another slot
    have hslot : slotOf q ≠ slotOf c := fun hs =>
      hqc (eq_of_pagePath_eq_of_slotOf_eq hq hc (hp.symm.trans htop) hs)
    rw [hpage, if_neg hslot]
  · rfl

/-- `set_node` below the root writes the view at the position and marks the top page's diff:
cleared when the position is in the page's first layer and the node and its sibling are
`TERMINATOR`, else the node's slot changed. -/
theorem setNode_spec [DecidableEq N] {w : PageWalker N} {c : List Bool} (hinv : Inv w c)
    (hc : c ≠ []) (n : N) :
    ∃ w', w.setNode n = some w' ∧ Inv w' c ∧ w'.lastPosition = w.lastPosition ∧
      view ps w' = Function.update (view ps w) c n ∧
      ∃ top rest page diff, w.stack = top :: rest ∧ w'.stack = { top with page, diff } :: rest ∧
        if w.position.isFirstLayerInPage = true ∧ n = terminator ∧
            w.siblingNode = some terminator then diff = top.diff.setCleared
        else top.diff.setChanged (slotOf c) = some diff := by
  obtain ⟨top, rest, hstack, htop, -⟩ := hinv.stack_eq_cons hc
  obtain ⟨x, hlast⟩ : ∃ x, c.getLast? = some x :=
    Option.isSome_iff_exists.mp (List.getLast?_isSome.mpr hc)
  obtain ⟨page, hpage, hslots⟩ := top.page.setNode_eq_some (slotOf_lt hc) n
  have hsib : w.siblingNode = some (view ps w (c.dropLast ++ [!x])) := siblingNode_eq hinv hlast
  simp only [PageWalker.setNode, hsib, hstack, hinv.nodeIndex_eq, hpage, List.head?_cons,
    Option.bind_eq_bind, Option.bind_some, List.tail_cons, Option.pure_def, Option.some.injEq]
  -- the diff marks the page cleared or the slot changed; the nodes are the same either way
  split
  · exact ⟨_, rfl, hinv.setTop hstack page _, rfl, view_setTop hstack hc htop hslots _,
      top, rest, page, _, rfl, rfl, rfl⟩
  · obtain ⟨diff, hdiff⟩ := PageDiff.setChanged_eq_some top.diff (slotOf_lt hc)
    rw [hdiff, Option.bind_some]
    exact ⟨_, rfl, hinv.setTop hstack page diff, rfl, view_setTop hstack hc htop hslots diff,
      top, rest, page, diff, rfl, rfl, hdiff⟩

/-- `set_sibling` writes the view at the sibling of the position. -/
theorem setSibling_spec {w : PageWalker N} {c : List Bool} {x : Bool} (hinv : Inv w c)
    (hlast : c.getLast? = some x) (n : N) :
    ∃ w', w.setSibling n = some w' ∧ Inv w' c ∧ w'.lastPosition = w.lastPosition ∧
      view ps w' = Function.update (view ps w) (c.dropLast ++ [!x]) n := by
  have hc : c ≠ [] := fun h => by simp [h] at hlast
  have hsib : c.dropLast ++ [!x] ≠ [] := by simp
  obtain ⟨top, rest, hstack, htop, -⟩ := hinv.stack_eq_cons hc
  have hindex : siblingIndex w.position.nodeIndex = slotOf (c.dropLast ++ [!x]) := by
    rw [hinv.nodeIndex_eq, slotOf_sibling hlast]
  obtain ⟨page, hpage, hslots⟩ := top.page.setNode_eq_some (slotOf_lt hsib) n
  obtain ⟨diff, hdiff⟩ := PageDiff.setChanged_eq_some top.diff (slotOf_lt hsib)
  simp only [PageWalker.setSibling, hindex, hstack, hpage, hdiff, List.head?_cons,
    Option.bind_eq_bind, Option.bind_some, List.tail_cons, Option.pure_def]
  exact ⟨_, rfl, hinv.setTop hstack page diff, rfl,
    view_setTop hstack hsib (htop.trans (pagePath_sibling hc _).symm) hslots diff⟩

/-- `set_node` changes the stack alone. -/
theorem setNode_eq_some [DecidableEq N] {w w' : PageWalker N} {n : N} (h : w.setNode n = some w') :
    ∃ stack, w' = { w with stack } := by
  simp only [PageWalker.setNode, Option.bind_eq_bind, Option.bind_eq_some_iff,
    Option.pure_def] at h
  obtain ⟨_, -, top, -, page, -, h⟩ := h
  -- the diff is marked cleared or changed; either way only the top page is replaced
  split at h
  · obtain ⟨diff, -, h⟩ := Option.bind_eq_some_iff.mp h
    exact ⟨_, (Option.some.inj h).symm⟩
  · obtain ⟨diff, -, h⟩ := Option.bind_eq_some_iff.mp h
    exact ⟨_, (Option.some.inj h).symm⟩

omit [Zero N] in
/-- The invariant does not read the node last overwritten. -/
theorem Inv.setPrevNode {w : PageWalker N} {c : List Bool} (hinv : Inv w c) (prevNode : Option N) :
    Inv { w with prevNode } c :=
  ⟨⟨hinv.reconstruction, hinv.parentPage, hinv.outputs, hinv.counters⟩, hinv.wellFormed,
    hinv.path_eq, hinv.pages⟩

/-- `place_node` writes the view at the position, the root included, and keeps the node it
overwrites. -/
theorem placeNode_spec [DecidableEq N] {w : PageWalker N} {c : List Bool} (hinv : Inv w c)
    (n : N) :
    ∃ w', w.placeNode n = some w' ∧ Inv w' c ∧ w'.prevNode = some (view ps w c) ∧
      w'.lastPosition = w.lastPosition ∧ view ps w' = Function.update (view ps w) c n ∧
      (c = [] → w'.stack = w.stack) ∧
      (c ≠ [] → ∃ top rest page diff, w.stack = top :: rest ∧
        w'.stack = { top with page, diff } :: rest ∧
        if w.position.isFirstLayerInPage = true ∧ n = terminator ∧
            w.siblingNode = some terminator then diff = top.diff.setCleared
        else top.diff.setChanged (slotOf c) = some diff) := by
  by_cases hc : c = []
  · -- at the root the node lives in the walker itself, not in a page
    subst hc
    have hroot : w.position.isRoot = true := hinv.isRoot_iff.mpr rfl
    refine ⟨{ w with prevNode := some w.root, root := n }, by simp only [placeNode, hroot, if_true],
      ⟨⟨hinv.reconstruction, hinv.parentPage, hinv.outputs, hinv.counters⟩, hinv.wellFormed,
        hinv.path_eq, hinv.pages⟩, by rw [view_nil], rfl, ?_, fun _ => rfl,
      fun h => absurd rfl h⟩
    funext q
    by_cases hq : q = []
    · subst hq
      rw [view_nil, Function.update_self]
    · rw [Function.update_of_ne hq, view_of_ne_nil _ hq, view_of_ne_nil _ hq]
  · have hroot : w.position.isRoot = false := by
      rw [Bool.eq_false_iff]
      exact fun h => hc (hinv.isRoot_iff.mp h)
    have hnode : w.node = some (view ps w c) := node_eq hinv hc
    obtain ⟨w', hset, hinv', hlast, hview, hdiff⟩ : ∃ w', _ = some w' ∧ Inv w' c ∧ _ ∧
        view ps w' = Function.update (view ps { w with prevNode := some (view ps w c) }) c n ∧ _ :=
      setNode_spec (hinv.setPrevNode (some (view ps w c))) hc n
    obtain ⟨stack, rfl⟩ := setNode_eq_some hset
    refine ⟨_, ?_, hinv', rfl, hlast, hview, fun h => absurd h hc, fun _ => hdiff⟩
    simp only [placeNode, hroot, hnode, Bool.false_eq_true, if_false, Option.bind_eq_bind,
      Option.bind_some]
    exact hset

/-- One step below the root, `place_node` writes into the root page and keeps the node there. -/
theorem placeNode_spec_below_root :
    ∃ w : PageWalker (FreeNode Unit), Inv w [false] ∧
      ∃ w', w.placeNode (.internal 0 0) = some w' ∧ Inv w' [false] ∧
        w'.prevNode = some (view (⟨fun _ => none,
          fun _ => ⟨Vector.replicate NODES_PER_PAGE 0, ElidedChildren.new⟩⟩ :
            PageSet (FreeNode Unit)) w [false]) ∧
        w'.lastPosition = w.lastPosition ∧
        view (⟨fun _ => none, fun _ => ⟨Vector.replicate NODES_PER_PAGE 0, ElidedChildren.new⟩⟩ :
          PageSet (FreeNode Unit)) w' =
        Function.update (view (⟨fun _ => none,
          fun _ => ⟨Vector.replicate NODES_PER_PAGE 0, ElidedChildren.new⟩⟩ :
            PageSet (FreeNode Unit)) w) [false] (.internal 0 0) ∧
        ([false] = [] → w'.stack = w.stack) ∧
        ([false] ≠ [] → ∃ top rest page diff, w.stack = top :: rest ∧
          w'.stack = { top with page, diff } :: rest ∧
          if w.position.isFirstLayerInPage = true ∧
              (.internal 0 0 : FreeNode Unit) = terminator ∧
              w.siblingNode = some terminator then diff = top.diff.setCleared
          else top.diff.setChanged (slotOf [false]) = some diff) := by
  obtain ⟨w, hinv⟩ : ∃ w : PageWalker (FreeNode Unit), Inv w [false] := exists_inv_below_root
  exact ⟨w, hinv, placeNode_spec hinv _⟩

/-! ## Moving down and up -/

theorem PageSet.nodeAt_of_get {ps : PageSet N} {pageId : PageId} {page : NodePage N}
    {origin : PageOrigin} (hget : ps.get pageId = some (page, origin)) {q : List Bool}
    (hq : pagePath q = pageId.path) : ps.nodeAt q = page.slot (slotOf q) := by
  simp [PageSet.nodeAt, pageIdOf_of_pagePath_eq hq, hget]

/-- Pushing a page shows its slots for the nodes of that page. -/
theorem view_push (w : PageWalker N) (sp : StackPage N) (q : List Bool) :
    view ps { w with stack := sp :: w.stack } q =
      if q ≠ [] ∧ sp.pageId.path = pagePath q then sp.page.slot (slotOf q)
      else view ps w q := by
  by_cases hq : q = []
  · simp [hq]
  · rw [view_of_ne_nil _ hq, view_of_ne_nil _ hq]
    show stackView ps (sp :: w.stack) q = _
    rw [stackView_cons]
    simp [hq]

omit [Zero N] in
/-- The page entered by `down`, fresh or from the page set, with counters the invariant allows. -/
theorem pushEntry_spec (hps : ps.Persisted) (fresh : Bool) (pageId : PageId)
    (hget : fresh = false → ∃ entry, ps.get pageId = some entry) :
    ∃ entry,
      (if fresh then some (ps.fresh pageId, freshOrigin) else ps.get pageId) = some entry ∧
      (StackPage.new pageId entry.1 PageDiff.default entry.2).CountersSane ∧
      (fresh = false → ps.get pageId = some entry) ∧
      (fresh = true → entry = (ps.fresh pageId, freshOrigin)) := by
  cases fresh with
  | true =>
    exact ⟨_, rfl, ⟨Or.inr rfl, Or.inr rfl, fun h => by simp [StackPage.new] at h⟩,
      fun h => absurd h (by decide), fun _ => rfl⟩
  | false =>
    obtain ⟨⟨page, origin⟩, hentry⟩ := hget rfl
    obtain ⟨bucketInfo, rfl⟩ := hps pageId page origin hentry
    exact ⟨_, hentry, ⟨Or.inl rfl, Or.inl rfl, fun h => by simp [StackPage.new] at h⟩,
      fun _ => hentry, fun h => absurd h (by decide)⟩

/-- The nodes of the page entered below `c` lie strictly below `c`. -/
theorem below_of_pagePath_eq_append {c q : List Bool} (hc : c = [] ∨ c.length % pageDepth = 0)
    (b : Bool) (hq : q ≠ []) (h : pagePath q = pagePath (c ++ [b])) : c <+: q ∧ q ≠ c := by
  have hpre := take_prefix_of_pagePath_eq h
  have hlt := lt_length_of_pagePath_eq hq h
  have hk : ((c ++ [b]).length - 1) / pageDepth * pageDepth = c.length := by
    rw [List.length_append, List.length_singleton, Nat.add_sub_cancel]
    rcases hc with rfl | hc
    · rfl
    · exact Nat.div_mul_cancel (Nat.dvd_of_mod_eq_zero hc)
  rw [hk, List.take_left' rfl] at hpre
  rw [hk] at hlt
  exact ⟨hpre, fun h' => by rw [h'] at hlt; omega⟩

section Push

variable {w : PageWalker N} {c : List Bool} {b : Bool} {pos : TriePos.TriePosition}
  {sp : StackPage N}

omit [Zero N] in
/-- The page of `c ++ [b]`, entered at the root or below the last layer of a page, is not on the
stack yet. -/
theorem Inv.not_mem_pushed (hinv : Inv w c) (hpid : sp.pageId.path = pagePath (c ++ [b]))
    (hroom : c = [] ∨ c.length % pageDepth = 0) :
    ∀ sp' ∈ w.stack, sp'.pageId.path ≠ sp.pageId.path := by
  -- the page is the first of the pages along `c ++ [b]`, and those are all different
  have hpages : pagesAlong (c ++ [b]) = pagePath (c ++ [b]) :: pagesAlong c := by
    by_cases hc : c = []
    · subst hc
      rw [List.nil_append, pagesAlong_singleton, pagePath_singleton, pagesAlong_nil]
    · exact pagesAlong_append_of_mod_eq_zero hc (hroom.resolve_left hc) b
  have hnew := (List.nodup_cons.mp (hpages ▸ nodup_pagesAlong (c ++ [b]))).1
  intro sp' hsp heq
  have hmem : sp'.pageId.path ∈ pagesAlong c := hinv.pages ▸ List.mem_map_of_mem hsp
  rw [heq, hpid] at hmem
  exact hnew hmem

omit [Zero N] in
/-- Pushing the page of `c ++ [b]` while stepping to `c ++ [b]` keeps the invariant. -/
theorem Inv.push (hinv : Inv w c) (hw : pos.WellFormed) (hpath : pos.path = c ++ [b])
    (hpages : pagesAlong (c ++ [b]) = sp.pageId.path :: pagesAlong c) (hsane : sp.CountersSane) :
    Inv { w with stack := sp :: w.stack, position := pos } (c ++ [b]) := by
  refine ⟨⟨hinv.reconstruction, hinv.parentPage, hinv.outputs,
    List.forall_mem_cons.mpr ⟨hsane, hinv.counters⟩⟩, hw, hpath, ?_⟩
  show sp.pageId.path :: w.stack.map _ = _
  rw [hinv.pages, hpages]

/-- The page pushed shows nodes strictly below `c` alone. -/
theorem view_push_frame (hpid : sp.pageId.path = pagePath (c ++ [b]))
    (hroom : c = [] ∨ c.length % pageDepth = 0) :
    ∀ q, ¬ (c <+: q ∧ q ≠ c) →
      view ps { w with stack := sp :: w.stack, position := pos } q = view ps w q := by
  intro q hq
  rw [view_push { w with position := pos } sp]
  split_ifs with h
  · exact absurd (below_of_pagePath_eq_append hroom b h.1 (h.2.symm.trans hpid)) hq
  · rfl

/-- A page pushed from the page set shows the nodes the view read there before. -/
theorem Inv.view_push_of_nodeAt (hinv : Inv w c) (hpid : sp.pageId.path = pagePath (c ++ [b]))
    (hroom : c = [] ∨ c.length % pageDepth = 0)
    (hfrom : ∀ q, pagePath q = sp.pageId.path → ps.nodeAt q = sp.page.slot (slotOf q)) :
    view ps { w with stack := sp :: w.stack, position := pos } = view ps w := by
  funext q
  rw [view_push { w with position := pos } sp]
  split_ifs with h
  · rw [view_of_ne_nil _ h.1, stackView_of_forall_ne ps fun sp' hsp heq =>
      hinv.not_mem_pushed hpid hroom sp' hsp (heq.trans h.2.symm)]
    exact (hfrom q h.2.symm).symm
  · rfl

end Push

/-- The stack page `down` makes of a fresh page: `StackPage::new` of a `Reconstructed` origin
with zero leaf counters. -/
def freshStackPage (ps : PageSet N) (pageId : PageId) : StackPage N :=
  StackPage.new pageId (ps.fresh pageId) PageDiff.default freshOrigin

/-- What a step down from `c` to `c ++ [b]` leaves of the walker: its invariant at `c ++ [b]`, its
last position, its view everywhere but strictly below `c`, its whole view when the page entered (if
any) comes from the page set, and, when fresh, a stack grown by fresh pages alone. -/
structure DownStep (ps : PageSet N) (fresh : Bool) (w : PageWalker N) (c : List Bool) (b : Bool)
    (w' : PageWalker N) : Prop where
  inv : Inv w' (c ++ [b])
  lastPosition_eq : w'.lastPosition = w.lastPosition
  view_frame : ∀ q, ¬ (c <+: q ∧ q ≠ c) → view ps w' q = view ps w q
  view_eq : fresh = false → view ps w' = view ps w
  stack_fresh : fresh = true →
    ∃ pushed : List PageId, w'.stack = pushed.map (freshStackPage ps) ++ w.stack

/-- Pushing the page of `c ++ [b]`, fresh or from the page set, is a step down. -/
theorem Inv.downStep_push {w : PageWalker N} {c : List Bool} {fresh b : Bool}
    {pos : TriePos.TriePosition} (hinv : Inv w c) (hw : pos.WellFormed)
    (hpath : pos.path = c ++ [b]) {pageId : PageId} {entry : NodePage N × PageOrigin}
    (hpid : pageId.path = pagePath (c ++ [b])) (hroom : c = [] ∨ c.length % pageDepth = 0)
    (hpages : pagesAlong (c ++ [b]) = pageId.path :: pagesAlong c)
    (hsane : (StackPage.new pageId entry.1 PageDiff.default entry.2).CountersSane)
    (hfrom : fresh = false → ps.get pageId = some entry)
    (hfresh : fresh = true → entry = (ps.fresh pageId, freshOrigin)) :
    DownStep ps fresh w c b { w with
      stack := StackPage.new pageId entry.1 PageDiff.default entry.2 :: w.stack
      position := pos } := by
  refine ⟨hinv.push hw hpath hpages hsane, rfl, view_push_frame hpid hroom,
    fun hf => hinv.view_push_of_nodeAt hpid hroom fun q hq =>
      PageSet.nodeAt_of_get (hfrom hf) hq,
    fun hf => ⟨[pageId], ?_⟩⟩
  rw [hfresh hf]
  rfl

omit [Zero N] in
/-- `down` at the root enters the root page. -/
theorem downBit_of_isRoot {w : PageWalker N} {fresh b : Bool} {pos : TriePos.TriePosition}
    (hroot : w.position.isRoot = true) (hdown : w.position.down b = some pos)
    {entry : NodePage N × PageOrigin}
    (hentry : (if fresh then some (ps.fresh rootPageId, freshOrigin) else ps.get rootPageId) =
      some entry) :
    downBit ps fresh w b = some { w with
      stack := StackPage.new rootPageId entry.1 PageDiff.default entry.2 :: w.stack
      position := pos } := by
  simp only [downBit, hroot, if_true]
  cases fresh with
  | true =>
    simp only [if_true, Option.some.injEq] at hentry
    subst hentry
    simp [hdown]
  | false =>
    simp only [Bool.false_eq_true, if_false] at hentry
    simp [hentry, hdown]

omit [Zero N] in
/-- `down` from the last layer of a page enters the child page. -/
theorem downBit_of_lastLayer {w : PageWalker N} {fresh b : Bool} {pos : TriePos.TriePosition}
    (hroot : w.position.isRoot = false) (hlast : w.position.depthInPage = pageDepth)
    {top : StackPage N} {rest : List (StackPage N)} (hstack : w.stack = top :: rest)
    {childPageIndex : ChildPageIndex} (hci : w.position.childPageIndex = some childPageIndex)
    {childPageId : PageId} (hchild : top.pageId.childPageId childPageIndex = .ok childPageId)
    (hdown : w.position.down b = some pos) {entry : NodePage N × PageOrigin}
    (hentry : (if fresh then some (ps.fresh childPageId, freshOrigin) else ps.get childPageId) =
      some entry) :
    downBit ps fresh w b = some { w with
      stack := StackPage.new childPageId entry.1 PageDiff.default entry.2 :: w.stack
      position := pos } := by
  simp only [downBit, hroot, Bool.false_eq_true, if_false, hlast, if_true, hstack,
    List.head?_cons, hci, hchild, Except.toOption, Option.bind_eq_bind, Option.bind_some]
  cases fresh with
  | true =>
    simp only [if_true, Option.some.injEq] at hentry
    subst hentry
    simp [hdown]
  | false =>
    simp only [Bool.false_eq_true, if_false] at hentry
    simp [hentry, hdown]

/-- A step down: the page entered is pushed, fresh or from the page set. The view changes only
strictly below the old position, and not at all when the page comes from the page set; a fresh
page enters with zero leaf counters. -/
theorem downBit_spec {w : PageWalker N} {c : List Bool} (hinv : Inv w c) (hlen : c.length < 256)
    (hps : ps.Persisted) (fresh b : Bool)
    (hget : fresh = false → (c = [] ∨ c.length % pageDepth = 0) →
      ∃ pageId entry, pageIdOf (c ++ [b]) = some pageId ∧ ps.get pageId = some entry) :
    ∃ w', downBit ps fresh w b = some w' ∧ DownStep ps fresh w c b w' := by
  obtain ⟨pos, hdown, hpath, hw⟩ := hinv.wellFormed.down (by rw [hinv.depth_eq]; exact hlen) b
  rw [hinv.path_eq] at hpath
  by_cases hc : c = []
  · -- at the root: enter the root page
    subst hc
    have hroot : w.position.isRoot = true := hinv.isRoot_iff.mpr rfl
    obtain ⟨entry, hentry, hsane, hfrom, hfresh⟩ :=
      pushEntry_spec hps fresh rootPageId fun hf => by
        obtain ⟨pageId, entry, hid, hget'⟩ := hget hf (Or.inl rfl)
        rw [pageIdOf_of_pagePath_eq (show pagePath ([] ++ [b]) = rootPageId.path by
          simp [rootPageId])] at hid
        cases hid
        exact ⟨entry, hget'⟩
    exact ⟨_, downBit_of_isRoot hroot hdown hentry, hinv.downStep_push hw hpath
      (by simp [rootPageId]) (Or.inl rfl)
      (by rw [List.nil_append, pagesAlong_singleton, pagesAlong_nil]; rfl) hsane hfrom hfresh⟩
  have hroot : w.position.isRoot = false := by
    rw [Bool.eq_false_iff]
    exact fun h => hc (hinv.isRoot_iff.mp h)
  have hd0 : w.position.depth ≠ 0 := by
    rw [hinv.depth_eq]
    exact fun h => hc (List.eq_nil_of_length_eq_zero h)
  by_cases hmod : c.length % pageDepth = 0
  · -- on the last layer of a page: enter the child page
    have hlast : w.position.depthInPage = pageDepth :=
      (depthInPage_eq_pageDepth_iff hd0).mpr (by rw [hinv.depth_eq]; exact hmod)
    obtain ⟨top, rest, hstack, htop, -⟩ := hinv.stack_eq_cons hc
    obtain ⟨childPageIndex, hci, hindex⟩ :=
      hinv.wellFormed.childPageIndex_eq hd0 (by rw [hinv.depth_eq]; exact hmod)
    have hdepth : top.pageId.depth < maxPageDepth := by
      rw [PageId.depth, htop, length_pagePath, maxPageDepth]
      rw [pageDepth_eq] at hmod ⊢
      omega
    obtain ⟨childPageId, hchild, hchildpath⟩ := PageId.childPageId_of_lt hdepth childPageIndex
    have hpid : childPageId.path = pagePath (c ++ [b]) := by
      rw [hchildpath, htop, hindex, hinv.path_eq, pagePath_append_of_mod_eq_zero hc hmod]
    obtain ⟨entry, hentry, hsane, hfrom, hfresh⟩ :=
      pushEntry_spec hps fresh childPageId fun hf => by
        obtain ⟨pageId, entry, hid, hget'⟩ := hget hf (Or.inr hmod)
        rw [pageIdOf_of_pagePath_eq hpid.symm] at hid
        cases hid
        exact ⟨entry, hget'⟩
    exact ⟨_, downBit_of_lastLayer hroot hlast hstack hci hchild hdown hentry,
      hinv.downStep_push hw hpath hpid (Or.inr hmod)
        (by rw [pagesAlong_append_of_mod_eq_zero hc hmod]; exact congrArg (· :: _) hpid.symm)
        hsane hfrom hfresh⟩
  · -- inside a page: no page to enter
    have hnot : w.position.depthInPage ≠ pageDepth := fun h =>
      hmod (by rw [← hinv.depth_eq]; exact (depthInPage_eq_pageDepth_iff hd0).mp h)
    refine ⟨{ w with position := pos }, ?_, ⟨⟨hinv.toSane.setPosition pos, hw, hpath, ?_⟩, rfl,
      fun _ _ => rfl, fun _ => rfl, fun _ => ⟨[], rfl⟩⟩⟩
    · simp only [downBit, hroot, Bool.false_eq_true, if_false, hnot, Option.pure_def,
        Option.bind_eq_bind, Option.bind_some, hdown]
    · rw [hinv.pages, pagesAlong_append_of_mod_ne_zero hmod]

/-- The nodes of a page left from its first layer lie strictly below the new position. -/
theorem below_dropLast_of_pagePath_eq {c q : List Bool} (hpop : (c.length - 1) % pageDepth = 0)
    (hq : q ≠ []) (h : pagePath q = pagePath c) :
    c.dropLast <+: q ∧ q ≠ c.dropLast := by
  have hpre := take_prefix_of_pagePath_eq h
  have hlt := lt_length_of_pagePath_eq hq h
  have hk : (c.length - 1) / pageDepth * pageDepth = c.length - 1 :=
    Nat.div_mul_cancel (Nat.dvd_of_mod_eq_zero hpop)
  rw [hk, ← List.dropLast_eq_take] at hpre
  rw [hk] at hlt
  refine ⟨hpre, fun h' => ?_⟩
  rw [h', List.length_dropLast] at hlt
  omega

/-- `up`: the position moves to the parent; leaving the first layer of a page hands the page on.
The view changes only strictly below the new position. -/
theorem up_spec (H : NodeHasher N V) {w : PageWalker N} {c : List Bool} (hinv : Inv w c)
    (hc : c ≠ []) :
    ∃ w', up H w = some w' ∧ Inv w' c.dropLast ∧ w'.lastPosition = w.lastPosition ∧
      (∀ q, ¬ (c.dropLast <+: q ∧ q ≠ c.dropLast) → view ps w' q = view ps w q) ∧
      ((c.length - 1) % pageDepth = 0 → HandedOn H w w'.stack w'.outputPages) ∧
      ((c.length - 1) % pageDepth ≠ 0 → w'.stack = w.stack ∧ w'.outputPages = w.outputPages) := by
  have hlen := List.length_pos_iff.mpr hc
  have hd0 : w.position.depth ≠ 0 := by rw [hinv.depth_eq]; omega
  obtain ⟨pos, hup, hpath, hw⟩ := hinv.wellFormed.up (d := 1) (by rw [hinv.depth_eq]; omega)
  have hpath' : pos.path = c.dropLast := by
    rw [hpath, hinv.path_eq, hinv.depth_eq, List.dropLast_eq_take]
  by_cases hpop : (c.length - 1) % pageDepth = 0
  · -- the first layer of a page: the page is handed on
    have hfirst : w.position.depthInPage = 1 :=
      (depthInPage_eq_one_iff hd0).mpr (by rw [hinv.depth_eq]; exact hpop)
    obtain ⟨top, rest, hstack, htop, hrest⟩ := hinv.stack_eq_cons hc
    obtain ⟨w₁, hh, hs₁, hslots, hframe, hhanded⟩ :=
      handleElisionThreshold_spec H hinv.toSane hstack
    have hpos₁ : w₁.position = w.position := by rw [hframe]
    have hpaths :
        w₁.stack.map (fun sp => sp.pageId.path) = rest.map (fun sp => sp.pageId.path) := by
      have := congrArg (List.map Prod.fst) hslots
      simpa [List.map_map, StackPage.slots, Function.comp_def] using this
    refine ⟨{ w₁ with position := pos }, ?_, ⟨hs₁.setPosition pos, hw, hpath', ?_⟩,
      ?_, ?_, fun _ => hhanded, fun h => absurd hpop h⟩
    · simp only [up, hfirst, if_true, hh, Option.bind_eq_bind, Option.bind_some, hpos₁, hup]
      rfl
    · show w₁.stack.map _ = _
      rw [hpaths, hrest, pagesAlong_dropLast_of_mod_eq_zero hc hpop]
    · rw [hframe]
    · intro q hq
      have hview : view ps { w₁ with position := pos } = view ps { w with stack := rest } :=
        view_congr (by rw [hframe]) hslots
      rw [hview]
      by_cases hq0 : q = []
      · subst hq0
        rfl
      -- a node of the page handed on would lie strictly below the new position
      rw [view_of_ne_nil _ hq0, view_of_ne_nil _ hq0, hstack, stackView_cons,
        if_neg fun h => hq (below_dropLast_of_pagePath_eq hpop hq0 (htop ▸ h).symm)]
  · have hnot : w.position.depthInPage ≠ 1 := fun h =>
      hpop (by rw [← hinv.depth_eq]; exact (depthInPage_eq_one_iff hd0).mp h)
    refine ⟨{ w with position := pos }, ?_,
      ⟨hinv.toSane.setPosition pos, hw, hpath', ?_⟩, rfl,
      fun _ _ => rfl, fun h => absurd h hpop, fun _ => ⟨rfl, rfl⟩⟩
    · simp only [up, hnot, if_false, Option.pure_def, Option.bind_eq_bind, Option.bind_some, hup]
    · rw [hinv.pages, pagesAlong_dropLast_of_mod_ne_zero hpop]

/-- One step below the root, holding the root page, `up` hands the root page on. -/
theorem up_spec_root_page :
    ∃ w : PageWalker (FreeNode Unit), Inv w [false] ∧ ∃ w', up freeHasher w = some w' ∧
      Inv w' [false].dropLast ∧ w'.lastPosition = w.lastPosition ∧
      (∀ q, ¬ ([false].dropLast <+: q ∧ q ≠ [false].dropLast) →
        view (⟨fun _ => none, fun _ => ⟨Vector.replicate NODES_PER_PAGE 0, ElidedChildren.new⟩⟩ :
          PageSet (FreeNode Unit)) w' q =
        view (⟨fun _ => none, fun _ => ⟨Vector.replicate NODES_PER_PAGE 0, ElidedChildren.new⟩⟩ :
          PageSet (FreeNode Unit)) w q) ∧
      (([false].length - 1) % pageDepth = 0 → HandedOn freeHasher w w'.stack w'.outputPages) ∧
      (([false].length - 1) % pageDepth ≠ 0 →
        w'.stack = w.stack ∧ w'.outputPages = w.outputPages) := by
  obtain ⟨w, hinv⟩ : ∃ w : PageWalker (FreeNode Unit), Inv w [false] := exists_inv_below_root
  exact ⟨w, hinv, up_spec freeHasher hinv (by simp)⟩

/-- `down` into fresh pages along `bits`: the view changes only strictly below the old
position. -/
theorem down_spec (hps : ps.Persisted) :
    ∀ (bits : List Bool) {w : PageWalker N} {c : List Bool}, Inv w c →
      c.length + bits.length ≤ 256 →
      ∃ w', down ps w bits true = some w' ∧ Inv w' (c ++ bits) ∧
        w'.lastPosition = w.lastPosition ∧
        (∀ q, ¬ (c <+: q ∧ q ≠ c) → view ps w' q = view ps w q) ∧
        ∃ pushed : List PageId, w'.stack = pushed.map (freshStackPage ps) ++ w.stack
  | [], w, c, hinv, _ =>
    ⟨w, rfl, by rw [List.append_nil]; exact hinv, rfl, fun _ _ => rfl, [], rfl⟩
  | b :: bits, w, c, hinv, hlen => by
    obtain ⟨w₁, hstep, hinv₁, hlast₁, hview₁, -, hfresh₁⟩ := downBit_spec hinv
      (by simp at hlen; omega) hps true b (fun h => absurd h (by decide))
    obtain ⟨w₂, hrest, hinv₂, hlast₂, hview₂, pushed₂, hstack₂⟩ :=
      down_spec hps bits hinv₁ (by simp at hlen ⊢; omega)
    obtain ⟨pushed₁, hstack₁⟩ := hfresh₁ rfl
    refine ⟨w₂, ?_, by simpa using hinv₂, hlast₂.trans hlast₁, fun q hq => ?_,
      pushed₂ ++ pushed₁, by rw [hstack₂, hstack₁, List.map_append, List.append_assoc]⟩
    · rw [down, List.foldlM_cons, hstep, Option.bind_eq_bind, Option.bind_some]
      exact hrest
    · -- strictly below `c ++ [b]` is strictly below `c`
      rw [hview₂ q fun h => hq ⟨(List.prefix_append c [b]).trans h.1, fun h' => by
        subst h'
        have := h.1.length_le
        simp at this⟩, hview₁ q hq]

/-- From a new walker at the root, `down` along seven bits enters the fresh root page and the
fresh child page below its last layer. -/
theorem down_spec_from_root :
    (⟨fun _ => none, fun _ => ⟨Vector.replicate NODES_PER_PAGE 0, ElidedChildren.new⟩⟩ :
      PageSet (FreeNode Unit)).Persisted ∧ Inv (PageWalker.new (0 : FreeNode Unit) none) [] ∧
    ∃ w', down (⟨fun _ => none, fun _ => ⟨Vector.replicate NODES_PER_PAGE 0, ElidedChildren.new⟩⟩ :
        PageSet (FreeNode Unit)) (PageWalker.new 0 none)
          [false, true, true, false, true, false, true] true = some w' ∧
      Inv w' ([] ++ [false, true, true, false, true, false, true]) ∧
      w'.lastPosition = (PageWalker.new (0 : FreeNode Unit) none).lastPosition ∧
      (∀ q, ¬ ([] <+: q ∧ q ≠ []) →
        view (⟨fun _ => none, fun _ => ⟨Vector.replicate NODES_PER_PAGE 0, ElidedChildren.new⟩⟩ :
          PageSet (FreeNode Unit)) w' q =
        view (⟨fun _ => none, fun _ => ⟨Vector.replicate NODES_PER_PAGE 0, ElidedChildren.new⟩⟩ :
          PageSet (FreeNode Unit)) (PageWalker.new 0 none) q) ∧
      ∃ pushed : List PageId, w'.stack = pushed.map (freshStackPage (⟨fun _ => none,
        fun _ => ⟨Vector.replicate NODES_PER_PAGE 0, ElidedChildren.new⟩⟩ :
          PageSet (FreeNode Unit))) ++ (PageWalker.new (0 : FreeNode Unit) none).stack := by
  have hps : (⟨fun _ => none, fun _ => ⟨Vector.replicate NODES_PER_PAGE 0, ElidedChildren.new⟩⟩ :
      PageSet (FreeNode Unit)).Persisted := fun _ _ _ h => by simp at h
  have hinv : Inv (PageWalker.new (0 : FreeNode Unit) none) [] :=
    { reconstruction := rfl
      parentPage := rfl
      outputs := fun o ho => by simp [PageWalker.new, PageWalker.newInner] at ho
      counters := fun sp hsp => by simp [PageWalker.new, PageWalker.newInner] at hsp
      wellFormed := wellFormed_new
      path_eq := path_new
      pages := rfl }
  exact ⟨hps, hinv, down_spec hps [false, true, true, false, true, false, true] hinv (by decide)⟩

end PageWalker

end Nomt.Merkle

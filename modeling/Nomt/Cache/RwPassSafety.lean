import Nomt.Cache.RwPassCell
import Nomt.Lib.ListMaps

/-!
# Write passes never alias

Over every interleaving of pass operations, for a region type that keeps the safety contract of
`Region` (`LawfulRegion`):

* two live write passes never share an ID that one holds exclusively and the other holds at all,
  so `RwPassCell::write` and `RwPassCell::read` never hand out aliasing access through them;
* no read pass lives beside a write pass, and all live write passes hold the one write guard;
* `consume` of a child hands back its split's region exactly when every other child of the split
  was consumed or dropped (`consume_isSome_iff`).

The invariant (`TreeInv`) is about the split tree: the cells, linked by their parent pointers, and
the live passes hanging below them. Each cell's count is the number of its child slots still held,
by a live pass or by a split of a child that has not handed its region back (`holders`), and those
slots with the released ones are the children of the split. The regions are separated: two live
passes, a live pass and a cell it is not below, and two cells neither of which lies below the
other, as long as a live pass lies below the cells. `consume` hands back a region only when no
live pass lies below it any more (`not_above_of_last`).
-/

namespace Nomt.RwPass

open Region RegionContains

variable {R Id : Type}

/-! ### The tree of cells -/

/-- The cell `n` lies on the chain of parents from the pointer `p`. -/
inductive Above (nodes : List (ParentWritePass R)) : Option Nat → Nat → Prop
  | here (n : Nat) : Above nodes (some n) n
  | up {m n : Nat} {node : ParentWritePass R} :
      nodes[m]? = some node → Above nodes node.parent n → Above nodes (some m) n

/-- Every cell's parent was allocated before it. -/
@[reducible] def ParentsBefore (nodes : List (ParentWritePass R)) : Prop :=
  ∀ (m : Nat) (node : ParentWritePass R), nodes[m]? = some node → ∀ n, node.parent = some n → n < m

namespace Above

variable {nodes nodes' : List (ParentWritePass R)} {p : Option Nat} {m n : Nat}

theorem not_none : ¬Above nodes none n := nofun

theorem trans (h : Above nodes p m) (h' : Above nodes (some m) n) : Above nodes p n := by
  induction h with
  | here => exact h'
  | up hm _ ih => exact .up hm (ih h')

/-- `Above` from a cell: the cell itself, or above its parent. -/
theorem some_iff {node : ParentWritePass R} (hm : nodes[m]? = some node) :
    Above nodes (some m) n ↔ m = n ∨ Above nodes node.parent n := by
  constructor
  · intro h
    cases h with
    | here => exact .inl rfl
    | up hm' h' =>
      rw [hm] at hm'
      cases hm'
      exact .inr h'
  · rintro (rfl | h)
    · exact .here m
    · exact .up hm h

/-- The cells above a pointer come before it. -/
theorem le (hwf : ParentsBefore nodes) (h : Above nodes p n) : ∀ m, p = some m → n ≤ m := by
  induction h with
  | here n =>
    intro m hm
    cases hm
    exact Nat.le_refl _
  | @up m n node hm _ ih =>
    intro k hk
    cases hk
    cases hparent : node.parent with
    | none => rw [hparent] at ih; exact absurd ‹Above nodes _ _› (by rw [hparent]; exact not_none)
    | some j => exact Nat.le_of_lt (Nat.lt_of_le_of_lt (ih j hparent) (hwf _ _ hm j hparent))

/-- No cell lies above its own parent. -/
theorem not_parent (hwf : ParentsBefore nodes) {node : ParentWritePass R}
    (hm : nodes[m]? = some node) : ¬Above nodes node.parent m := by
  intro h
  cases hparent : node.parent with
  | none => rw [hparent] at h; exact not_none h
  | some j =>
    rw [hparent] at h
    exact absurd (Nat.lt_of_le_of_lt (h.le hwf j rfl) (hwf m node hm j hparent)) (Nat.lt_irrefl m)

/-- A chain that passes through `n` from below passes through a child of `n`. -/
theorem exists_child (h : Above nodes p n) (hne : p ≠ some n) :
    ∃ m node, Above nodes p m ∧ nodes[m]? = some node ∧ node.parent = some n := by
  induction h with
  | here n => exact absurd rfl hne
  | @up m n node hm _ ih =>
    by_cases hp : node.parent = some n
    · exact ⟨m, node, .here m, hm, hp⟩
    · obtain ⟨k, nk, hk, hnk, hpar⟩ := ih hp
      exact ⟨k, nk, .up hm hk, hnk, hpar⟩

/-- `Above` sees only the parent pointers. -/
theorem congr
    (hpar : ∀ m : Nat,
      (nodes'[m]?).map ParentWritePass.parent = (nodes[m]?).map ParentWritePass.parent)
    (h : Above nodes p n) : Above nodes' p n := by
  induction h with
  | here n => exact .here n
  | @up m n node hm _ ih =>
    have hm' := hpar m
    rw [hm] at hm'
    cases h' : nodes'[m]? with
    | none => rw [h'] at hm'; cases hm'
    | some node' =>
      rw [h'] at hm'
      have hpp : node'.parent = node.parent := Option.some.inj hm'
      exact .up h' (hpp ▸ ih)

theorem append (xs : List (ParentWritePass R)) (h : Above nodes p n) : Above (nodes ++ xs) p n := by
  induction h with
  | here n => exact .here n
  | up hm _ ih =>
    exact .up (by rw [List.getElem?_append_left (List.getElem?_eq_some_iff.mp hm).1, hm]) ih

/-- A chain from a cell of the old table stays in it when the table grows. -/
theorem of_append (hwf : ParentsBefore nodes) {xs : List (ParentWritePass R)}
    (h : Above (nodes ++ xs) p n) (hp : ∀ m, p = some m → m < nodes.length) : Above nodes p n := by
  induction h with
  | here n => exact .here n
  | @up m n node hm _ ih =>
    have hlt := hp m rfl
    rw [List.getElem?_append_left hlt] at hm
    exact .up hm (ih fun j hj => Nat.lt_trans (hwf m node hm j hj) hlt)

end Above

/-! ### Slots and separation -/

/-- The child slot of the split `n` a live pass holds. -/
def WritePass.slotIn (n : Nat) (w : WritePass R) : Option Nat :=
  if w.parent = some n then some w.index else none

/-- The child slot of the split `n` a cell holds, until `consume` hands its region back. -/
def ParentWritePass.slotIn (n : Nat) (node : ParentWritePass R) : Option Nat :=
  if node.parent = some n ∧ node.yielded = false then some node.index else none

/-- The child slots of the split `n` still held: by live passes, and by the splits of children
that have not handed their region back. -/
def holders (nodes : List (ParentWritePass R)) (ws : List (WritePass R)) (n : Nat) : List Nat :=
  ws.filterMap (WritePass.slotIn n) ++ nodes.filterMap (ParentWritePass.slotIn n)

/-- Some live pass lies below the cell `n`. -/
def LiveBelow (nodes : List (ParentWritePass R)) (ws : List (WritePass R)) (n : Nat) : Prop :=
  ∃ u ∈ ws, Above nodes u.parent n

/-- Neither region holds exclusively an ID the other holds at all. -/
def Sep (Id : Type) [RegionContains R Id] (a b : PassRegion R) : Prop :=
  ∀ id : Id, ¬(containsExclusive a id ∧ contains b id) ∧ ¬(containsExclusive b id ∧ contains a id)

namespace Sep

variable [RegionContains R Id] {a a' b : PassRegion R}

theorem symm (h : Sep Id a b) : Sep Id b a := fun id => (h id).symm

variable [Region R] [LawfulRegion R Id]

theorem of_excludesUnique (h : excludesUnique a b) : Sep Id a b := fun _ =>
  ⟨fun ⟨ha, hb⟩ => LawfulRegion.excludesUnique_containsExclusive h ha hb,
    fun ⟨hb, ha⟩ => LawfulRegion.excludesUnique_contains h hb ha⟩

/-- A region within a separated one is separated too. -/
theorem mono (h : Sep Id a b) (henc : encompasses a a') : Sep Id a' b := fun id =>
  ⟨fun ⟨ha', hb⟩ => (h id).1 ⟨LawfulRegion.encompasses_containsExclusive henc ha', hb⟩,
    fun ⟨hb, ha'⟩ => (h id).2 ⟨hb, LawfulRegion.encompasses_contains henc ha'⟩⟩

omit [Region R] [LawfulRegion R Id] in
/-- Only a region that holds nothing is separated from the universal one. -/
theorem of_universal (h : Sep Id .universal b) : Sep Id a b := fun id =>
  ⟨fun ⟨_, hb⟩ => (h id).1 ⟨rfl, hb⟩, fun ⟨hb, _⟩ => (h id).2 ⟨hb, rfl⟩⟩

end Sep

/-- The invariant of the split tree. -/
structure TreeInv (Id : Type) [RegionContains R Id] (nodes : List (ParentWritePass R))
    (ws : List (WritePass R)) : Prop where
  live : ∀ w ∈ ws, w.consumed = false
  passParent : ∀ w ∈ ws, ∀ n, w.parent = some n → n < nodes.length
  parentsBefore : ParentsBefore nodes
  /-- a split's count is the number of its slots still held, and those with the released ones
  are its children -/
  slots : ∀ n node, nodes[n]? = some node →
    node.remainingChildren = (holders nodes ws n).length ∧
      (holders nodes ws n ++ node.released).Perm (List.range node.children)
  unyielded : ∀ w ∈ ws, ∀ n, Above nodes w.parent n →
    ∃ node, nodes[n]? = some node ∧ node.yielded = false
  sepPasses : ws.Pairwise fun w w' => Sep Id w.region w'.region
  sepPassNode : ∀ w ∈ ws, ∀ n node, nodes[n]? = some node → LiveBelow nodes ws n →
    ¬Above nodes w.parent n → Sep Id w.region node.region
  sepNodes : ∀ n n' node node', nodes[n]? = some node → nodes[n']? = some node' →
    LiveBelow nodes ws n → LiveBelow nodes ws n' → ¬Above nodes (some n) n' →
    ¬Above nodes (some n') n → Sep Id node.region node'.region

/-! ### Frame lemmas -/

/-- What the tree reads of a cell: its parent pointer and its region. -/
def ParentWritePass.shape (node : ParentWritePass R) : Option Nat × PassRegion R :=
  (node.parent, node.region)

section Frame

variable {nodes nodes' : List (ParentWritePass R)} {ws : List (WritePass R)} {w : WritePass R}
  {n k : Nat} {node x : ParentWritePass R} {p : Option Nat}

theorem above_iff_of_shape
    (h : nodes'.map ParentWritePass.shape = nodes.map ParentWritePass.shape) :
    Above nodes' p k ↔ Above nodes p k := by
  have hpar : ∀ m : Nat,
      (nodes'[m]?).map ParentWritePass.parent = (nodes[m]?).map ParentWritePass.parent := by
    intro m
    have := congrArg (fun l => (l[m]?).map Prod.fst) h
    simp only [List.getElem?_map, Option.map_map] at this
    exact this
  exact ⟨Above.congr fun m => (hpar m).symm, Above.congr hpar⟩

theorem exists_of_shape (h : nodes'.map ParentWritePass.shape = nodes.map ParentWritePass.shape)
    (hk : nodes'[k]? = some x) : ∃ node, nodes[k]? = some node ∧ node.shape = x.shape := by
  have := congrArg (·[k]?) h
  simp only [List.getElem?_map, hk, Option.map_some] at this
  cases hnode : nodes[k]? with
  | none => rw [hnode] at this; cases this
  | some node =>
    rw [hnode] at this
    exact ⟨node, rfl, (Option.some.inj this).symm⟩

theorem shape_set (hn : nodes[n]? = some node) (hx : x.shape = node.shape) :
    (nodes.set n x).map ParentWritePass.shape = nodes.map ParentWritePass.shape := by
  apply List.ext_getElem?
  intro k
  rw [List.getElem?_map, List.getElem?_map, List.getElem?_set]
  split_ifs with hnk hlt
  · subst hnk
    rw [hn, Option.map_some, Option.map_some, hx]
  · exact absurd (List.getElem?_eq_some_iff.mp hn).1 hlt
  · rfl

theorem getElem?_set_of (hk : (nodes.set n x)[k]? = some node') :
    (n = k ∧ node' = x) ∨ (n ≠ k ∧ nodes[k]? = some node') := by
  rw [List.getElem?_set] at hk
  split_ifs at hk with hnk hlt
  · exact .inl ⟨hnk, (Option.some.inj hk).symm⟩
  · exact .inr ⟨hnk, hk⟩

theorem LiveBelow.mono {ws' : List (WritePass R)} (h : LiveBelow nodes ws n)
    (hsub : ∀ u ∈ ws, u ∈ ws') : LiveBelow nodes ws' n := by
  obtain ⟨u, hu, habove⟩ := h
  exact ⟨u, hsub u hu, habove⟩

theorem liveBelow_iff_of_shape
    (h : nodes'.map ParentWritePass.shape = nodes.map ParentWritePass.shape) :
    LiveBelow nodes' ws n ↔ LiveBelow nodes ws n := by
  simp only [LiveBelow, above_iff_of_shape h]

theorem holders_cons (nodes : List (ParentWritePass R)) (w : WritePass R) (ws : List (WritePass R))
    (n : Nat) : holders nodes (w :: ws) n = (w.slotIn n).toList ++ holders nodes ws n := by
  rw [holders, holders, List.filterMap_cons_eq_toList_append, List.append_assoc]

theorem WritePass.slotIn_of_ne (h : w.parent ≠ some n) : w.slotIn n = none := if_neg h

/-- A pass with no parent holds no slot. -/
theorem holders_cons_of_none (h : w.parent = none) : holders nodes (w :: ws) n = holders nodes ws n := by
  rw [holders_cons, WritePass.slotIn_of_ne (by simp [h]), Option.toList_none, List.nil_append]

theorem WritePass.slotIn_of_eq (h : w.parent = some n) : w.slotIn n = some w.index := if_pos h

theorem getElem?_set_of_ne (hnk : n ≠ k) (hk : nodes[k]? = some node) :
    (nodes.set n x)[k]? = some node := by
  rw [List.getElem?_set_ne hnk, hk]

theorem parentsBefore_of_shape (hwf : ParentsBefore nodes)
    (h : nodes'.map ParentWritePass.shape = nodes.map ParentWritePass.shape) :
    ParentsBefore nodes' := by
  intro m nm hm j hj
  obtain ⟨m0, hm0, hsame⟩ := exists_of_shape h hm
  exact hwf m m0 hm0 j (by rw [← hj]; exact congrArg Prod.fst hsame)

theorem getElem?_append_singleton {y : ParentWritePass R} (h : (nodes ++ [x])[k]? = some y) :
    (k < nodes.length ∧ nodes[k]? = some y) ∨ (k = nodes.length ∧ y = x) := by
  by_cases hk : k < nodes.length
  · rw [List.getElem?_append_left hk] at h
    exact .inl ⟨hk, h⟩
  · rw [List.getElem?_append_right (Nat.le_of_not_lt hk), List.getElem?_singleton] at h
    split_ifs at h with h0
    cases h
    exact .inr ⟨by omega, rfl⟩

theorem mem_holders (hw : w ∈ ws) (h : w.parent = some n) : w.index ∈ holders nodes ws n :=
  List.mem_append_left _ (List.mem_filterMap.mpr ⟨w, hw, WritePass.slotIn_of_eq h⟩)

/-- The children of a split hold the slots `0..n` of the new cell, and no other. -/
theorem filterMap_slotIn_splitChildren {parent guard : Nat} {regions : List (PassRegion R)} :
    (splitChildren parent guard regions).filterMap (WritePass.slotIn k) =
      if k = parent then List.range regions.length else [] := by
  split_ifs with hk
  · subst hk
    have hcongr : (splitChildren k guard regions).filterMap (WritePass.slotIn k) =
        (splitChildren k guard regions).filterMap (some ∘ WritePass.index) :=
      List.filterMap_congr fun c hc => by
        obtain ⟨i, _, rfl⟩ := mem_splitChildren.mp hc
        exact if_pos rfl
    rw [hcongr, List.filterMap_eq_map, map_index_splitChildren]
  · rw [List.filterMap_eq_nil_iff]
    intro c hc
    obtain ⟨i, _, rfl⟩ := mem_splitChildren.mp hc
    exact if_neg fun h => hk (Option.some.inj h).symm

end Frame

namespace TreeInv

variable [RegionContains R Id] {nodes : List (ParentWritePass R)} {ws rest : List (WritePass R)}
  {w : WritePass R} {n : Nat} {node : ParentWritePass R}

/-- The invariant is about the set of live passes, not their order. -/
theorem perm {ws' : List (WritePass R)} (h : TreeInv Id nodes ws) (hp : ws.Perm ws') :
    TreeInv Id nodes ws' where
  live u hu := h.live u (hp.mem_iff.mpr hu)
  passParent u hu := h.passParent u (hp.mem_iff.mpr hu)
  parentsBefore := h.parentsBefore
  slots k nk hk := by
    have hh : (holders nodes ws' k).Perm (holders nodes ws k) :=
      (hp.filterMap _).symm.append_right _
    obtain ⟨hcount, hperm⟩ := h.slots k nk hk
    exact ⟨hcount.trans hh.length_eq.symm, (hh.append_right _).trans hperm⟩
  unyielded u hu := h.unyielded u (hp.mem_iff.mpr hu)
  sepPasses := hp.pairwise h.sepPasses fun hab => hab.symm
  sepPassNode u hu k nk hk hlive :=
    h.sepPassNode u (hp.mem_iff.mpr hu) k nk hk (hlive.mono fun v hv => hp.mem_iff.mpr hv)
  sepNodes k k' nk nk' hk hk' hl hl' :=
    h.sepNodes k k' nk nk' hk hk' (hl.mono fun v hv => hp.mem_iff.mpr hv)
      (hl'.mono fun v hv => hp.mem_iff.mpr hv)

/-- Dropping or consuming a pass with no parent leaves the tree as it is. -/
theorem removeRoot (h : TreeInv Id nodes (w :: rest)) (hw : w.parent = none) :
    TreeInv Id nodes rest where
  live u hu := h.live u (.tail _ hu)
  passParent u hu := h.passParent u (.tail _ hu)
  parentsBefore := h.parentsBefore
  slots k nk hk := by
    have := h.slots k nk hk
    rwa [holders_cons_of_none hw] at this
  unyielded u hu := h.unyielded u (.tail _ hu)
  sepPasses := (List.pairwise_cons.mp h.sepPasses).2
  sepPassNode u hu k nk hk hlive :=
    h.sepPassNode u (.tail _ hu) k nk hk (hlive.mono fun _ hv => .tail _ hv)
  sepNodes k k' nk nk' hk hk' hl hl' :=
    h.sepNodes k k' nk nk' hk hk' (hl.mono fun _ hv => .tail _ hv) (hl'.mono fun _ hv => .tail _ hv)

/-- A child that is dropped, or consumed while siblings remain, releases its slot. -/
theorem release (h : TreeInv Id nodes (w :: rest)) (hw : w.parent = some n)
    (hn : nodes[n]? = some node) : TreeInv Id (nodes.set n (node.release w.index)) rest := by
  have hshape := shape_set (x := node.release w.index) hn rfl
  have hslot : ∀ k, (node.release w.index).slotIn k = node.slotIn k := fun _ => rfl
  -- the slots held after: those held before, but `w`'s
  have hholders : ∀ k, (holders (nodes.set n (node.release w.index)) rest k).Perm
      (rest.filterMap (WritePass.slotIn k) ++ nodes.filterMap (ParentWritePass.slotIn k)) :=
    fun k => (List.filterMap_set_perm_of_eq _ hn (hslot k)).append_left _
  refine ⟨fun u hu => h.live u (.tail _ hu), fun u hu k hk => ?_, fun m nm hm j hj => ?_,
    fun k nk hk => ?_, fun u hu k habove => ?_, (List.pairwise_cons.mp h.sepPasses).2,
    fun u hu k nk hk hlive hnot => ?_, fun k k' nk nk' hk hk' hl hl' hnot hnot' => ?_⟩
  · rw [List.length_set]
    exact h.passParent u (.tail _ hu) k hk
  · exact parentsBefore_of_shape h.parentsBefore hshape m nm hm j hj
  · have hold := holders_cons nodes w rest k
    rcases getElem?_set_of hk with ⟨rfl, rfl⟩ | ⟨hne, hk⟩
    · -- the split `w` belongs to: one slot fewer held, one more released
      obtain ⟨hcount, hperm⟩ := h.slots n node hn
      rw [hold, WritePass.slotIn_of_eq hw] at hcount hperm
      refine ⟨?_, ?_⟩
      · rw [(hholders n).length_eq]
        simp only [ParentWritePass.release, hcount, Option.toList_some, List.singleton_append,
          List.length_cons, Nat.add_sub_cancel, holders]
      · exact ((hholders n).append_right _).trans (List.perm_middle.trans hperm)
    · obtain ⟨hcount, hperm⟩ := h.slots k nk hk
      rw [hold, WritePass.slotIn_of_ne (by rw [hw]; exact fun heq => hne (Option.some.inj heq)),
        Option.toList_none, List.nil_append] at hcount hperm
      exact ⟨hcount.trans (hholders k).length_eq.symm, ((hholders k).append_right _).trans hperm⟩
  · obtain ⟨nk, hk, hy⟩ := h.unyielded u (.tail _ hu) k ((above_iff_of_shape hshape).mp habove)
    by_cases hnk : n = k
    · subst hnk
      rw [hn] at hk
      cases hk
      exact ⟨_, List.getElem?_set_self (List.getElem?_eq_some_iff.mp hn).1, hy⟩
    · exact ⟨nk, by rw [List.getElem?_set_ne hnk]; exact hk, hy⟩
  · obtain ⟨nk0, hk0, hsame⟩ := exists_of_shape hshape hk
    have := h.sepPassNode u (.tail _ hu) k nk0 hk0
      ((liveBelow_iff_of_shape hshape).mp hlive |>.mono fun _ hv => .tail _ hv)
      (fun ha => hnot ((above_iff_of_shape hshape).mpr ha))
    rwa [show nk0.region = nk.region from congrArg Prod.snd hsame] at this
  · obtain ⟨nk0, hk0, hsame⟩ := exists_of_shape hshape hk
    obtain ⟨nk0', hk0', hsame'⟩ := exists_of_shape hshape hk'
    have := h.sepNodes k k' nk0 nk0' hk0 hk0'
      ((liveBelow_iff_of_shape hshape).mp hl |>.mono fun _ hv => .tail _ hv)
      ((liveBelow_iff_of_shape hshape).mp hl' |>.mono fun _ hv => .tail _ hv)
      (fun ha => hnot ((above_iff_of_shape hshape).mpr ha))
      (fun ha => hnot' ((above_iff_of_shape hshape).mpr ha))
    rwa [show nk0.region = nk.region from congrArg Prod.snd hsame,
      show nk0'.region = nk'.region from congrArg Prod.snd hsame'] at this

/-- When `w` holds the last slot of its split, no other live pass lies below the split: every
other pass below it would hold a slot, directly or through the split of a child. -/
theorem not_above_of_last (h : TreeInv Id nodes (w :: rest)) (hw : w.parent = some n)
    (hn : nodes[n]? = some node) (hone : node.remainingChildren = 1) :
    ∀ u ∈ rest, ¬Above nodes u.parent n := by
  have hcount := (h.slots n node hn).1
  rw [hone, holders_cons, WritePass.slotIn_of_eq hw, Option.toList_some, List.singleton_append,
    List.length_cons, Nat.right_eq_add, List.length_eq_zero_iff] at hcount
  intro u hu habove
  by_cases hp : u.parent = some n
  · -- `u` holds a slot itself
    have : u.index ∈ holders nodes rest n := mem_holders hu hp
    rw [hcount] at this
    exact List.not_mem_nil this
  · -- `u` lies below a child split that has not handed its region back
    obtain ⟨m, nm, hum, hnm, hpar⟩ := habove.exists_child hp
    obtain ⟨nm', hnm', hy⟩ := h.unyielded u (.tail _ hu) m hum
    rw [hnm] at hnm'
    cases hnm'
    have : nm.index ∈ holders nodes rest n := List.mem_append_right _
      (List.mem_filterMap.mpr ⟨nm, List.mem_of_getElem? hnm, if_pos ⟨hpar, hy⟩⟩)
    rw [hcount] at this
    exact List.not_mem_nil this

/-- The child that takes the last slot of its split gets the split's region back: the cell is
marked as handed back, and the new pass holds the cell's own slot in the split above. -/
theorem yield (h : TreeInv Id nodes (w :: rest)) (hw : w.parent = some n)
    (hn : nodes[n]? = some node) (hone : node.remainingChildren = 1) :
    TreeInv Id (nodes.set n { node.release w.index with yielded := true })
      (⟨node.parent, false, node.region, w.guard, node.index⟩ :: rest) := by
  set x : ParentWritePass R := { node.release w.index with yielded := true }
  set y : WritePass R := ⟨node.parent, false, node.region, w.guard, node.index⟩
  have hwf := h.parentsBefore
  have hshape := shape_set (x := x) hn rfl
  have hlt : n < nodes.length := (List.getElem?_eq_some_iff.mp hn).1
  have hwn : Above nodes w.parent n := hw ▸ .here n
  have hunyielded : node.yielded = false := by
    obtain ⟨nn, hnn, hy⟩ := h.unyielded w (.head _) n hwn
    rw [hn] at hnn
    cases hnn
    exact hy
  have hbelow := not_above_of_last h hw hn hone
  have hparent : ¬Above nodes node.parent n := Above.not_parent hwf hn
  -- a cell with a live pass below it afterwards had one before, and is not below `n`
  have hlive : ∀ k, LiveBelow (nodes.set n x) (y :: rest) k →
      LiveBelow nodes (w :: rest) k ∧ ¬Above nodes (some k) n := by
    rintro k ⟨v, hv, habove⟩
    rw [above_iff_of_shape hshape] at habove
    rcases List.mem_cons.mp hv with rfl | hv
    · exact ⟨⟨w, .head _, hw ▸ .up hn habove⟩, fun hk => hparent (habove.trans hk)⟩
    · exact ⟨⟨v, .tail _ hv, habove⟩, fun hk => hbelow v hv (habove.trans hk)⟩
  -- the slots held afterwards are those held before, but `w`'s
  have hholders : ∀ k, (holders (nodes.set n x) (y :: rest) k).Perm
      (rest.filterMap (WritePass.slotIn k) ++ nodes.filterMap (ParentWritePass.slotIn k)) := by
    intro k
    have hset := List.filterMap_set_perm (ParentWritePass.slotIn k) (b := x) hn
    have hx : x.slotIn k = none := if_neg fun hk => Bool.true_eq_false.mp hk.2
    have hy : node.slotIn k = y.slotIn k := by
      simp only [ParentWritePass.slotIn, WritePass.slotIn, hunyielded, and_true]
      rfl
    rw [hx, Option.toList_none, List.append_nil, hy] at hset
    rw [holders_cons, holders]
    refine List.perm_append_comm.trans ?_
    rw [List.append_assoc]
    exact hset.append_left _
  refine ⟨?_, ?_, parentsBefore_of_shape hwf hshape, fun k nk hk => ?_, ?_, ?_,
    fun v hv k nk hk hl hnot => ?_, fun k k' nk nk' hk hk' hl hl' hnot hnot' => ?_⟩
  · intro v hv
    rcases List.mem_cons.mp hv with rfl | hv
    · rfl
    · exact h.live v (.tail _ hv)
  · intro v hv j hj
    rw [List.length_set]
    rcases List.mem_cons.mp hv with rfl | hv
    · exact Nat.lt_trans (hwf n node hn j hj) hlt
    · exact h.passParent v (.tail _ hv) j hj
  · have hold := holders_cons nodes w rest k
    rcases getElem?_set_of hk with ⟨rfl, rfl⟩ | ⟨hne, hk⟩
    · -- the split: no slot is held any more, and `w`'s is released
      obtain ⟨hcount, hperm⟩ := h.slots n node hn
      rw [hold, WritePass.slotIn_of_eq hw, Option.toList_some, List.singleton_append,
        List.length_cons, hone, Nat.right_eq_add, List.length_eq_zero_iff] at hcount
      rw [hold, WritePass.slotIn_of_eq hw, hcount] at hperm
      have hnil := (hholders n).trans (by rw [← holders, hcount])
      refine ⟨by rw [List.Perm.length_eq hnil]; simp [x, ParentWritePass.release, hone], ?_⟩
      exact (hnil.append_right _).trans hperm
    · obtain ⟨hcount, hperm⟩ := h.slots k nk hk
      rw [hold, WritePass.slotIn_of_ne (by rw [hw]; exact fun heq => hne (Option.some.inj heq)),
        Option.toList_none, List.nil_append] at hcount hperm
      exact ⟨hcount.trans (hholders k).length_eq.symm, ((hholders k).append_right _).trans hperm⟩
  · intro v hv k habove
    rw [above_iff_of_shape hshape] at habove
    -- the cells above a live pass are above `w` or above another pass of `rest`, not `n`
    have hold : Above nodes w.parent k ∨ ∃ u ∈ rest, Above nodes u.parent k := by
      rcases List.mem_cons.mp hv with rfl | hv
      · exact .inl (hw ▸ .up hn habove)
      · exact .inr ⟨v, hv, habove⟩
    have hne : n ≠ k := by
      rintro rfl
      rcases List.mem_cons.mp hv with rfl | hv
      · exact hparent habove
      · exact hbelow v hv habove
    obtain ⟨nk, hk, hy⟩ := hold.elim (h.unyielded w (.head _) k)
      fun ⟨u, hu, hu'⟩ => h.unyielded u (.tail _ hu) k hu'
    exact ⟨nk, getElem?_set_of_ne hne hk, hy⟩
  · refine List.pairwise_cons.mpr ⟨fun u hu => ?_, (List.pairwise_cons.mp h.sepPasses).2⟩
    exact (h.sepPassNode u (.tail _ hu) n node hn ⟨w, .head _, hwn⟩ (hbelow u hu)).symm
  · obtain ⟨hl, hkn⟩ := hlive k hl
    have hne : n ≠ k := fun heq => hkn (by rw [← heq]; exact .here n)
    have hk0 : nodes[k]? = some nk := by rwa [List.getElem?_set_ne hne] at hk
    rw [above_iff_of_shape hshape] at hnot
    rcases List.mem_cons.mp hv with rfl | hv
    · -- the handed-back region against a cell beside it: both cells have live passes below
      refine h.sepNodes n k node nk hn hk0 ⟨w, .head _, hwn⟩ hl ?_ hkn
      rw [Above.some_iff hn]
      exact fun habove => habove.elim hne hnot
    · exact h.sepPassNode v (.tail _ hv) k nk hk0 hl hnot
  · obtain ⟨hl, hkn⟩ := hlive k hl
    obtain ⟨hl', hkn'⟩ := hlive k' hl'
    have hk0 : nodes[k]? = some nk := by
      rwa [List.getElem?_set_ne fun heq => hkn (by rw [← heq]; exact .here n)] at hk
    have hk0' : nodes[k']? = some nk' := by
      rwa [List.getElem?_set_ne fun heq => hkn' (by rw [← heq]; exact .here n)] at hk'
    rw [above_iff_of_shape hshape] at hnot hnot'
    exact h.sepNodes k k' nk nk' hk0 hk0' hl hl' hnot hnot'

/-- `with_region` gives the root pass a region: what was separated from the universal region holds
nothing, so it is separated from any. -/
theorem replaceRoot (h : TreeInv Id nodes (w :: rest)) (hw : w.parent = none) (v : WritePass R)
    (hv : v.parent = none) (hc : v.consumed = false)
    (hsep : ∀ b, Sep Id w.region b → Sep Id v.region b) : TreeInv Id nodes (v :: rest) := by
  have hlive : ∀ k, LiveBelow nodes (v :: rest) k → LiveBelow nodes (w :: rest) k := by
    rintro k ⟨u, hu, habove⟩
    rcases List.mem_cons.mp hu with rfl | hu
    · rw [hv] at habove
      exact absurd habove Above.not_none
    · exact ⟨u, .tail _ hu, habove⟩
  refine ⟨?_, ?_, h.parentsBefore, fun k nk hk => ?_, ?_, ?_, ?_,
    fun k k' nk nk' hk hk' hl hl' => h.sepNodes k k' nk nk' hk hk' (hlive k hl) (hlive k' hl')⟩
  · intro u hu
    rcases List.mem_cons.mp hu with rfl | hu
    · exact hc
    · exact h.live u (.tail _ hu)
  · intro u hu j hj
    rcases List.mem_cons.mp hu with rfl | hu
    · rw [hv] at hj
      cases hj
    · exact h.passParent u (.tail _ hu) j hj
  · have := h.slots k nk hk
    have hrest : holders nodes (v :: rest) k = holders nodes rest k := holders_cons_of_none hv
    rwa [holders_cons_of_none hw, ← hrest] at this
  · intro u hu j habove
    rcases List.mem_cons.mp hu with rfl | hu
    · rw [hv] at habove
      exact absurd habove Above.not_none
    · exact h.unyielded u (.tail _ hu) j habove
  · have hpw := List.pairwise_cons.mp h.sepPasses
    exact List.pairwise_cons.mpr ⟨fun u hu => hsep _ (hpw.1 u hu), hpw.2⟩
  · intro u hu k nk hk hl hnot
    rcases List.mem_cons.mp hu with rfl | hu
    · exact hsep _ (h.sepPassNode w (.head _) k nk hk (hlive k hl) (by rw [hw]; exact Above.not_none))
    · exact h.sepPassNode u (.tail _ hu) k nk hk (hlive k hl) hnot

/-- `new_write_pass`: a root pass with no cell below. -/
theorem newRoot (h : TreeInv Id nodes []) (v : WritePass R) (hv : v.parent = none)
    (hc : v.consumed = false) : TreeInv Id nodes [v] := by
  have hlive : ∀ k, ¬LiveBelow nodes [v] k := by
    rintro k ⟨u, hu, habove⟩
    rw [List.mem_singleton.mp hu, hv] at habove
    exact Above.not_none habove
  refine ⟨fun u hu => by rw [List.mem_singleton.mp hu]; exact hc, fun u hu j hj => ?_,
    h.parentsBefore, fun k nk hk => ?_, fun u hu j habove => ?_, List.pairwise_singleton _ _,
    fun _ _ k _ _ hl => absurd hl (hlive k), fun _ k' _ _ _ _ hl => absurd hl (hlive _)⟩
  · rw [List.mem_singleton.mp hu, hv] at hj
    cases hj
  · rw [holders_cons_of_none hv]
    exact h.slots k nk hk
  · rw [List.mem_singleton.mp hu, hv] at habove
    exact absurd habove Above.not_none

/-- `split_n` of a live pass into regions its assertions accept: a new cell with the pass's
region and slot, and one child for each region. -/
theorem split [Region R] [LawfulRegion R Id] {regions : List (PassRegion R)}
    (h : TreeInv Id nodes (w :: rest)) (hasserts : splitAsserts w.region regions) :
    TreeInv Id (nodes ++ [⟨w.parent, w.region, regions.length, w.index, regions.length, [], false⟩])
      (splitChildren nodes.length w.guard regions ++ rest) := by
  set L := nodes.length
  set np : ParentWritePass R := ⟨w.parent, w.region, regions.length, w.index, regions.length, [], false⟩
  set cs := splitChildren L w.guard regions with hcs_def
  have hwf := h.parentsBefore
  obtain ⟨henc, hpair⟩ := splitAsserts_iff.mp hasserts
  have hwpar : ∀ j, w.parent = some j → j < L := h.passParent w (.head _)
  have hrestpar : ∀ u ∈ rest, ∀ j, u.parent = some j → j < L :=
    fun u hu => h.passParent u (.tail _ hu)
  have hnp : (nodes ++ [np])[L]? = some np := by
    rw [List.getElem?_append_right (Nat.le_refl _), Nat.sub_self]
    rfl
  have hold : ∀ {p : Option Nat} {k : Nat}, (∀ m, p = some m → m < L) →
      (Above (nodes ++ [np]) p k ↔ Above nodes p k) :=
    fun hp => ⟨fun ha => ha.of_append hwf hp, Above.append _⟩
  -- a child lies below the new cell and the cells above `w`
  have hchild : ∀ {k}, Above (nodes ++ [np]) (some L) k ↔ k = L ∨ Above nodes w.parent k := by
    intro k
    rw [Above.some_iff hnp, hold hwpar, eq_comm]
  have hcs : ∀ c ∈ cs, c.parent = some L ∧ c.consumed = false ∧ encompasses w.region c.region := by
    intro c hc
    obtain ⟨i, hi, rfl⟩ := mem_splitChildren.mp hc
    exact ⟨rfl, rfl, henc _ (List.getElem_mem hi)⟩
  have hlive : ∀ k < L, LiveBelow (nodes ++ [np]) (cs ++ rest) k → LiveBelow nodes (w :: rest) k := by
    rintro k hk ⟨v, hv, habove⟩
    rcases List.mem_append.mp hv with hv | hv
    · rw [(hcs v hv).1, hchild] at habove
      exact ⟨w, .head _, habove.resolve_left (Nat.ne_of_lt hk)⟩
    · exact ⟨v, .tail _ hv, (hold (hrestpar v hv)).mp habove⟩
  -- the new cell against an old cell with a live pass below it but not above the new cell
  have hnew : ∀ k nk, nodes[k]? = some nk → LiveBelow (nodes ++ [np]) (cs ++ rest) k →
      ¬Above (nodes ++ [np]) (some L) k → Sep Id np.region nk.region := by
    rintro k nk hk ⟨v, hv, habove⟩ hnot
    have hnotw : ¬Above nodes w.parent k := fun ha => hnot (hchild.mpr (.inr ha))
    rcases List.mem_append.mp hv with hv | hv
    · rw [(hcs v hv).1] at habove
      exact absurd habove hnot
    · exact h.sepPassNode w (.head _) k nk hk ⟨v, .tail _ hv, (hold (hrestpar v hv)).mp habove⟩ hnotw
  refine ⟨?_, ?_, ?_, fun k nk hk => ?_, ?_, ?_, fun v hv k nk hk hl hnot => ?_,
    fun k k' nk nk' hk hk' hl hl' hnot hnot' => ?_⟩
  · intro v hv
    rcases List.mem_append.mp hv with hv | hv
    · exact (hcs v hv).2.1
    · exact h.live v (.tail _ hv)
  · intro v hv j hj
    rw [List.length_append, List.length_singleton]
    rcases List.mem_append.mp hv with hv | hv
    · rw [(hcs v hv).1] at hj
      cases hj
      exact Nat.lt_succ_self _
    · exact Nat.lt_succ_of_lt (hrestpar v hv j hj)
  · intro m nm hm j hj
    rcases getElem?_append_singleton hm with ⟨_, hm⟩ | ⟨rfl, rfl⟩
    · exact hwf m nm hm j hj
    · exact hwpar j hj
  · -- the new cell holds the slot `w` held
    have hnpslot : ∀ j, np.slotIn j = w.slotIn j := fun j => by
      simp [ParentWritePass.slotIn, WritePass.slotIn, np]
    have hsplit : holders (nodes ++ [np]) (cs ++ rest) k =
        cs.filterMap (WritePass.slotIn k) ++ (rest.filterMap (WritePass.slotIn k) ++
          nodes.filterMap (ParentWritePass.slotIn k) ++ (w.slotIn k).toList) := by
      rw [holders, List.filterMap_append, List.filterMap_append, List.filterMap_cons_eq_toList_append,
        List.filterMap_nil, List.append_nil, hnpslot]
      simp only [List.append_assoc]
    rw [hsplit, hcs_def, filterMap_slotIn_splitChildren]
    rcases getElem?_append_singleton hk with ⟨hlt, hk⟩ | ⟨rfl, rfl⟩
    · -- an old cell
      obtain ⟨hcount, hperm⟩ := h.slots k nk hk
      rw [holders_cons] at hcount hperm
      have hp : (rest.filterMap (WritePass.slotIn k) ++ nodes.filterMap (ParentWritePass.slotIn k) ++
          (w.slotIn k).toList).Perm ((w.slotIn k).toList ++ holders nodes rest k) :=
        List.perm_append_comm
      rw [if_neg (Nat.ne_of_lt hlt), List.nil_append]
      exact ⟨hcount.trans hp.length_eq.symm, (hp.append_right _).trans hperm⟩
    · -- the new cell: its children hold all its slots
      have hrest : rest.filterMap (WritePass.slotIn L) = [] :=
        List.filterMap_eq_nil_iff.mpr fun u hu => WritePass.slotIn_of_ne fun hj =>
          Nat.lt_irrefl L (hrestpar u hu L hj)
      have hnodes : nodes.filterMap (ParentWritePass.slotIn L) = [] := by
        refine List.filterMap_eq_nil_iff.mpr fun a ha => if_neg fun ⟨hj, _⟩ => ?_
        obtain ⟨m, hm⟩ := List.mem_iff_getElem?.mp ha
        have hmL : m < L := (List.getElem?_eq_some_iff.mp hm).1
        exact Nat.lt_irrefl L (Nat.lt_trans (hwf m a hm L hj) hmL)
      rw [if_pos rfl, hrest, hnodes,
        WritePass.slotIn_of_ne fun hj => Nat.lt_irrefl L (hwpar L hj)]
      simp [np]
  · intro v hv j habove
    rcases List.mem_append.mp hv with hv | hv
    · rw [(hcs v hv).1, hchild] at habove
      rcases habove with rfl | habove
      · exact ⟨np, hnp, rfl⟩
      · obtain ⟨nj, hj, hy⟩ := h.unyielded w (.head _) j habove
        exact ⟨nj, by rw [List.getElem?_append_left (List.getElem?_eq_some_iff.mp hj).1, hj], hy⟩
    · obtain ⟨nj, hj, hy⟩ := h.unyielded v (.tail _ hv) j ((hold (hrestpar v hv)).mp habove)
      exact ⟨nj, by rw [List.getElem?_append_left (List.getElem?_eq_some_iff.mp hj).1, hj], hy⟩
  · have hpw := List.pairwise_cons.mp h.sepPasses
    refine List.pairwise_append.mpr ⟨?_, hpw.2, fun c hc u hu => ?_⟩
    · -- the children: pairwise exclusive regions
      rw [← List.pairwise_map (f := WritePass.region) (R := Sep Id), map_region_splitChildren]
      exact hpair.imp Sep.of_excludesUnique
    · exact (hpw.1 u hu).mono (hcs c hc).2.2
  · rcases getElem?_append_singleton hk with ⟨hlt, hk⟩ | ⟨rfl, rfl⟩
    · rcases List.mem_append.mp hv with hv | hv
      · have hnotw : ¬Above nodes w.parent k := by
          rw [(hcs v hv).1, hchild] at hnot
          exact fun ha => hnot (.inr ha)
        exact (h.sepPassNode w (.head _) k nk hk (hlive k hlt hl) hnotw).mono (hcs v hv).2.2
      · exact h.sepPassNode v (.tail _ hv) k nk hk (hlive k hlt hl)
          fun ha => hnot ((hold (hrestpar v hv)).mpr ha)
    · rcases List.mem_append.mp hv with hv | hv
      · rw [(hcs v hv).1] at hnot
        exact absurd (.here _) hnot
      · exact ((List.pairwise_cons.mp h.sepPasses).1 v hv).symm
  · rcases getElem?_append_singleton hk with ⟨hlt, hk⟩ | ⟨rfl, rfl⟩ <;>
      rcases getElem?_append_singleton hk' with ⟨hlt', hk'⟩ | ⟨rfl, rfl⟩
    · exact h.sepNodes k k' nk nk' hk hk' (hlive k hlt hl) (hlive k' hlt' hl')
        (fun ha => hnot ((hold fun m hm => Option.some.inj hm ▸ hlt).mpr ha))
        (fun ha => hnot' ((hold fun m hm => Option.some.inj hm ▸ hlt').mpr ha))
    · exact (hnew k nk hk hl hnot').symm
    · exact hnew k' nk' hk' hl' hnot
    · exact absurd (.here _) hnot

theorem exists_parent (h : TreeInv Id nodes (w :: rest)) (hw : w.parent = some n) :
    ∃ node, nodes[n]? = some node := by
  have hlt := h.passParent w (.head _) n hw
  exact ⟨nodes[n], List.getElem?_eq_getElem hlt⟩

/-- `Drop for WritePass`. -/
theorem drop (h : TreeInv Id nodes (w :: rest)) : TreeInv Id (w.drop nodes) rest := by
  cases hw : w.parent with
  | none => rw [WritePass.drop_of_parent_none hw]; exact h.removeRoot hw
  | some n =>
    obtain ⟨node, hn⟩ := h.exists_parent hw
    rw [WritePass.drop_of_parent_some hw (h.live w (.head _)) hn]
    exact h.release hw hn

/-- `WritePass::consume`. -/
theorem consume (h : TreeInv Id nodes (w :: rest)) :
    TreeInv Id (w.consume nodes).1 ((w.consume nodes).2.toList ++ rest) := by
  cases hw : w.parent with
  | none => rw [WritePass.consume_of_parent_none hw]; exact h.removeRoot hw
  | some n =>
    obtain ⟨node, hn⟩ := h.exists_parent hw
    rw [WritePass.consume_of_parent_some hw hn]
    split_ifs with hone
    · exact h.yield hw hn hone
    · exact h.release hw hn

end TreeInv

/-! ### The domain -/

/-- The invariant of a domain: the split tree's, the lock's, and one write guard. -/
structure Inv (Id : Type) [RegionContains R Id] (s : Domain R) : Prop where
  tree : TreeInv Id s.nodes s.writePasses
  lock : s.readPasses = [] ∨ s.writePasses = []
  guard : ∀ w ∈ s.writePasses, ∀ w' ∈ s.writePasses, w.guard = w'.guard

section Domain

variable [RegionContains R Id] {s s' : Domain R} {w : WritePass R} {rest : List (WritePass R)}

theorem TreeInv.nil : TreeInv Id ([] : List (ParentWritePass R)) [] where
  live := nofun
  passParent := nofun
  parentsBefore _ _ h := by cases h
  slots _ _ h := by cases h
  unyielded := nofun
  sepPasses := .nil
  sepPassNode := nofun
  sepNodes _ _ _ _ h := by cases h

theorem Inv.new : Inv Id (Domain.new : Domain R) := ⟨TreeInv.nil, .inl rfl, nofun⟩

/-- While a write pass lives, no read pass does. -/
theorem Inv.readPasses_eq_nil (h : Inv Id s) (hp : s.writePasses.Perm (w :: rest)) :
    s.readPasses = [] := by
  rcases h.lock with hr | hw
  · exact hr
  · rw [hw] at hp
    exact absurd hp.nil_eq.symm (List.cons_ne_nil w rest)

/-- The passes a write step leaves hold the guard of the pass it took. -/
theorem Inv.guard_of_perm (h : Inv Id s) (hp : s.writePasses.Perm (w :: rest))
    (ws : List (WritePass R)) (hws : ∀ v ∈ ws, v.guard = w.guard) :
    ∀ v ∈ ws ++ rest, ∀ v' ∈ ws ++ rest, v.guard = v'.guard := by
  have hrest : ∀ v ∈ rest, v.guard = w.guard := fun v hv =>
    h.guard v (hp.mem_iff.mpr (.tail _ hv)) w (hp.mem_iff.mpr (.head _))
  have hall : ∀ v ∈ ws ++ rest, v.guard = w.guard := fun v hv =>
    (List.mem_append.mp hv).elim (hws v) (hrest v)
  exact fun v hv v' hv' => (hall v hv).trans (hall v' hv').symm

/-- A read step leaves the write passes alone; with a read pass live, no write pass is. -/
theorem Inv.of_readPasses (h : Inv Id s) {p : ReadPass R} {ps rs : List (ReadPass R)}
    (hp : s.readPasses.Perm (p :: ps)) :
    Inv Id { s with readPasses := rs } := by
  refine ⟨h.tree, .inr (h.lock.resolve_left fun hnil => ?_), h.guard⟩
  rw [hnil] at hp
  exact List.cons_ne_nil _ _ hp.nil_eq.symm

/-- `consume` of a live child hands back a pass for its split's region, under the split's parent,
exactly when every other child of the split has been consumed or dropped. -/
theorem Inv.consume_isSome_iff (hinv : Inv Id s) {w : WritePass R} (hw : w ∈ s.writePasses)
    {n : Nat} {node : ParentWritePass R} (hn : w.parent = some n)
    (hnode : s.nodes[n]? = some node) :
    ((w.consume s.nodes).2.isSome ↔ ∀ j < node.children, j ≠ w.index → j ∈ node.released) ∧
      ∀ y ∈ (w.consume s.nodes).2, y.region = node.region ∧ y.parent = node.parent := by
  obtain ⟨hcount, hperm⟩ := hinv.tree.slots n node hnode
  have hmem : w.index ∈ holders s.nodes s.writePasses n := mem_holders hw hn
  have hnodup := (List.nodup_append.mp (hperm.nodup_iff.mpr List.nodup_range))
  rw [WritePass.consume_of_parent_some hn hnode]
  refine ⟨?_, ?_⟩
  · split_ifs with hone
    · -- the last slot: `w`'s is the only one held, every other child is released
      simp only [Option.isSome_some, true_iff]
      intro j hj hne
      obtain ⟨a, ha⟩ := List.length_eq_one_iff.mp (hcount ▸ hone)
      rw [ha, List.mem_singleton] at hmem
      have hjmem := hperm.mem_iff.mpr (List.mem_range.mpr hj)
      rw [ha, ← hmem] at hjmem
      exact (List.mem_append.mp hjmem).resolve_left fun hj' => hne (List.mem_singleton.mp hj')
    · -- another slot is held: a child that is neither consumed nor dropped
      simp only [Option.isSome_none, Bool.false_eq_true, false_iff]
      intro hall
      have hsub : holders s.nodes s.writePasses n ⊆ [w.index] := by
        intro j hj
        refine List.mem_singleton.mpr (Classical.byContradiction fun hne => ?_)
        have hjr := hperm.subset (List.mem_append_left _ hj)
        exact hnodup.2.2 j hj j (hall j (List.mem_range.mp hjr) hne) rfl
      have hle := (List.subperm_of_subset hnodup.1 hsub).length_le
      exact hone (hcount.trans (Nat.le_antisymm hle (List.length_pos_of_mem hmem)))
  · split_ifs
    · rintro y hy
      cases hy
      exact ⟨rfl, rfl⟩
    · rintro y hy
      cases hy

variable [Region R] [LawfulRegion R Id]

/-- Every pass operation keeps the invariant. -/
theorem Inv.step (h : Inv Id s) (hs : Step s s') : Inv Id s' := by
  cases hs with
  | newReadPass hw => exact ⟨h.tree, .inr hw, h.guard⟩
  | newWritePass hw hr =>
    refine ⟨TreeInv.newRoot (by rw [← hw]; exact h.tree) _ rfl rfl, .inl hr, ?_⟩
    intro v hv v' hv'
    rw [List.mem_singleton.mp hv, List.mem_singleton.mp hv']
  | readWithRegion p rest region hp _ => exact h.of_readPasses hp
  | dropRead p rest hp => exact h.of_readPasses hp
  | withRegion w rest region nodes w' hp hu hwith =>
    obtain ⟨hw, rfl, rfl⟩ := withRegion_eq_some hwith
    refine ⟨(h.tree.perm hp).replaceRoot hw _ rfl rfl fun b hb => ?_,
      .inl (h.readPasses_eq_nil hp), h.guard_of_perm hp [_] fun v hv => ?_⟩
    · rw [hu] at hb
      exact hb.of_universal
    · rw [List.mem_singleton.mp hv]
  | splitN w rest regions nodes children hp hsplit =>
    refine ⟨?_, .inl (h.readPasses_eq_nil hp), h.guard_of_perm hp _ fun v hv => ?_⟩
    · rcases splitN_eq_some hsplit with ⟨_, rfl, rfl⟩ | ⟨_, hasserts, rfl, rfl⟩
      · exact (h.tree.perm hp).drop
      · exact (h.tree.perm hp).split hasserts
    · rcases splitN_eq_some hsplit with ⟨_, _, rfl⟩ | ⟨_, _, _, rfl⟩
      · cases hv
      · obtain ⟨i, _, rfl⟩ := mem_splitChildren.mp hv
        rfl
  | consume w rest hp =>
    refine ⟨(h.tree.perm hp).consume, .inl (h.readPasses_eq_nil hp),
      h.guard_of_perm hp _ fun v hv => ?_⟩
    -- the pass `consume` hands back holds the consumed pass's guard
    cases hw : w.parent with
    | none =>
      rw [WritePass.consume_of_parent_none hw] at hv
      cases hv
    | some n =>
      obtain ⟨node, hn⟩ := (h.tree.perm hp).exists_parent hw
      rw [WritePass.consume_of_parent_some hw hn] at hv
      split_ifs at hv
      · rw [List.mem_singleton.mp hv]
      · cases hv
  | drop w rest hp =>
    exact ⟨(h.tree.perm hp).drop, .inl (h.readPasses_eq_nil hp), h.guard_of_perm hp [] nofun⟩

/-- The invariant holds in every state some interleaving of pass operations reaches. -/
theorem Reachable.inv (h : Reachable s) : Inv Id s := by
  induction h with
  | refl => exact Inv.new
  | tail _ hstep ih => exact ih.step hstep

/-- Write-pass exclusivity: in every state some interleaving of pass operations reaches, no read
pass lives beside a write pass, the live write passes hold one write guard, and of two live write
passes neither may write a cell (`RwPassCell::write`) that the other may read or write. -/
theorem Reachable.writePasses_exclusive (h : Reachable s) :
    (s.readPasses = [] ∨ s.writePasses = []) ∧
      (∀ w ∈ s.writePasses, ∀ w' ∈ s.writePasses, w.guard = w'.guard) ∧
      s.writePasses.Pairwise fun w w' => ∀ id : Id,
        ¬(cellWrite id w ∧ cellRead id w'.region) ∧ ¬(cellWrite id w' ∧ cellRead id w.region) := by
  have hinv : Inv Id s := h.inv
  exact ⟨hinv.lock, hinv.guard, hinv.tree.sepPasses⟩


end Domain

end Nomt.RwPass

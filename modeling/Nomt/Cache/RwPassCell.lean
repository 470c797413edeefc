import Mathlib.Logic.Relation
import Mathlib.Data.List.Perm.Basic

/-!
# Read and write passes (`nomt/src/rw_pass_cell/mod.rs`)

A `RwPassDomain` hands out passes that unlock the `RwPassCell`s created in it. A read pass holds
a read guard and a write pass the write guard of the domain's `RwLock`, each behind an `Arc`
shared by every pass made from it: `new_read_pass` blocks while a write pass lives, and
`new_write_pass` while any pass lives. A write pass with a region type can be split into passes
for sub-regions (`split_n`); the children share an `Arc<ParentWritePass>` that keeps the parent's
region and counts the children left (`remaining_children`). A child that is consumed or dropped
takes one off the count, and `consume` of the child that takes the last one hands back a pass for
the parent's region. A child that is split hands its place in the count on to the new split.

Here a domain is the state of all its passes at one moment (`Domain`): the `Arc` cells of the
split tree by address, the live write passes and the live read passes. Every pass operation of the
source is a step on it, atomic since each touches shared memory once (the `fetch_sub`), so the runs
of the step relation are the interleavings of any number of threads. A panic is `none`; the
unwinding then drops the pass, which is the `drop` step. `into_envelope` and `into_inner` move a
pass between threads and do not change it, and `downgrade` lends a write pass's own read pass.

Beside the source's fields the cells and passes carry ghost fields that record the split tree:
which child of its split a pass is, how many children a split made, which of them were consumed
or dropped, and whether `consume` handed a split's region back.
-/

namespace Nomt.RwPass

/-- `Region`: a set-like description of a range of IDs. -/
class Region (R : Type) where
  encompasses : R → R → Bool
  excludesUnique : R → R → Bool

/-- `RegionContains<Id>`. -/
class RegionContains (R Id : Type) where
  contains : R → Id → Bool
  containsExclusive : R → Id → Bool

open Region RegionContains

/-- The safety contract of the `unsafe` traits `Region` and `RegionContains`: a region that
encompasses another contains every ID the other does, for shared and exclusive access, and of two
regions that exclude each other neither holds exclusively an ID the other holds at all. Every
implementation in the source also holds exclusively only IDs it holds. -/
class LawfulRegion (R Id : Type) [Region R] [RegionContains R Id] : Prop where
  contains_of_containsExclusive {r : R} {id : Id} : containsExclusive r id → contains r id
  encompasses_containsExclusive {r other : R} {id : Id} :
    encompasses r other → containsExclusive other id → containsExclusive r id
  encompasses_contains {r other : R} {id : Id} : encompasses r other → contains other id → contains r id
  excludesUnique_containsExclusive {r other : R} {id : Id} :
    excludesUnique r other → containsExclusive r id → ¬contains other id
  excludesUnique_contains {r other : R} {id : Id} :
    excludesUnique r other → containsExclusive other id → ¬contains r id

/-- The region of a pass: `UniversalRegion` until `with_region`, the region type `R` after. -/
inductive PassRegion (R : Type)
  | universal
  | region (r : R)
deriving DecidableEq

/-- `impl Region for UniversalRegion`, and `R`'s own; the two types are never compared. -/
instance {R : Type} [Region R] : Region (PassRegion R) where
  encompasses
    | .universal, .universal => true
    | .region r, .region other => encompasses r other
    | _, _ => false
  excludesUnique
    | .region r, .region other => excludesUnique r other
    | _, _ => false

/-- `impl RegionContains<Id> for UniversalRegion`: every ID, exclusively. -/
instance {R Id : Type} [RegionContains R Id] : RegionContains (PassRegion R) Id where
  contains
    | .universal, _ => true
    | .region r, id => contains r id
  containsExclusive
    | .universal, _ => true
    | .region r, id => containsExclusive r id

instance {R Id : Type} [Region R] [RegionContains R Id] [LawfulRegion R Id] :
    LawfulRegion (PassRegion R) Id where
  contains_of_containsExclusive {r id} h := by
    cases r with
    | universal => rfl
    | region r => exact LawfulRegion.contains_of_containsExclusive (R := R) h
  encompasses_containsExclusive {r other id} h hother := by
    cases r <;> cases other
    · exact hother
    · exact absurd h Bool.false_ne_true
    · exact absurd h Bool.false_ne_true
    · exact LawfulRegion.encompasses_containsExclusive (R := R) h hother
  encompasses_contains {r other id} h hother := by
    cases r <;> cases other
    · exact hother
    · exact absurd h Bool.false_ne_true
    · exact absurd h Bool.false_ne_true
    · exact LawfulRegion.encompasses_contains (R := R) h hother
  excludesUnique_containsExclusive {r other id} h hr := by
    cases r <;> cases other
    · exact absurd h Bool.false_ne_true
    · exact absurd h Bool.false_ne_true
    · exact absurd h Bool.false_ne_true
    · exact LawfulRegion.excludesUnique_containsExclusive (R := R) h hr
  excludesUnique_contains {r other id} h hother := by
    cases r <;> cases other
    · exact absurd h Bool.false_ne_true
    · exact absurd h Bool.false_ne_true
    · exact absurd h Bool.false_ne_true
    · exact LawfulRegion.excludesUnique_contains (R := R) h hother

namespace PassRegion

variable {R Id : Type}

@[simp] theorem encompasses_region [Region R] (r other : R) :
    encompasses (region r) (region other : PassRegion R) = encompasses r other := rfl

@[simp] theorem excludesUnique_region [Region R] (r other : R) :
    excludesUnique (region r) (region other : PassRegion R) = excludesUnique r other := rfl

@[simp] theorem contains_region [RegionContains R Id] (r : R) (id : Id) :
    contains (region r) id = contains r id := rfl

@[simp] theorem containsExclusive_region [RegionContains R Id] (r : R) (id : Id) :
    containsExclusive (region r) id = containsExclusive r id := rfl

end PassRegion

variable {R : Type}

/-- `ParentWritePass`, the `Arc` cell a split's children share: the parent pointer, the parent's
region and `remaining_children`. The ghost fields record which child of its own split the pass
that was split is (`index`), how many children the split made, which of them were consumed or
dropped, and whether `consume` handed the region back. -/
structure ParentWritePass (R : Type) where
  parent : Option Nat
  region : PassRegion R
  remainingChildren : Nat
  index : Nat
  children : Nat
  released : List Nat
  yielded : Bool
deriving DecidableEq

/-- `WritePass`: the parent pointer, `consumed`, and its `ReadPass`'s region and guard; the ghost
`index` says which child of its split it is. -/
structure WritePass (R : Type) where
  parent : Option Nat
  consumed : Bool
  region : PassRegion R
  guard : Nat
  index : Nat
deriving DecidableEq

/-- `ReadPass`: its region and its guard. -/
structure ReadPass (R : Type) where
  region : PassRegion R
  guard : Nat
deriving DecidableEq

/-- `remaining_children.fetch_sub(1)` by the child `index`, with the ghost record of it. -/
def ParentWritePass.release (node : ParentWritePass R) (index : Nat) : ParentWritePass R :=
  { node with remainingChildren := node.remainingChildren - 1, released := index :: node.released }

namespace WritePass

/-- `Drop for WritePass`: a child not consumed takes one off its split's count. -/
def drop (nodes : List (ParentWritePass R)) (w : WritePass R) : List (ParentWritePass R) :=
  match w.parent with
  | some parent => if !w.consumed then nodes.modify parent (·.release w.index) else nodes
  | none => nodes

/-- `WritePass::consume`: `fetch_sub` returns the count before the subtraction, and the child that
takes the last one gets a pass for the parent's region, with the parent's parent. `self` is dropped
at the end, after `consumed` is set. -/
def consume (nodes : List (ParentWritePass R)) (w : WritePass R) :
    List (ParentWritePass R) × Option (WritePass R) :=
  match w.parent with
  | none => (w.drop nodes, none)
  | some n =>
    let w' := { w with consumed := true }
    match nodes[n]? with
    -- an `Arc` points to a live cell: this branch is never taken
    | none => (w'.drop nodes, none)
    | some parent =>
      if parent.remainingChildren = 1 then
        (w'.drop (nodes.set n { parent.release w.index with yielded := true }),
          some ⟨parent.parent, false, parent.region, w.guard, parent.index⟩)
      else (w'.drop (nodes.set n (parent.release w.index)), none)

end WritePass

open WritePass

/-- The assertions of `split_n`: every region within the pass's region, and each one exclusive
of every later one. -/
def splitAsserts [Region R] (region : PassRegion R) : List (PassRegion R) → Bool
  | [] => true
  | r :: rest =>
    encompasses region r && rest.all (excludesUnique r) && splitAsserts region rest

/-- The children `split_n` hands out: the `i`-th for the `i`-th region, sharing the new cell. -/
def splitChildren (parent guard : Nat) (regions : List (PassRegion R)) : List (WritePass R) :=
  regions.mapIdx fun i region => ⟨some parent, false, region, guard, i⟩

/-- `WritePass::split_n`: the new cell takes the pass's parent (`self.parent.take()`, after which
dropping `self` does nothing), and is allocated at the end of the table. -/
def WritePass.splitN [Region R] (nodes : List (ParentWritePass R)) (w : WritePass R)
    (regions : List (PassRegion R)) : Option (List (ParentWritePass R) × List (WritePass R)) :=
  if regions.length = 0 then some (w.drop nodes, [])
  else if splitAsserts w.region regions then
    let newParent : ParentWritePass R :=
      ⟨w.parent, w.region, regions.length, w.index, regions.length, [], false⟩
    some ({ w with parent := none }.drop (nodes ++ [newParent]),
      splitChildren nodes.length w.guard regions)
  else none

/-- `WritePass::with_region` of a `WritePass<UniversalRegion>`: asserts that it has no parent. -/
def WritePass.withRegion (nodes : List (ParentWritePass R)) (w : WritePass R) (region : R) :
    Option (List (ParentWritePass R) × WritePass R) :=
  if w.parent.isNone then some (w.drop nodes, ⟨none, false, .region region, w.guard, w.index⟩)
  else none

/-- The passes of one domain at one moment: the `Arc<ParentWritePass>` cells by address, the
live write passes and the live read passes, and the next guard's identity. -/
structure Domain (R : Type) where
  nodes : List (ParentWritePass R)
  writePasses : List (WritePass R)
  readPasses : List (ReadPass R)
  nextGuard : Nat

/-- `RwPassDomain::new`. -/
def Domain.new : Domain R := ⟨[], [], [], 0⟩

/-- One pass operation, by any thread. The lock's guards live as long as a pass holds them, so
`new_read_pass` waits for no write pass to live and `new_write_pass` for no pass at all. -/
inductive Step [Region R] : Domain R → Domain R → Prop
  | newReadPass {s : Domain R} : s.writePasses = [] →
      Step s { s with readPasses := ⟨.universal, s.nextGuard⟩ :: s.readPasses,
                      nextGuard := s.nextGuard + 1 }
  | newWritePass {s : Domain R} : s.writePasses = [] → s.readPasses = [] →
      Step s { s with writePasses := [⟨none, false, .universal, s.nextGuard, 0⟩],
                      nextGuard := s.nextGuard + 1 }
  | readWithRegion {s : Domain R} (p : ReadPass R) (rest : List (ReadPass R)) (region : R) :
      s.readPasses.Perm (p :: rest) → p.region = .universal →
      Step s { s with readPasses := ⟨.region region, p.guard⟩ :: rest }
  | dropRead {s : Domain R} (p : ReadPass R) (rest : List (ReadPass R)) :
      s.readPasses.Perm (p :: rest) → Step s { s with readPasses := rest }
  | withRegion {s : Domain R} (w : WritePass R) (rest : List (WritePass R)) (region : R)
      (nodes : List (ParentWritePass R)) (w' : WritePass R) :
      s.writePasses.Perm (w :: rest) → w.region = .universal →
      w.withRegion s.nodes region = some (nodes, w') →
      Step s { s with nodes := nodes, writePasses := w' :: rest }
  | splitN {s : Domain R} (w : WritePass R) (rest : List (WritePass R))
      (regions : List (PassRegion R)) (nodes : List (ParentWritePass R))
      (children : List (WritePass R)) :
      s.writePasses.Perm (w :: rest) → w.splitN s.nodes regions = some (nodes, children) →
      Step s { s with nodes := nodes, writePasses := children ++ rest }
  | consume {s : Domain R} (w : WritePass R) (rest : List (WritePass R)) :
      s.writePasses.Perm (w :: rest) →
      Step s { s with nodes := (w.consume s.nodes).1,
                      writePasses := (w.consume s.nodes).2.toList ++ rest }
  | drop {s : Domain R} (w : WritePass R) (rest : List (WritePass R)) :
      s.writePasses.Perm (w :: rest) → Step s { s with nodes := w.drop s.nodes, writePasses := rest }

/-- The states some interleaving of pass operations reaches from `RwPassDomain::new`. -/
def Reachable [Region R] (s : Domain R) : Prop := Relation.ReflTransGen Step Domain.new s

/-- `RwPassCell::write`: asserts that the pass's region holds the cell's ID exclusively. -/
def cellWrite {Id : Type} [RegionContains R Id] (id : Id) (w : WritePass R) : Bool :=
  containsExclusive w.region id

/-- `RwPassCell::read`: asserts that the pass's region holds the cell's ID. -/
def cellRead {Id : Type} [RegionContains R Id] (id : Id) (region : PassRegion R) : Bool :=
  contains region id

/-! ### What each operation does -/

namespace WritePass

variable {nodes : List (ParentWritePass R)} {w : WritePass R}

@[simp] theorem drop_of_parent_none (h : w.parent = none) : w.drop nodes = nodes := by
  rw [drop, h]

@[simp] theorem drop_of_consumed (h : w.consumed = true) : w.drop nodes = nodes := by
  unfold drop
  split <;> simp [h]

theorem drop_of_parent_some {n : Nat} {node : ParentWritePass R} (h : w.parent = some n)
    (hc : w.consumed = false) (hn : nodes[n]? = some node) :
    w.drop nodes = nodes.set n (node.release w.index) := by
  simp only [drop, h, hc, Bool.not_false, ↓reduceIte]
  rw [List.modify_eq_set_getElem?, hn]
  rfl

/-- `consume` of a child: the cell loses one from its count, and the child that takes the last
one gets the parent's region back. -/
theorem consume_of_parent_some {n : Nat} {node : ParentWritePass R} (h : w.parent = some n)
    (hn : nodes[n]? = some node) :
    w.consume nodes =
      if node.remainingChildren = 1 then
        (nodes.set n { node.release w.index with yielded := true },
          some ⟨node.parent, false, node.region, w.guard, node.index⟩)
      else (nodes.set n (node.release w.index), none) := by
  rw [consume, h]
  simp only [hn]
  split <;> simp

theorem consume_of_parent_none (h : w.parent = none) : w.consume nodes = (nodes, none) := by
  rw [consume, h, drop_of_parent_none h]

end WritePass

theorem splitAsserts_iff [Region R] {region : PassRegion R} {regions : List (PassRegion R)} :
    splitAsserts region regions ↔
      (∀ r ∈ regions, encompasses region r) ∧ regions.Pairwise (excludesUnique · ·) := by
  induction regions with
  | nil => simp [splitAsserts]
  | cons r rest ih =>
    simp only [splitAsserts, Bool.and_eq_true, List.all_eq_true, ih, List.mem_cons,
      forall_eq_or_imp, List.pairwise_cons]
    tauto

theorem splitN_eq_some [Region R] {nodes : List (ParentWritePass R)} {w : WritePass R}
    {regions : List (PassRegion R)} {nodes' : List (ParentWritePass R)}
    {children : List (WritePass R)} (h : w.splitN nodes regions = some (nodes', children)) :
    (regions = [] ∧ nodes' = w.drop nodes ∧ children = []) ∨
      (regions ≠ [] ∧ splitAsserts w.region regions ∧
        nodes' = nodes ++ [⟨w.parent, w.region, regions.length, w.index, regions.length, [], false⟩] ∧
        children = splitChildren nodes.length w.guard regions) := by
  unfold WritePass.splitN at h
  split_ifs at h with hlen hasserts
  · cases h
    exact .inl ⟨List.eq_nil_of_length_eq_zero hlen, rfl, rfl⟩
  · cases h
    refine .inr ⟨fun hnil => hlen (by rw [hnil, List.length_nil]), hasserts, ?_, rfl⟩
    exact drop_of_parent_none rfl

theorem withRegion_eq_some {nodes : List (ParentWritePass R)} {w w' : WritePass R} {region : R}
    {nodes' : List (ParentWritePass R)} (h : w.withRegion nodes region = some (nodes', w')) :
    w.parent = none ∧ nodes' = nodes ∧ w' = ⟨none, false, .region region, w.guard, w.index⟩ := by
  unfold WritePass.withRegion at h
  split_ifs at h with hnone
  cases h
  have hparent : w.parent = none := Option.isNone_iff_eq_none.mp hnone
  exact ⟨hparent, drop_of_parent_none hparent, rfl⟩

/-! ### The children of a split -/

section Children

variable {parent guard : Nat} {regions : List (PassRegion R)}

theorem mem_splitChildren {c : WritePass R} :
    c ∈ splitChildren parent guard regions ↔
      ∃ i, ∃ h : i < regions.length, c = ⟨some parent, false, regions[i], guard, i⟩ := by
  rw [splitChildren, List.mem_mapIdx]
  exact exists_congr fun i => exists_congr fun _ => eq_comm

theorem map_region_splitChildren :
    (splitChildren parent guard regions).map WritePass.region = regions := by
  apply List.ext_getElem?
  intro i
  simp only [splitChildren, List.getElem?_map, List.getElem?_mapIdx, Option.map_map]
  cases regions[i]? <;> rfl

theorem map_index_splitChildren :
    (splitChildren parent guard regions).map WritePass.index = List.range regions.length := by
  apply List.ext_getElem?
  intro i
  simp only [splitChildren, List.getElem?_map, List.getElem?_mapIdx, Option.map_map]
  by_cases hi : i < regions.length
  · rw [List.getElem?_eq_getElem hi, List.getElem?_range hi]
    rfl
  · rw [List.getElem?_eq_none (Nat.le_of_not_lt hi),
      List.getElem?_eq_none (by rw [List.length_range]; exact Nat.le_of_not_lt hi)]
    rfl

end Children

end Nomt.RwPass

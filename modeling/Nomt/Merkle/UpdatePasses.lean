import Nomt.Cache.PageCache
import Nomt.Cache.RwPassSafety

/-!
# The write passes of a merkle update (`nomt/src/merkle/mod.rs`, `nomt/src/merkle/worker.rs`)

`update_and_prove` takes the page cache's write pass (`PageCache::new_write_pass`: a new write
pass of the cache's domain, narrowed by `with_region(ShardIndex::Root)`) and splits it into one
pass per shard, `split_n((0..num_workers).map(ShardIndex::Shard))`. `RangeUpdater::new` turns a
worker's pass into the page region the worker updates: the universe for the root's pass, the
shard's region for a shard's. A worker consumes its pass when it is done, and "one lucky thread
gets the master write pass": the worker whose `consume` returns the root's pass updates the root
page.

Over every interleaving of pass operations on the cache's domain:

* the split's calls are steps of the domain, so the domain after it is reachable
  (`Reachable.getD_updateAndProvePasses`);
* two live passes resolve to page regions of which neither holds exclusively a page the other
  holds at all (`Reachable.rangeUpdaterRegions_exclusive`). The root's pass writes every shard
  index, so it lives alone; two shard passes are on distinct shards, whose regions exclude each
  other (`PageCache.excludesUnique_of_ne`);
* while a pass of a split lives, the split's region has not been handed back, and its `consume`
  hands it back exactly when every other child was consumed or dropped
  (`Reachable.consume_returns_parent_iff`).
-/

namespace Nomt

open RwPass PageRegion

namespace Merkle

/-- The regions of `update_and_prove`'s split: `(0..num_workers).map(ShardIndex::Shard)`. -/
def shardPassRegions (numWorkers : Nat) : List (PassRegion ShardIndex) :=
  (List.range numWorkers).map fun i => .region (.shard i)

/-- `PageCache::new_write_pass` and the `split_n` of `update_and_prove`, on a domain with no live
pass; `none` where an assertion fails. -/
def updateAndProvePasses (s : Domain ShardIndex) (numWorkers : Nat) :
    Option (Domain ShardIndex) := do
  -- `RwPassDomain::new_write_pass`
  let w : WritePass ShardIndex := ⟨none, false, .universal, s.nextGuard, 0⟩
  let (nodes, w) ← w.withRegion s.nodes .root
  let (nodes, workerPasses) ← w.splitN nodes (shardPassRegions numWorkers)
  pure { s with nodes := nodes, writePasses := workerPasses, nextGuard := s.nextGuard + 1 }

/-- The page region `RangeUpdater::new` gives a worker's pass: the universe for the root's, and
the shard's region (`PageCache::shard_region`, which panics out of range) for a shard's. -/
def rangeUpdaterRegion (c : PageCache) : ShardIndex → Option PageRegion
  | .root => some universeRegion
  | .shard i => c.shardRegion i

/-! ### The split -/

variable {n size : Nat} {s s' : Domain ShardIndex}

@[simp] theorem length_shardPassRegions (n : Nat) : (shardPassRegions n).length = n := by
  rw [shardPassRegions, List.length_map, List.length_range]

/-- The calls of `updateAndProvePasses` are steps of the domain. -/
theorem steps_of_updateAndProvePasses (hw : s.writePasses = []) (hr : s.readPasses = [])
    (h : updateAndProvePasses s n = some s') : Relation.ReflTransGen Step s s' := by
  simp only [updateAndProvePasses, Option.bind_eq_bind] at h
  obtain ⟨⟨nodes₁, w₁⟩, hwith, h⟩ := Option.bind_eq_some_iff.mp h
  obtain ⟨⟨nodes₂, passes⟩, hsplit, h⟩ := Option.bind_eq_some_iff.mp h
  cases h
  -- `new_write_pass`, `with_region`, `split_n`, each on the only live pass
  let s₁ : Domain ShardIndex :=
    { s with writePasses := [⟨none, false, .universal, s.nextGuard, 0⟩], nextGuard := s.nextGuard + 1 }
  let s₂ : Domain ShardIndex := { s₁ with nodes := nodes₁, writePasses := [w₁] }
  have h₁ : Step s s₁ := Step.newWritePass hw hr
  have h₂ : Step s₁ s₂ := Step.withRegion _ [] .root nodes₁ w₁ (List.Perm.refl _) rfl hwith
  have h₃ := Step.splitN (s := s₂) w₁ [] (shardPassRegions n) nodes₂ passes (List.Perm.refl _) hsplit
  rw [List.append_nil] at h₃
  exact .tail (.tail (.single h₁) h₂) h₃

/-- From a reachable domain with no live pass, whatever `updateAndProvePasses` returns is
reachable; where it panics, the domain stays as it was. -/
theorem Reachable.getD_updateAndProvePasses (hs : Reachable s) (hw : s.writePasses = [])
    (hr : s.readPasses = []) : Reachable ((updateAndProvePasses s n).getD s) := by
  cases h : updateAndProvePasses s n with
  | none => exact hs
  | some s' => exact hs.trans (steps_of_updateAndProvePasses hw hr h)

/-- The cache's domain while two workers run: a fresh domain after `update_and_prove`'s split. -/
def twoWorkerDomain : Domain ShardIndex := (updateAndProvePasses Domain.new 2).getD Domain.new

theorem reachable_twoWorkerDomain : Reachable twoWorkerDomain :=
  Reachable.getD_updateAndProvePasses .refl rfl rfl

theorem writePasses_exclusive_two_workers :
    twoWorkerDomain.writePasses.Pairwise fun w w' => ∀ id : ShardIndex,
      ¬(cellWrite id w ∧ cellRead id w'.region) ∧ ¬(cellWrite id w' ∧ cellRead id w.region) :=
  (Reachable.writePasses_exclusive reachable_twoWorkerDomain).2.2

/-! ### The workers' regions -/

/-- Shard indices separated as pass regions resolve to page regions separated the same way: the
root's pass holds every shard index exclusively, so neither is the root's, and the shards differ. -/
theorem rangeUpdaterRegion_sep {c : PageCache} (hc : PageCache.new n size = some c)
    {a b : ShardIndex} (hsep : Sep ShardIndex (.region a) (.region b)) {r r' : PageRegion}
    (hr : rangeUpdaterRegion c a = some r) (hr' : rangeUpdaterRegion c b = some r')
    (page : PageId) :
    ¬(r.containsExclusive page ∧ r'.contains page) ∧
      ¬(r'.containsExclusive page ∧ r.contains page) := by
  cases a with
  | root => exact absurd ⟨by simp, by simp⟩ (hsep .root).1
  | shard i =>
    cases b with
    | root => exact absurd ⟨by simp, by simp⟩ (hsep .root).2
    | shard j =>
      have hij : i ≠ j := fun heq => (hsep (.shard i)).1 ⟨by simp, by simp [heq]⟩
      simp only [rangeUpdaterRegion, PageCache.shardRegion] at hr hr'
      obtain ⟨si, hsi, rfl⟩ := Option.map_eq_some_iff.mp hr
      obtain ⟨sj, hsj, rfl⟩ := Option.map_eq_some_iff.mp hr'
      obtain ⟨hi, rfl⟩ := List.getElem?_eq_some_iff.mp hsi
      obtain ⟨hj, rfl⟩ := List.getElem?_eq_some_iff.mp hsj
      have hex := PageCache.excludesUnique_of_ne hc hi hj hij
      refine ⟨fun ⟨hmem, hcont⟩ => not_contains_of_excludesUnique hex hmem hcont,
        fun ⟨hmem, hcont⟩ => ?_⟩
      rw [excludesUnique_comm] at hex
      exact not_contains_of_excludesUnique hex hmem hcont

/-- The merkle workers never conflict on a page: in every state some interleaving of pass
operations on the domain of a cache `PageCache::new` built reaches, two live write passes resolve
(`RangeUpdater::new`) to page regions of which neither holds exclusively a page that the other
holds at all. -/
theorem Reachable.rangeUpdaterRegions_exclusive {c : PageCache}
    (hc : PageCache.new n size = some c) (hs : Reachable s) :
    s.writePasses.Pairwise fun w w' => ∀ a b r r', w.region = .region a →
      w'.region = .region b → rangeUpdaterRegion c a = some r →
      rangeUpdaterRegion c b = some r' → ∀ page : PageId,
        ¬(r.containsExclusive page ∧ r'.contains page) ∧
          ¬(r'.containsExclusive page ∧ r.contains page) := by
  have hinv : Inv ShardIndex s := hs.inv
  refine hinv.tree.sepPasses.imp fun {w w'} hsep => ?_
  intro a b r r' ha hb hr hr' page
  rw [ha, hb] at hsep
  exact rangeUpdaterRegion_sep hc hsep hr hr' page

theorem rangeUpdaterRegions_exclusive_two_workers :
    twoWorkerDomain.writePasses.Pairwise fun w w' => ∀ a b r r', w.region = .region a →
      w'.region = .region b → rangeUpdaterRegion twoShardCache a = some r →
      rangeUpdaterRegion twoShardCache b = some r' → ∀ page : PageId,
        ¬(r.containsExclusive page ∧ r'.contains page) ∧
          ¬(r'.containsExclusive page ∧ r.contains page) :=
  Reachable.rangeUpdaterRegions_exclusive new_twoShardCache reachable_twoWorkerDomain

/-! ### The last worker -/

/-- "One lucky thread gets the master write pass": in every state of the cache's pass domain, a
live pass of a split finds the split's region not yet handed back, and its `consume` returns a
pass, for the split's region under the split's parent, exactly when every other child of the split
has been consumed or dropped. -/
theorem Reachable.consume_returns_parent_iff (hs : Reachable s) {w : WritePass ShardIndex}
    (hw : w ∈ s.writePasses) {k : Nat} {node : ParentWritePass ShardIndex}
    (hk : w.parent = some k) (hnode : s.nodes[k]? = some node) :
    node.yielded = false ∧
      ((w.consume s.nodes).2.isSome ↔ ∀ j < node.children, j ≠ w.index → j ∈ node.released) ∧
      ∀ y ∈ (w.consume s.nodes).2, y.region = node.region ∧ y.parent = node.parent := by
  have hinv : Inv ShardIndex s := hs.inv
  obtain ⟨node', hnode', hy⟩ := hinv.tree.unyielded w hw k (by rw [hk]; exact .here k)
  rw [hnode] at hnode'
  cases hnode'
  exact ⟨hy, hinv.consume_isSome_iff hw hk hnode⟩

theorem consume_returns_parent_first_worker :
    ((⟨some 0, false, .region (.shard 0), 0, 0⟩ : WritePass ShardIndex).consume
        twoWorkerDomain.nodes).2.isSome ↔ ∀ j < 2, j ≠ 0 → j ∈ ([] : List Nat) :=
  (Reachable.consume_returns_parent_iff reachable_twoWorkerDomain (by decide) rfl
    (by decide : twoWorkerDomain.nodes[0]? = some ⟨none, .region .root, 2, 0, 2, [], false⟩)).2.1

end Merkle

end Nomt

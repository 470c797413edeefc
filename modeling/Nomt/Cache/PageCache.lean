import Nomt.Cache.PageRegion
import Nomt.Lib.ListMaps
import Nomt.Store.PageDiff
import Mathlib.Tactic.Ring
import Mathlib.Algebra.BigOperators.Ring.List

/-!
# The shards of the page cache (`nomt/src/page_cache.rs`)

The page cache splits the pages below the root among `commit_concurrency` shards, one per merkle
worker. `shard_regions` gives shard `i` a run of the root's 64 children, the first
`64 % n` shards one child more than the others, and `shard_index_for` finds the shard of a child
by arithmetic instead of a search. `PageCache::shard_index_for` checks, in a debug build, that the
shard it picks holds the page exclusively.

For a commit concurrency between 1 and 64 (`Nomt::open` rejects 0 and caps it at 64) the runs are
consecutive and cover all 64 children (`shardSpan_succ_fst`, `shardSpan_fst_self`), so the regions
exclude each other pairwise and every page below the root is held by exactly one of them
(`shardRegions_partition`); `shard_index_for` computes the run a child lies in
(`shardIndexFor_spec`), so the debug assertion never fails. `make_shards` computes its page
limits in `usize` arithmetic, which wraps at `2 ^ 64` in a release build; below `2 ^ 44` MiB
nothing wraps, and it panics only on a zero `page_cache_size`, where a shard's page limit is zero.
Otherwise the limits add up to the cache's page limit.

The passes of the cache's `RwPassDomain` have `ShardIndex` regions: the root's pass encompasses
every shard's, and two distinct shards exclude each other.
-/

namespace Nomt

open PageId PageRegion

/-! ### Shard indices as regions -/

/-- `ShardIndex`: the "shard" of the root page alone, or the shard with the given index. -/
inductive ShardIndex
  | root
  | shard (i : Nat)
deriving DecidableEq

namespace ShardIndex

open RwPass

/-- `impl Region for ShardIndex`. -/
instance : Region ShardIndex where
  encompasses
    | .root, _ => true
    | .shard a, .shard b => a == b
    | _, _ => false
  excludesUnique
    | .shard a, .shard b => a != b
    | _, _ => false

/-- `impl RegionContains<ShardIndex> for ShardIndex`: any shard's pass may read the root page, and
only the root's pass may write it. -/
instance : RegionContains ShardIndex ShardIndex where
  contains
    | .shard a, .shard b => a == b
    | .root, _ => true
    | .shard _, .root => true
  containsExclusive
    | .shard a, .shard b => a == b
    | .root, _ => true
    | _, _ => false

@[simp] theorem encompasses_root (b : ShardIndex) : Region.encompasses root b = true := rfl

@[simp] theorem encompasses_shard (a b : Nat) :
    Region.encompasses (shard a) (shard b) = decide (a = b) := rfl

@[simp] theorem excludesUnique_shard (a b : Nat) :
    Region.excludesUnique (shard a) (shard b) = !decide (a = b) := rfl

@[simp] theorem contains_shard_shard (a b : Nat) :
    RegionContains.contains (shard a) (shard b) = decide (a = b) := rfl

@[simp] theorem containsExclusive_shard_shard (a b : Nat) :
    RegionContains.containsExclusive (shard a) (shard b) = decide (a = b) := rfl

@[simp] theorem contains_root_left (b : ShardIndex) : RegionContains.contains root b = true := by
  cases b <;> rfl

@[simp] theorem containsExclusive_root_left (b : ShardIndex) :
    RegionContains.containsExclusive root b = true := by
  cases b <;> rfl

@[simp] theorem contains_root_right (a : ShardIndex) : RegionContains.contains a root = true := by
  cases a <;> rfl

@[simp] theorem containsExclusive_shard_root (a : Nat) :
    RegionContains.containsExclusive (shard a) root = false := rfl

@[simp] theorem encompasses_shard_root (a : Nat) : Region.encompasses (shard a) root = false := rfl

@[simp] theorem excludesUnique_root_left (b : ShardIndex) :
    Region.excludesUnique root b = false := by
  cases b <;> rfl

@[simp] theorem excludesUnique_root_right (a : ShardIndex) :
    Region.excludesUnique a root = false := by
  cases a <;> rfl

/-- The `unsafe` impls keep the contract they claim: distinct shards share no page, and the
root's shard holds every page. -/
instance : LawfulRegion ShardIndex ShardIndex where
  contains_of_containsExclusive {r id} h := by
    cases r <;> cases id <;> simp_all
  encompasses_containsExclusive {r other id} h hother := by
    cases r <;> cases other <;> cases id <;> simp_all
  encompasses_contains {r other id} h hother := by
    cases r <;> cases other <;> cases id <;> simp_all
  excludesUnique_containsExclusive {r other id} h hr := by
    cases r <;> cases other <;> cases id <;> simp_all
    omega
  excludesUnique_contains {r other id} h hother := by
    cases r <;> cases other <;> cases id <;> simp_all

end ShardIndex

/-! ### `shard_regions`, `shard_index_for` and `make_shards` -/

/-- The first child and the number of children of a shard, as the loop of `shard_regions`
computes them: the first `remainder` shards get `part + 1` children and the rest get `part`. -/
def shardSpan (numShards shardIndex : Nat) : Nat × Nat :=
  let part := numChildren / numShards
  let remainder := numChildren % numShards
  if shardIndex ≥ remainder then (part * shardIndex + remainder, part)
  else (part * shardIndex + shardIndex, part + 1)

/-- One round of the loop of `shard_regions`; `none` where an `unwrap` or
`from_page_id_descendants` panics. `as u8` keeps the low byte. -/
def shardRegion (numShards shardIndex : Nat) : Option (PageRegion × Nat) := do
  let (start, count) := shardSpan numShards shardIndex
  let startChild ← ChildPageIndex.new start.toUInt8
  let endChild ← ChildPageIndex.new (start + count - 1).toUInt8
  let region ← fromPageIdDescendants rootPageId startChild endChild
  pure (region, count)

/-- `shard_regions`: each shard's region and its number of the root's children. `NUM_CHILDREN / 0`
panics before the loop. -/
def shardRegions (numShards : Nat) : Option (List (PageRegion × Nat)) :=
  if numShards = 0 then none
  else (List.range numShards).mapM (shardRegion numShards)

/-- `shard_index_for`: the shard of a child of the root, by the allocation of `shard_regions`;
`none` where a division by zero panics. -/
def shardIndexFor (numShards firstAncestor : Nat) : Option Nat :=
  if numShards = 0 then none
  else
    let part := numChildren / numShards
    let remainder := numChildren % numShards
    if (part + 1) * remainder > firstAncestor then
      -- in a remainder shard
      some (firstAncestor / (part + 1))
    else if part = 0 then none
    else
      -- in a non-remainder shard: take the remainder shards out, divide by `part`, add them back
      some ((firstAncestor - (part + 1) * remainder) / part + remainder)

/-- `CacheShard`: its region and its page limit, a `NonZeroUsize`. -/
structure CacheShard where
  region : PageRegion
  pageLimit : Nat
  pageLimit_pos : 0 < pageLimit

/-- `usize` multiplication as a release build computes it (`overflow-checks` is off there; a
debug build panics instead): modulo `2 ^ 64`. -/
def wrappingMul (a b : Nat) : Nat := a * b % 2 ^ 64

theorem wrappingMul_of_lt {a b : Nat} (h : a * b < 2 ^ 64) : wrappingMul a b = a * b :=
  Nat.mod_eq_of_lt h

/-- `make_shards`: `page_cache_size` is in MiB; the page limit of a shard is its share of the
limit per child of the root. -/
def makeShards (numShards pageCacheSize : Nat) : Option (List CacheShard) :=
  let cachePageLimit := wrappingMul (wrappingMul pageCacheSize 1024) 1024 / PAGE_SIZE
  let pageLimitPerRootChild := cachePageLimit / 64
  if numShards = 0 then none
  else do
    let regions ← shardRegions numShards
    regions.mapM fun (region, count) =>
      let pageLimit := wrappingMul pageLimitPerRootChild count
      -- `NonZeroUsize::new(..).unwrap()`
      if h : 0 < pageLimit then some ⟨region, pageLimit, h⟩ else none

/-- `PageCache`: its shards; the root page, the pass domain and the locked LRU maps are not
modelled here. -/
structure PageCache where
  shards : List CacheShard

namespace PageCache

/-- `PageCache::new`, from `commit_concurrency` and `page_cache_size` of the options. -/
def new (commitConcurrency pageCacheSize : Nat) : Option PageCache :=
  (makeShards commitConcurrency pageCacheSize).map PageCache.mk

/-- `PageCache::shard_index_for` in a debug build: `none` where it panics, `some none` for the
root page. -/
def shardIndexFor (c : PageCache) (pageId : PageId) : Option (Option Nat) :=
  if pageId = rootPageId then some none
  else do
    let firstAncestor ← pageId.childIndexAtLevel 0
    let shardIndex ← Nomt.shardIndexFor c.shards.length firstAncestor.index.toNat
    let shard ← c.shards[shardIndex]?
    -- `debug_assert!(..contains_exclusive(page_id))`
    if shard.region.containsExclusive pageId then some (some shardIndex) else none

/-- `PageCache::shard_region`: panics if the index is out of range. -/
def shardRegion (c : PageCache) (shardIndex : Nat) : Option PageRegion :=
  c.shards[shardIndex]?.map (·.region)

end PageCache

/-! ### The runs of children -/

theorem numChildren_eq : numChildren = 64 := rfl

section Spans

variable {n i j c : Nat}

theorem shardSpan_eq (n i : Nat) :
    shardSpan n i = (numChildren / n * i + min i (numChildren % n),
      if i < numChildren % n then numChildren / n + 1 else numChildren / n) := by
  unfold shardSpan
  dsimp only
  split_ifs <;> simp only [Prod.mk.injEq, and_true] <;> omega

/-- Each shard starts where the one before it ends. -/
theorem shardSpan_succ_fst (n i : Nat) :
    (shardSpan n (i + 1)).1 = (shardSpan n i).1 + (shardSpan n i).2 := by
  rw [shardSpan_eq, shardSpan_eq, Nat.mul_succ]
  split_ifs <;> omega

theorem shardSpan_zero_fst (n : Nat) : (shardSpan n 0).1 = 0 := by
  rw [shardSpan_eq]
  simp

theorem shardSpan_fst_mono (h : i ≤ j) : (shardSpan n i).1 ≤ (shardSpan n j).1 := by
  induction j, h using Nat.le_induction with
  | base => exact Nat.le_refl _
  | succ j _ ih =>
    rw [shardSpan_succ_fst]
    omega

/-- The shards together hold all the root's children. -/
theorem shardSpan_fst_self (hn0 : 0 < n) : (shardSpan n n).1 = numChildren := by
  have hmod := Nat.mod_lt numChildren hn0
  have hdiv := Nat.div_add_mod numChildren n
  rw [Nat.mul_comm] at hdiv
  rw [shardSpan_eq]
  omega

/-- With at most 64 shards, every shard gets a child. -/
theorem shardSpan_snd_pos (hn0 : 0 < n) (hn : n ≤ numChildren) : 0 < (shardSpan n i).2 := by
  have hpart : 0 < numChildren / n := Nat.div_pos hn hn0
  rw [shardSpan_eq]
  split_ifs <;> omega

theorem shardSpan_end_le (hn0 : 0 < n) (hi : i < n) :
    (shardSpan n i).1 + (shardSpan n i).2 ≤ numChildren := by
  rw [← shardSpan_succ_fst, ← shardSpan_fst_self hn0]
  exact shardSpan_fst_mono hi

/-- The shards before `k` hold the children before the start of shard `k`. -/
theorem sum_shardSpan_snd (n k : Nat) :
    ((List.range k).map fun i => (shardSpan n i).2).sum = (shardSpan n k).1 := by
  induction k with
  | zero => rw [shardSpan_zero_fst]; rfl
  | succ k ih => rw [List.range_succ, List.map_append, List.sum_append, ih, shardSpan_succ_fst]; simp

/-- `shard_index_for` finds the run of children a child lies in. -/
theorem shardIndexFor_spec (hn0 : 0 < n) (hn : n ≤ numChildren) (hc : c < numChildren) :
    ∃ i, shardIndexFor n c = some i ∧ i < n ∧
      (shardSpan n i).1 ≤ c ∧ c < (shardSpan n i).1 + (shardSpan n i).2 := by
  have hpart : 0 < numChildren / n := Nat.div_pos hn hn0
  have hmod : numChildren % n < n := Nat.mod_lt numChildren hn0
  have hdiv : n * (numChildren / n) + numChildren % n = numChildren := Nat.div_add_mod _ n
  unfold shardIndexFor
  simp only [Nat.pos_iff_ne_zero.mp hn0, ↓reduceIte, shardSpan_eq]
  generalize numChildren / n = p at *
  generalize numChildren % n = r at *
  split_ifs with hlow hp0
  · -- a remainder shard, of `p + 1` children from `(p + 1) * i`
    have hi : c / (p + 1) < r := Nat.div_lt_of_lt_mul hlow
    have hle : c / (p + 1) * (p + 1) ≤ c := Nat.div_mul_le_self c (p + 1)
    have hlt : c < (p + 1) * (c / (p + 1) + 1) := Nat.lt_mul_div_succ c (Nat.succ_pos p)
    generalize c / (p + 1) = q at *
    have e₁ : q * (p + 1) = p * q + q := by ring
    have e₂ : (p + 1) * (q + 1) = p * q + q + p + 1 := by ring
    refine ⟨q, rfl, by omega, ?_⟩
    rw [if_pos hi]
    omega
  · omega
  · -- a later shard, of `p` children from `p * i + r`
    have hle : p * ((c - (p + 1) * r) / p) ≤ c - (p + 1) * r := Nat.mul_div_le _ p
    have hlt : c - (p + 1) * r < p * ((c - (p + 1) * r) / p + 1) := Nat.lt_mul_div_succ _ hpart
    generalize (c - (p + 1) * r) / p = q at *
    have e₁ : (p + 1) * r = p * r + r := by ring
    have e₂ : p * (q + r) = p * q + p * r := by ring
    have e₃ : p * (q + 1) = p * q + p := by ring
    have e₄ : n * p = p * n := Nat.mul_comm n p
    have hq : q + r < n := by
      by_contra hge
      have hmul : p * (n - r) ≤ p * q := Nat.mul_le_mul_left p (by omega)
      rw [Nat.mul_sub] at hmul
      omega
    refine ⟨q + r, rfl, hq, ?_⟩
    rw [if_neg (by omega)]
    omega

end Spans

/-! ### The regions of the shards -/

section Regions

variable {n i : Nat} {regions : List (PageRegion × Nat)}

theorem toUInt8_le_maxChildIndex {k : Nat} (hk : k < numChildren) :
    k.toUInt8 ≤ maxChildIndex := by
  rw [PageId.maxChildIndex_eq, UInt8.le_iff_toNat_le]
  rw [numChildren_eq] at hk
  simp only [Nat.toUInt8_eq, UInt8.toNat_ofNat', UInt8.reduceToNat]
  omega

theorem toNat_toUInt8_of_lt {k : Nat} (hk : k < numChildren) : k.toUInt8.toNat = k := by
  rw [numChildren_eq] at hk
  simp only [Nat.toUInt8_eq, UInt8.toNat_ofNat']
  omega

/-- One round of the loop of `shard_regions`, for a commit concurrency between 1 and 64: the
region of the shard's run of children. -/
theorem shardRegion_spec (hn0 : 0 < n) (hn : n ≤ numChildren) (hi : i < n) :
    ∃ r, ∃ a b : ChildPageIndex, a.index.toNat = (shardSpan n i).1 ∧
      b.index.toNat + 1 = (shardSpan n i).1 + (shardSpan n i).2 ∧
      fromPageIdDescendants rootPageId a b = some r ∧
      shardRegion n i = some (r, (shardSpan n i).2) := by
  have hpos := shardSpan_snd_pos (i := i) hn0 hn
  have hend := shardSpan_end_le hn0 hi
  rcases hs : shardSpan n i with ⟨start, count⟩
  simp only [hs] at hpos hend ⊢
  have hstart := toUInt8_le_maxChildIndex (k := start) (by omega)
  have hlast := toUInt8_le_maxChildIndex (k := start + count - 1) (by omega)
  have hstart' := toNat_toUInt8_of_lt (k := start) (by omega)
  have hlast' := toNat_toUInt8_of_lt (k := start + count - 1) (by omega)
  have hle : start.toUInt8 ≤ (start + count - 1).toUInt8 := by
    rw [UInt8.le_iff_toNat_le, hstart', hlast']
    omega
  have hsome : (fromPageIdDescendants rootPageId ⟨_, hstart⟩ ⟨_, hlast⟩).isSome :=
    fromPageIdDescendants_isSome hle (by simp [rootPageId, maxPageDepth])
  obtain ⟨r, hr⟩ := Option.isSome_iff_exists.mp hsome
  refine ⟨r, ⟨_, hstart⟩, ⟨_, hlast⟩, hstart', by simp only [hlast']; omega, hr, ?_⟩
  simp only [shardRegion, hs, ChildPageIndex.new_of_le hstart, ChildPageIndex.new_of_le hlast, hr,
    Option.bind_eq_bind, Option.bind_some, Option.pure_def]

/-- `shard_regions` with more than 64 shards panics: shard 64 would start at child 64. -/
theorem shardRegions_eq_none_of_lt (h : numChildren < n) : shardRegions n = none := by
  unfold shardRegions
  rw [if_neg (by omega), List.mapM_eq_none_iff]
  refine ⟨numChildren, List.mem_range.mpr h, ?_⟩
  have hspan : shardSpan n numChildren = (numChildren, 0) := by
    rw [shardSpan_eq, Nat.div_eq_of_lt h, Nat.mod_eq_of_lt h]
    simp
  simp only [shardRegion, hspan]
  rfl

theorem shardRegions_isSome (hn0 : 0 < n) (hn : n ≤ numChildren) :
    ∃ regions, shardRegions n = some regions := by
  unfold shardRegions
  rw [if_neg (by omega)]
  cases h : (List.range n).mapM (shardRegion n) with
  | some regions => exact ⟨regions, rfl⟩
  | none =>
    obtain ⟨i, hi, hnone⟩ := List.mapM_eq_none_iff.mp h
    obtain ⟨_, _, _, _, _, _, hsome⟩ := shardRegion_spec hn0 hn (List.mem_range.mp hi)
    rw [hsome] at hnone
    cases hnone

theorem getElem?_shardRegions (h : shardRegions n = some regions) (i : Nat) :
    regions[i]? = if i < n then shardRegion n i else none := by
  unfold shardRegions at h
  split_ifs at h
  rw [List.getElem?_eq_bind_of_mapM_eq_some h]
  split_ifs with hi
  · rw [List.getElem?_range hi]
    rfl
  · rw [List.getElem?_eq_none (by rw [List.length_range]; omega)]
    rfl

theorem length_shardRegions (h : shardRegions n = some regions) : regions.length = n := by
  unfold shardRegions at h
  split_ifs at h
  rw [List.length_eq_of_mapM_eq_some h, List.length_range]

variable (hn0 : 0 < n) (hn : n ≤ numChildren)
include hn0 hn

/-- An entry of `shard_regions`: the region of the shard's run of children, and its length. -/
theorem shardRegions_entry (h : shardRegions n = some regions) (hi : i < regions.length) :
    ∃ a b : ChildPageIndex, a.index.toNat = (shardSpan n i).1 ∧
      b.index.toNat + 1 = (shardSpan n i).1 + (shardSpan n i).2 ∧
      fromPageIdDescendants rootPageId a b = some regions[i].1 ∧
      regions[i].2 = (shardSpan n i).2 := by
  have hi' : i < n := length_shardRegions h ▸ hi
  obtain ⟨r, a, b, ha, hb, hr, hsr⟩ := shardRegion_spec hn0 hn hi'
  have hget := getElem?_shardRegions h i
  rw [if_pos hi', hsr, List.getElem?_eq_getElem hi, Option.some.injEq] at hget
  rw [hget]
  exact ⟨a, b, ha, hb, hr, rfl⟩

/-- The shards' regions exclude each other: each run of children ends before the next begins. -/
theorem shardRegions_pairwise (h : shardRegions n = some regions) :
    regions.Pairwise fun x y => x.1.excludesUnique y.1 := by
  rw [List.pairwise_iff_getElem]
  intro i j hi hj hij
  obtain ⟨_, b, _, hb, hri, _⟩ := shardRegions_entry hn0 hn h hi
  obtain ⟨a', _, ha', _, hrj, _⟩ := shardRegions_entry hn0 hn h hj
  refine excludesUnique_of_root hri hrj ?_
  have hmono := shardSpan_fst_mono (n := n) (Nat.succ_le_of_lt hij)
  rw [shardSpan_succ_fst] at hmono
  rw [UInt8.lt_iff_toNat_lt]
  omega

/-- A page below the root lies in the region of the shard `shard_index_for` picks for its first
child, and in no other shard's region at all. -/
theorem shardRegions_containsExclusive (h : shardRegions n = some regions) {page : PageId}
    {c : ChildPageIndex} (hc : page.childIndexAtLevel 0 = some c) :
    ∃ i, shardIndexFor n c.index.toNat = some i ∧ ∃ hi : i < regions.length,
      regions[i].1.containsExclusive page ∧
      ∀ j (hj : j < regions.length), regions[j].1.contains page → j = i := by
  have hc64 : c.index.toNat < numChildren := by
    have := UInt8.le_iff_toNat_le.mp c.le_max
    rw [PageId.maxChildIndex_eq] at this
    rw [numChildren_eq]
    exact Nat.lt_succ_of_le this
  obtain ⟨i, hfor, hin, hlo, hhi⟩ := shardIndexFor_spec hn0 hn hc64
  have hi : i < regions.length := by rw [length_shardRegions h]; exact hin
  obtain ⟨a, b, ha, hb, hr, _⟩ := shardRegions_entry hn0 hn h hi
  have hmem : regions[i].1.containsExclusive page := by
    refine (containsExclusive_iff_of_root hr).mpr ⟨c, hc, ?_, ?_⟩
    · rw [UInt8.le_iff_toNat_le]
      omega
    · rw [UInt8.le_iff_toNat_le]
      omega
  refine ⟨i, hfor, hi, hmem, fun j hj hcontains => Classical.byContradiction fun hne => ?_⟩
  have hpair := List.pairwise_iff_getElem.mp (shardRegions_pairwise hn0 hn h)
  rcases Nat.lt_or_gt_of_ne hne with hlt | hgt
  · -- an earlier shard
    have hex := hpair j i hj hi hlt
    rw [excludesUnique_comm] at hex
    exact not_contains_of_excludesUnique hex hmem hcontains
  · exact not_contains_of_excludesUnique (hpair i j hi hj hgt) hmem hcontains

/-- The counts of `shard_regions` are the lengths of the runs. -/
theorem map_snd_shardRegions (h : shardRegions n = some regions) :
    regions.map Prod.snd = (List.range n).map fun i => (shardSpan n i).2 := by
  refine List.ext_getElem? fun i => ?_
  rw [List.getElem?_map, List.getElem?_map, getElem?_shardRegions h]
  split_ifs with hi
  · obtain ⟨r, _, _, _, _, _, hsr⟩ := shardRegion_spec hn0 hn hi
    rw [hsr, List.getElem?_range hi]
    rfl
  · rw [List.getElem?_eq_none (by rw [List.length_range]; omega)]
    rfl

/-- The shards together get all the root's children. -/
theorem sum_shardRegions (h : shardRegions n = some regions) :
    (regions.map Prod.snd).sum = numChildren := by
  rw [map_snd_shardRegions hn0 hn h, sum_shardSpan_snd, shardSpan_fst_self hn0]

/-- For a commit concurrency between 1 and 64, `shard_regions` gives each of the `n` shards a
region, the counts of children add up to all 64, the regions exclude each other pairwise, and
every page below the root lies in exactly one of them: that region holds it exclusively, and no
other holds it at all. -/
theorem shardRegions_partition :
    ∃ regions, shardRegions n = some regions ∧ regions.length = n ∧
      (regions.map Prod.snd).sum = numChildren ∧
      regions.Pairwise (fun x y => x.1.excludesUnique y.1) ∧
      ∀ page : PageId, page ≠ rootPageId → ∃ i, ∃ hi : i < regions.length,
        regions[i].1.containsExclusive page ∧
        ∀ j (hj : j < regions.length), regions[j].1.contains page → j = i := by
  obtain ⟨regions, h⟩ := shardRegions_isSome hn0 hn
  refine ⟨regions, h, length_shardRegions h, sum_shardRegions hn0 hn h,
    shardRegions_pairwise hn0 hn h, fun page hpage => ?_⟩
  obtain ⟨c, hc⟩ := Option.isSome_iff_exists.mp (childIndexAtLevel_zero_isSome hpage)
  obtain ⟨i, _, hi, hmem, huniq⟩ := shardRegions_containsExclusive hn0 hn h hc
  exact ⟨i, hi, hmem, huniq⟩

omit hn0 hn in
theorem shardRegions_partition_eight_shards :
    ∃ regions, shardRegions 8 = some regions ∧ regions.length = 8 ∧
      (regions.map Prod.snd).sum = numChildren ∧
      regions.Pairwise (fun x y => x.1.excludesUnique y.1) ∧
      ∀ page : PageId, page ≠ rootPageId → ∃ i, ∃ hi : i < regions.length,
        regions[i].1.containsExclusive page ∧
        ∀ j (hj : j < regions.length), regions[j].1.contains page → j = i :=
  shardRegions_partition (by decide) (by decide)

end Regions

/-! ### `make_shards` and `PageCache::new` -/

section Shards

variable {n size : Nat} {shards : List CacheShard}

/-- The page limit `make_shards` gives a shard of `count` children of the root. -/
def shardLimit (size count : Nat) : Nat :=
  wrappingMul (wrappingMul (wrappingMul size 1024) 1024 / PAGE_SIZE / 64) count

/-- Below `2 ^ 44` MiB, `2 ^ 64` bytes, no product wraps, and a shard's limit is its share of the
cache's. -/
theorem shardLimit_of_lt {count : Nat} (hsize : size < 2 ^ 44) (hc : count ≤ 64) :
    shardLimit size count = size * 1024 * 1024 / PAGE_SIZE / 64 * count := by
  have h1 : size * 1024 < 2 ^ 64 :=
    calc size * 1024 < 2 ^ 44 * 1024 := Nat.mul_lt_mul_of_pos_right hsize (by decide)
      _ ≤ 2 ^ 64 := by decide
  have h2 : size * 1024 * 1024 < 2 ^ 64 :=
    calc size * 1024 * 1024 < 2 ^ 44 * 1024 * 1024 :=
          Nat.mul_lt_mul_of_pos_right (Nat.mul_lt_mul_of_pos_right hsize (by decide)) (by decide)
      _ = 2 ^ 64 := by decide
  -- a share of at most 64 children is at most the whole limit
  have hshare : size * 1024 * 1024 / PAGE_SIZE / 64 * count ≤ size * 1024 * 1024 := by
    calc size * 1024 * 1024 / PAGE_SIZE / 64 * count
        ≤ size * 1024 * 1024 / PAGE_SIZE / 64 * 64 := Nat.mul_le_mul_left _ hc
      _ ≤ size * 1024 * 1024 / PAGE_SIZE := Nat.div_mul_le_self _ _
      _ ≤ size * 1024 * 1024 := Nat.div_le_self _ _
  rw [shardLimit, wrappingMul_of_lt h1, wrappingMul_of_lt h2,
    wrappingMul_of_lt (Nat.lt_of_le_of_lt hshare h2)]

/-- A nonzero cache has a nonzero limit per child of the root, which the 64 children share out
exactly. -/
theorem share_pos (hsize : 0 < size) : 0 < size * 1024 * 1024 / PAGE_SIZE / 64 := by
  unfold PAGE_SIZE
  omega

theorem share_mul_numChildren (size : Nat) :
    size * 1024 * 1024 / PAGE_SIZE / 64 * 64 = size * 1024 * 1024 / PAGE_SIZE := by
  unfold PAGE_SIZE
  omega

/-- What `make_shards` builds: a shard for each entry of `shard_regions`, with its region and
the entry's share of the limit per child of the root. -/
theorem makeShards_eq_some (h : makeShards n size = some shards) :
    0 < n ∧ ∃ regions, shardRegions n = some regions ∧
      shards.map (fun s => (s.region, s.pageLimit)) =
        regions.map fun x => (x.1, shardLimit size x.2) := by
  unfold makeShards at h
  split_ifs at h with hn0
  cases hr : shardRegions n with
  | none =>
    rw [hr] at h
    cases h
  | some regions =>
    rw [hr] at h
    refine ⟨Nat.pos_of_ne_zero hn0, regions, rfl, ?_⟩
    refine List.map_eq_map_of_forall₂ ((List.mapM_eq_some_iff.mp h).imp ?_)
    -- each round of the loop gives the entry's region and share, or panics
    rintro ⟨region, count⟩ s hs
    simp only at hs
    split_ifs at hs
    cases hs
    rfl

/-- A shard's page limit is its entry's share, and a `NonZeroUsize`. -/
theorem pos_of_mem_shardRegions {regions : List (PageRegion × Nat)}
    (hmap : shards.map (fun s => (s.region, s.pageLimit)) =
      regions.map fun x => (x.1, shardLimit size x.2))
    {x : PageRegion × Nat} (hx : x ∈ regions) : 0 < shardLimit size x.2 := by
  have hmem : (x.1, shardLimit size x.2) ∈ shards.map fun s => (s.region, s.pageLimit) := by
    rw [hmap]
    exact List.mem_map_of_mem hx
  obtain ⟨s, _, hs⟩ := List.mem_map.mp hmem
  rw [← (Prod.mk.inj hs).2]
  exact s.pageLimit_pos

theorem makeShards_isSome (hn0 : 0 < n) (hn : n ≤ numChildren) (hsize : 0 < size)
    (hbound : size < 2 ^ 44) : (makeShards n size).isSome := by
  obtain ⟨regions, hr⟩ := shardRegions_isSome hn0 hn
  unfold makeShards
  rw [if_neg (by omega), hr, Option.bind_eq_bind, Option.bind_some, Option.isSome_iff_ne_none,
    Ne, List.mapM_eq_none_iff]
  -- no round of the loop panics: every shard has a child, and every child some pages
  rintro ⟨⟨region, count⟩, hx, hnone⟩
  obtain ⟨i, hi, hget⟩ := List.getElem_of_mem hx
  obtain ⟨_, _, _, _, _, hcount⟩ := shardRegions_entry hn0 hn hr hi
  have hpos := shardSpan_snd_pos (i := i) hn0 hn
  have hle := shardSpan_end_le hn0 ((length_shardRegions hr) ▸ hi)
  rw [hget] at hcount
  have hshare : 0 < shardLimit size count := by
    rw [shardLimit_of_lt hbound (by rw [← hcount, numChildren_eq] at *; omega)]
    exact Nat.mul_pos (share_pos hsize) (by omega)
  have hshare' : 0 < wrappingMul
      (wrappingMul (wrappingMul size 1024) 1024 / PAGE_SIZE / 64) count := hshare
  simp only [dif_pos hshare'] at hnone
  cases hnone

theorem makeShards_shards {regions : List (PageRegion × Nat)}
    (hmap : shards.map (fun s => (s.region, s.pageLimit)) =
      regions.map fun x => (x.1, shardLimit size x.2)) :
    shards.length = regions.length ∧
      ∀ i (hi : i < shards.length) (hi' : i < regions.length), shards[i].region = regions[i].1 := by
  have hlen : shards.length = regions.length := by
    simpa only [List.length_map] using congrArg List.length hmap
  refine ⟨hlen, fun i hi hi' => ?_⟩
  have hget : (shards.map fun s => (s.region, s.pageLimit))[i]? =
      (regions.map fun x => (x.1, shardLimit size x.2))[i]? := by
    rw [hmap]
  rw [List.getElem?_map, List.getElem?_map, List.getElem?_eq_getElem hi,
    List.getElem?_eq_getElem hi'] at hget
  simp only [Option.map_some, Option.some.injEq, Prod.mk.injEq] at hget
  exact hget.1

/-- What `make_shards` requires and gives: a commit concurrency between 1 and 64, and one shard
for each. -/
theorem makeShards_spec (h : makeShards n size = some shards) :
    0 < n ∧ n ≤ numChildren ∧ shards.length = n := by
  obtain ⟨hn0, regions, hr, hmap⟩ := makeShards_eq_some h
  have hn : n ≤ numChildren := by
    refine Nat.le_of_not_lt fun hlt => ?_
    rw [shardRegions_eq_none_of_lt hlt] at hr
    cases hr
  exact ⟨hn0, hn, (makeShards_shards hmap).1.trans (length_shardRegions hr)⟩

/-- Below `2 ^ 44` MiB, `make_shards` needs a nonzero cache size, and its page limits add up to
the cache's. -/
theorem makeShards_sum (h : makeShards n size = some shards) (hbound : size < 2 ^ 44) :
    0 < size ∧ (shards.map (·.pageLimit)).sum = size * 1024 * 1024 / PAGE_SIZE := by
  obtain ⟨hn0, regions, hr, hmap⟩ := makeShards_eq_some h
  obtain ⟨-, hn, -⟩ := makeShards_spec h
  -- every entry has at most the root's 64 children
  have hcount : ∀ x ∈ regions, x.2 ≤ 64 := by
    intro x hx
    obtain ⟨i, hi, hget⟩ := List.getElem_of_mem hx
    obtain ⟨_, _, _, _, _, hc⟩ := shardRegions_entry hn0 hn hr hi
    have := shardSpan_end_le hn0 (hi.trans_eq (length_shardRegions hr))
    rw [← hget, hc]
    rw [numChildren_eq] at this
    omega
  -- a first shard exists, and its page limit is not zero
  have hregions : 0 < regions.length := by rw [length_shardRegions hr]; exact hn0
  have hfirst : regions[0] ∈ regions := List.getElem_mem hregions
  have hshare := pos_of_mem_shardRegions hmap hfirst
  have hsize : 0 < size := by
    refine Nat.pos_of_ne_zero fun hzero => ?_
    rw [hzero] at hshare
    simp [shardLimit, wrappingMul] at hshare
  refine ⟨hsize, ?_⟩
  have hlimits : shards.map (·.pageLimit) =
      regions.map fun x => size * 1024 * 1024 / PAGE_SIZE / 64 * x.2 := by
    have := congrArg (List.map Prod.snd) hmap
    simp only [List.map_map, Function.comp_def] at this
    rw [this]
    exact List.map_congr_left fun x hx => shardLimit_of_lt hbound (hcount x hx)
  rw [hlimits, List.sum_map_mul_left, sum_shardRegions hn0 hn hr, numChildren_eq,
    share_mul_numChildren]

/-- For a cache budget below `2 ^ 44` MiB (`2 ^ 64` bytes), where no `usize` product wraps, `PageCache::new`
succeeds exactly for a commit concurrency between 1 and 64 and a nonzero `page_cache_size`: a zero
size gives every shard a zero page limit, and `NonZeroUsize::new(..).unwrap()` panics. The cache
then has one shard per unit of concurrency, and their page limits add up to the cache's page
limit. -/
theorem PageCache.new_spec (n size : Nat) (hbound : size < 2 ^ 44) :
    ((PageCache.new n size).isSome ↔ 0 < n ∧ n ≤ numChildren ∧ 0 < size) ∧
      ∀ c, PageCache.new n size = some c →
        c.shards.length = n ∧ (c.shards.map (·.pageLimit)).sum = size * 1024 * 1024 / PAGE_SIZE := by
  refine ⟨⟨fun h => ?_, fun ⟨hn0, hn, hsize⟩ => ?_⟩, fun c h => ?_⟩
  · obtain ⟨shards, hm⟩ := Option.isSome_iff_exists.mp (Option.isSome_map.symm.trans h)
    obtain ⟨hn0, hn, -⟩ := makeShards_spec hm
    exact ⟨hn0, hn, (makeShards_sum hm hbound).1⟩
  · exact Option.isSome_map.trans (makeShards_isSome hn0 hn hsize hbound)
  · obtain ⟨shards, hm, rfl⟩ := Option.map_eq_some_iff.mp h
    exact ⟨(makeShards_spec hm).2.2, (makeShards_sum hm hbound).2⟩

/-- The default cache of 256 MiB, with eight shards. -/
theorem PageCache.new_spec_default :
    256 < 2 ^ 44 ∧
      ((PageCache.new 8 256).isSome ↔ 0 < 8 ∧ 8 ≤ numChildren ∧ 0 < 256) ∧
      ∀ c, PageCache.new 8 256 = some c →
        c.shards.length = 8 ∧ (c.shards.map (·.pageLimit)).sum = 256 * 1024 * 1024 / PAGE_SIZE :=
  ⟨by decide, PageCache.new_spec 8 256 (by decide)⟩

/-- In a cache `PageCache::new` builds, `PageCache::shard_index_for` never panics, its debug
assertion included: the root page has no shard, and every other page goes to the shard whose
region holds it exclusively, which is the only shard whose region holds it at all. -/
theorem PageCache.shardIndexFor_routes {c : PageCache} (h : PageCache.new n size = some c)
    (page : PageId) :
    (page = rootPageId → c.shardIndexFor page = some none) ∧
      (page ≠ rootPageId → ∃ i, ∃ hi : i < c.shards.length,
        c.shardIndexFor page = some (some i) ∧ c.shards[i].region.containsExclusive page ∧
        ∀ j (hj : j < c.shards.length), c.shards[j].region.contains page → j = i) := by
  obtain ⟨shards, hm, rfl⟩ := Option.map_eq_some_iff.mp h
  obtain ⟨hn0, hn, hlen⟩ := makeShards_spec hm
  obtain ⟨_, regions, hr, hmap⟩ := makeShards_eq_some hm
  obtain ⟨hlen', hreg⟩ := makeShards_shards hmap
  refine ⟨fun hroot => by rw [PageCache.shardIndexFor, if_pos hroot], fun hpage => ?_⟩
  obtain ⟨c, hc⟩ := Option.isSome_iff_exists.mp (childIndexAtLevel_zero_isSome hpage)
  obtain ⟨i, hfor, hi, hmem, huniq⟩ := shardRegions_containsExclusive hn0 hn hr hc
  have hi' : i < shards.length := hlen' ▸ hi
  have hmem' : shards[i].region.containsExclusive page := by
    rw [hreg i hi' hi]
    exact hmem
  refine ⟨i, hi', ?_, hmem', fun j hj hcont => huniq j (hlen' ▸ hj) ?_⟩
  · simp only [PageCache.shardIndexFor, if_neg hpage, hc, hlen, hfor, List.getElem?_eq_getElem hi',
      hmem', Option.bind_eq_bind, Option.bind_some, ↓reduceIte]
  · rw [← hreg j hj (hlen' ▸ hj)]
    exact hcont

/-- The page cache of two shards and a 1 MiB budget. -/
def twoShardCache : PageCache := (PageCache.new 2 1).getD ⟨[]⟩

theorem new_twoShardCache : PageCache.new 2 1 = some twoShardCache := by
  have h : (PageCache.new 2 1).isSome :=
    Option.isSome_map.trans (makeShards_isSome (by decide) (by decide) (by decide) (by decide))
  obtain ⟨c, hc⟩ := Option.isSome_iff_exists.mp h
  rw [twoShardCache, hc]
  rfl

/-- The page at the root's child 40, child 3. -/
def childFortyThree : PageId := ⟨[40, 3], by decide, by simp [PageId.maxChildIndex_eq]⟩

theorem shardIndexFor_routes_two_shards :
    ∃ i, ∃ hi : i < twoShardCache.shards.length,
      twoShardCache.shardIndexFor childFortyThree = some (some i) ∧
      twoShardCache.shards[i].region.containsExclusive childFortyThree ∧
      ∀ j (hj : j < twoShardCache.shards.length),
        twoShardCache.shards[j].region.contains childFortyThree → j = i :=
  (PageCache.shardIndexFor_routes new_twoShardCache _).2 (by decide)

/-- In a cache `PageCache::new` builds, the regions of two distinct shards exclude each other. -/
theorem PageCache.excludesUnique_of_ne {c : PageCache} (h : PageCache.new n size = some c)
    {i j : Nat} (hi : i < c.shards.length) (hj : j < c.shards.length) (hij : i ≠ j) :
    c.shards[i].region.excludesUnique c.shards[j].region := by
  obtain ⟨shards, hm, rfl⟩ := Option.map_eq_some_iff.mp h
  obtain ⟨hn0, hn, _⟩ := makeShards_spec hm
  obtain ⟨_, regions, hr, hmap⟩ := makeShards_eq_some hm
  obtain ⟨hlen', hreg⟩ := makeShards_shards hmap
  have hpair := List.pairwise_iff_getElem.mp (shardRegions_pairwise hn0 hn hr)
  rw [hreg i hi (hlen' ▸ hi), hreg j hj (hlen' ▸ hj)]
  rcases Nat.lt_or_gt_of_ne hij with hlt | hgt
  · exact hpair i j _ _ hlt
  · rw [excludesUnique_comm]
    exact hpair j i _ _ hgt

end Shards

end Nomt

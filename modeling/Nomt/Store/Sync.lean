import Nomt.Store.Bitbox
import Nomt.Store.Wal
import Nomt.Lib.Undo

/-!
# Syncing the hash table (`nomt/src/bitbox/mod.rs`, `bitbox/ht_file.rs`)

The hash-table file holds the meta map in its first `num_meta_byte_pages` pages and the data page
of bucket `b` at `data_page_offset + b` after them (`HTOffsets`); `ht_file::open` reads the meta
map back from the meta pages (`htFileOpen`).

A sync first runs `prepare_sync` over the changed pages. A cleared page's bucket becomes a
tombstone; any other page keeps its known bucket or is given one by `allocate_bucket`, which sets
the bucket full. Every change is recorded in the WAL blob (`write_clear`, `write_update` with the
diff's changed nodes), every updated page is queued for its data page, and the meta pages whose
bytes changed are queued after them. Once the WAL is on disk and the manifest is updated,
`post_meta` writes the queued pages (`writeHt`) and truncates the WAL.

`prepareStep_eq_ok` says once what a step of `prepare_sync` does; every later proof about the
direct path starts from it.
-/

namespace Nomt.Bitbox

open Wal Undo

/-! ### The hash-table file -/

/-- `HTOffsets`. -/
structure HTOffsets where
  dataPageOffset : Nat

/-- `HTOffsets::data_page_index`. -/
def HTOffsets.dataPageIndex (o : HTOffsets) (ix : Nat) : Nat := o.dataPageOffset + ix

/-- `HTOffsets::meta_bytes_index`: meta pages come first. -/
def HTOffsets.metaBytesIndex (ix : Nat) : Nat := ix

/-- The hash-table file, page by page. -/
abbrev HtFile := Nat → FatPage

/-- `num_meta_byte_pages`. -/
def numMetaBytePages (numPages : UInt32) : Nat := (numPages.toNat + 4095) / PAGE_SIZE

/-- The bytes of the first `n` pages of the file. -/
def readMeta (htFd : HtFile) (n : Nat) : List UInt8 := (List.range n).flatMap fun pn => (htFd pn).toList

theorem length_readMeta (htFd : HtFile) (n : Nat) : (readMeta htFd n).length = n * PAGE_SIZE := by
  induction n with
  | zero => rfl
  | succ n ih =>
    simp only [readMeta] at ih ⊢
    rw [List.range_succ, List.flatMap_append, List.length_append, ih]
    simp [Nat.succ_mul]

/-- `ht_file::open`: the meta map read from the meta pages (the check of the file's length is
not modelled). -/
def htFileOpen (numPages : UInt32) (htFd : HtFile) : HTOffsets × MetaMap :=
  (⟨numMetaBytePages numPages⟩,
    ⟨numPages.toNat, readMeta htFd (numMetaBytePages numPages), by
      rw [length_readMeta, numMetaBytePages]
      simp only [PAGE_SIZE]
      omega⟩)

/-- `write_ht`: the queued pages written at their page numbers. -/
def writeHt (htFd : HtFile) (htPages : List (Nat × FatPage)) : HtFile := write htFd htPages

/-- A meta page as `prepare_sync` and `recover` write it: `page_slice` copied into a page. -/
def metaPage (m : MetaMap) (ix : Nat) : FatPage :=
  FatPage.copyFromSlice (Vector.replicate PAGE_SIZE 0) 0 (m.pageSlice ix)

/-! ### `prepare_sync` -/

/-- `BucketInfo`, with the bucket a `SharedMaybeBucketIndex` holds when the batch is prepared. -/
inductive BucketInfo
  | known (bucket : UInt64)
  | freshWithNoDependents
  | freshOrDependent (maybeBucket : Option UInt64)
deriving DecidableEq, Repr

/-- `DirtyPage`. -/
structure DirtyPage where
  page : FatPage
  diff : PageDiff
  bucket : BucketInfo

/-- `BucketExhaustion`. -/
structure BucketExhaustion where
deriving DecidableEq, Repr

/-- What `prepare_sync` has built so far: the meta map, the meta pages it changed, the pages to
write, the page-cache updates, the change in occupied buckets, and the WAL blob. -/
structure PrepareSync where
  metaMap : MetaMap
  changedMetaPages : List Nat
  htPages : List (Nat × FatPage)
  cacheUpdates : List (PageId × Option (FatPage × UInt64))
  occupiedBucketsDelta : Int
  walBlobBuilder : WalBlobBuilder

section PrepareSync

-- the seeded `hash_raw_page_id`, the rounds each call of `ProbeSequence::next` may take, and the
-- file's offsets
variable (hashRaw : List UInt8 → UInt64) (fuel : Nat) (offsets : HTOffsets)

/-- `hash_page_id`. -/
def hashPageId (pageId : PageId) : UInt64 := hashRaw pageId.encode

/-- The bucket of a page that is not cleared: known, set by an earlier overlay, or allocated now,
with whether the meta map changed. -/
def bucketOf (metaMap : MetaMap) (pageId : PageId) :
    BucketInfo → Option (Except BucketExhaustion (Bool × UInt64 × MetaMap))
  | .known bucket | .freshOrDependent (some bucket) => some (.ok (false, bucket, metaMap))
  | .freshWithNoDependents | .freshOrDependent none =>
    (allocateBucket (hashPageId hashRaw pageId) metaMap fuel).map fun
      | (none, _) => .error ⟨⟩
      | (some bucket, metaMap) => .ok (true, UInt64.ofNat bucket, metaMap)

/-- One change of the loop of `prepare_sync`; `none` where it panics or does not return. -/
def prepareStep (st : PrepareSync) (change : PageId × DirtyPage) :
    Option (Except BucketExhaustion PrepareSync) :=
  let (pageId, dirtyPage) := change
  if dirtyPage.diff.cleared then
    -- a cleared page was stored, so its bucket is known
    match dirtyPage.bucket with
    | .known bucket | .freshOrDependent (some bucket) =>
      -- `set_tombstone` indexes the meta map
      if bucket.toNat < st.metaMap.bitvec.length then
        some (.ok { st with
          occupiedBucketsDelta := st.occupiedBucketsDelta - 1
          metaMap := st.metaMap.setTombstone bucket.toNat
          changedMetaPages := st.changedMetaPages.insert (MetaMap.pageIndex bucket.toNat)
          cacheUpdates := st.cacheUpdates ++ [(pageId, none)]
          walBlobBuilder := st.walBlobBuilder.writeClear bucket })
      else none
    | _ => none
  else
    match bucketOf hashRaw fuel st.metaMap pageId dirtyPage.bucket with
    | none => none
    | some (.error e) => some (.error e)
    | some (.ok (metaMapChanged, bucket, metaMap)) =>
      let hash := hashPageId hashRaw pageId
      match dirtyPage.diff.packChangedNodes dirtyPage.page with
      | none => none
      | some changed =>
        some (.ok
          { metaMap := if metaMapChanged then metaMap.setFull bucket.toNat hash else metaMap
            changedMetaPages := if metaMapChanged then
                st.changedMetaPages.insert (MetaMap.pageIndex bucket.toNat)
              else st.changedMetaPages
            occupiedBucketsDelta := if metaMapChanged then st.occupiedBucketsDelta + 1
              else st.occupiedBucketsDelta
            walBlobBuilder := st.walBlobBuilder.writeUpdate pageId.encode dirtyPage.diff changed
              (readElidedChildren dirtyPage.page) bucket
            cacheUpdates := st.cacheUpdates ++ [(pageId, some (dirtyPage.page, bucket))]
            htPages := st.htPages ++ [(offsets.dataPageIndex bucket.toNat, dirtyPage.page)] })

/-- The loop of `prepare_sync` over the changes. -/
def prepareLoop : PrepareSync → List (PageId × DirtyPage) → Option (Except BucketExhaustion PrepareSync)
  | st, [] => some (.ok st)
  | st, change :: changes =>
    match prepareStep hashRaw fuel offsets st change with
    | none => none
    | some (.error e) => some (.error e)
    | some (.ok st) => prepareLoop st changes

/-- The check of `prepare_sync` under `debug_assertions`, which the release profile keeps on: the
queued pages sorted by page number, and a panic if `dedup_by_key` then drops one, that is if a page
number is queued twice. `sort_unstable_by_key` is modelled by an insertion sort: where the check
passes, the page numbers are distinct and every sort gives the same list. -/
def sortDedupPages (htPages : List (Nat × FatPage)) : Option (List (Nat × FatPage)) :=
  let sorted := htPages.insertionSort fun a b => a.1 ≤ b.1
  if (sorted.destutter fun a b => a.1 ≠ b.1).length = htPages.length then some sorted else none

/-- `DB::prepare_sync`: the loop, then the changed meta pages queued after the data pages, the
check that no page is queued twice, and the WAL blob finalized. -/
def prepareSync (syncSeqn : UInt32) (metaMap : MetaMap) (changes : List (PageId × DirtyPage)) :
    Option (Except BucketExhaustion PrepareSync) :=
  match prepareLoop hashRaw fuel offsets ⟨metaMap, [], [], [], 0, WalBlobBuilder.reset syncSeqn⟩ changes with
  | none => none
  | some (.error e) => some (.error e)
  | some (.ok st) =>
    (sortDedupPages (st.htPages ++ st.changedMetaPages.map fun ix =>
        (HTOffsets.metaBytesIndex ix, metaPage st.metaMap ix))).map fun htPages =>
      .ok { st with htPages := htPages, walBlobBuilder := st.walBlobBuilder.finalize }

/-! ### What a step does -/

/-- The bucket a `BucketInfo` already names. -/
def BucketInfo.knownBucket : BucketInfo → Option UInt64
  | .known bucket | .freshOrDependent (some bucket) => some bucket
  | _ => none

/-- The buckets the cleared pages of a batch name. -/
def clearedBuckets (changes : List (PageId × DirtyPage)) : List UInt64 :=
  (changes.filter fun c => c.2.diff.cleared).filterMap fun c => c.2.bucket.knownBucket

/-- The buckets the pages of a batch that are not cleared already name. -/
def updatedKnownBuckets (changes : List (PageId × DirtyPage)) : List UInt64 :=
  (changes.filter fun c => !c.2.diff.cleared).filterMap fun c => c.2.bucket.knownBucket

/-- A page given a fresh bucket gets a free one, which `allocate_bucket` sets full with the page's
hash. -/
theorem bucketOf_fresh_eq_ok {m m' : MetaMap} {pageId : PageId} {changed : Bool} {bucket : UInt64}
    (h : bucketOf hashRaw fuel m pageId .freshWithNoDependents = some (.ok (changed, bucket, m'))) :
    changed = true ∧ ∃ b, m.free b ∧ b < m.len ∧ bucket = UInt64.ofNat b ∧
      m' = m.setFull b (hashPageId hashRaw pageId) := by
  simp only [bucketOf] at h
  obtain ⟨⟨r, m''⟩, halloc, hr⟩ := Option.map_eq_some_iff.mp h
  rcases r with _ | b
  · cases hr
  · cases hr
    obtain ⟨hfree, hlt, hm⟩ := allocateBucket_eq_some halloc
    exact ⟨rfl, b, hfree, hlt, rfl, hm⟩

/-- The bucket of a page is the one its `BucketInfo` names, with the meta map unchanged, or a free
bucket that `allocate_bucket` sets full with the page's hash. -/
theorem bucketOf_eq_ok {m m' : MetaMap} {pageId : PageId} {info : BucketInfo} {changed : Bool}
    {bucket : UInt64} (h : bucketOf hashRaw fuel m pageId info = some (.ok (changed, bucket, m'))) :
    (info.knownBucket = some bucket ∧ changed = false ∧ m' = m) ∨
    (info.knownBucket = none ∧ changed = true ∧ ∃ b, m.free b ∧ b < m.len ∧
      bucket = UInt64.ofNat b ∧ m' = m.setFull b (hashPageId hashRaw pageId)) := by
  cases info with
  | known bucket' =>
    cases h
    exact .inl ⟨rfl, rfl, rfl⟩
  | freshWithNoDependents => exact .inr ⟨rfl, bucketOf_fresh_eq_ok hashRaw fuel h⟩
  | freshOrDependent maybeBucket =>
    cases maybeBucket with
    | none => exact .inr ⟨rfl, bucketOf_fresh_eq_ok hashRaw fuel h⟩
    | some bucket' =>
      cases h
      exact .inl ⟨rfl, rfl, rfl⟩

/-- What a step of `prepare_sync` that succeeds does: a cleared page's known bucket becomes a
tombstone; any other page takes its known bucket, or a free bucket that is set full with its
hash; the change is written to the WAL and an updated page is queued. -/
theorem prepareStep_eq_ok {st st' : PrepareSync} {pageId : PageId} {d : DirtyPage}
    (h : prepareStep hashRaw fuel offsets st (pageId, d) = some (.ok st')) :
    (d.diff.cleared = true ∧ ∃ bucket, d.bucket.knownBucket = some bucket ∧
      bucket.toNat < st.metaMap.bitvec.length ∧
      st' = { st with
        occupiedBucketsDelta := st.occupiedBucketsDelta - 1
        metaMap := st.metaMap.setTombstone bucket.toNat
        changedMetaPages := st.changedMetaPages.insert (MetaMap.pageIndex bucket.toNat)
        cacheUpdates := st.cacheUpdates ++ [(pageId, none)]
        walBlobBuilder := st.walBlobBuilder.writeClear bucket }) ∨
    (d.diff.cleared = false ∧ ∃ changed, d.diff.packChangedNodes d.page = some changed ∧
      ∃ bucket metaMap,
        ((d.bucket.knownBucket = some bucket ∧ metaMap = st.metaMap ∧
          st' = { st with
            walBlobBuilder := st.walBlobBuilder.writeUpdate pageId.encode d.diff changed
              (readElidedChildren d.page) bucket
            cacheUpdates := st.cacheUpdates ++ [(pageId, some (d.page, bucket))]
            htPages := st.htPages ++ [(offsets.dataPageIndex bucket.toNat, d.page)] }) ∨
        (d.bucket.knownBucket = none ∧ ∃ b, st.metaMap.free b ∧ b < st.metaMap.len ∧
          bucket = UInt64.ofNat b ∧ metaMap = st.metaMap.setFull b (hashPageId hashRaw pageId) ∧
          st' =
            { metaMap := metaMap.setFull bucket.toNat (hashPageId hashRaw pageId)
              changedMetaPages := st.changedMetaPages.insert (MetaMap.pageIndex bucket.toNat)
              occupiedBucketsDelta := st.occupiedBucketsDelta + 1
              walBlobBuilder := st.walBlobBuilder.writeUpdate pageId.encode d.diff changed
                (readElidedChildren d.page) bucket
              cacheUpdates := st.cacheUpdates ++ [(pageId, some (d.page, bucket))]
              htPages := st.htPages ++ [(offsets.dataPageIndex bucket.toNat, d.page)] }))) := by
  unfold prepareStep at h
  dsimp only at h
  split_ifs at h with hc
  · -- a cleared page
    refine .inl ⟨hc, ?_⟩
    rcases hb : d.bucket with bucket | _ | ⟨_ | bucket⟩ <;> rw [hb] at h <;> dsimp only at h
    · split_ifs at h with hlt
      cases h
      exact ⟨bucket, rfl, hlt, rfl⟩
    · cases h
    · cases h
    · split_ifs at h with hlt
      cases h
      exact ⟨bucket, rfl, hlt, rfl⟩
  · refine .inr ⟨Bool.eq_false_iff.mpr hc, ?_⟩
    split at h
    · cases h
    · cases h
    rename_i metaMapChanged bucket metaMap hbucket
    split at h
    · cases h
    rename_i changed hchanged
    refine ⟨changed, hchanged, bucket, metaMap, ?_⟩
    cases h
    rcases bucketOf_eq_ok hashRaw fuel hbucket with
      ⟨hknown, rfl, rfl⟩ | ⟨hknown, rfl, b, hfree, hlt, hb, hm⟩
    · exact .inl ⟨hknown, rfl, rfl⟩
    · exact .inr ⟨hknown, b, hfree, hlt, hb, hm, rfl⟩

/-- A step on a page that is not cleared and whose bucket is known records an update of that
bucket and queues the page, with the meta map as it was. -/
theorem prepareStep_known {st : PrepareSync} {pageId : PageId} {d : DirtyPage} {bucket : UInt64}
    (hc : d.diff.cleared = false) (hknown : d.bucket = .known bucket) :
    prepareStep hashRaw fuel offsets st (pageId, d) = some (.ok { st with
      walBlobBuilder := st.walBlobBuilder.writeUpdate pageId.encode d.diff
        (d.diff.slots.map fun i => d.page.slice (i * 32) 32) (readElidedChildren d.page) bucket
      cacheUpdates := st.cacheUpdates ++ [(pageId, some (d.page, bucket))]
      htPages := st.htPages ++ [(offsets.dataPageIndex bucket.toNat, d.page)] }) := by
  unfold prepareStep
  dsimp only
  rw [if_neg (by rw [hc]; exact Bool.false_ne_true), hknown]
  dsimp only [bucketOf]
  rw [PageDiff.packChangedNodes_eq hc]
  rfl

/-- A step on a cleared page whose known bucket lies inside the meta map makes the bucket a
tombstone and records the clearing. -/
theorem prepareStep_cleared {st : PrepareSync} {pageId : PageId} {d : DirtyPage} {bucket : UInt64}
    (hc : d.diff.cleared = true) (hknown : d.bucket = .known bucket)
    (hlt : bucket.toNat < st.metaMap.bitvec.length) :
    prepareStep hashRaw fuel offsets st (pageId, d) = some (.ok { st with
      occupiedBucketsDelta := st.occupiedBucketsDelta - 1
      metaMap := st.metaMap.setTombstone bucket.toNat
      changedMetaPages := st.changedMetaPages.insert (MetaMap.pageIndex bucket.toNat)
      cacheUpdates := st.cacheUpdates ++ [(pageId, none)]
      walBlobBuilder := st.walBlobBuilder.writeClear bucket }) := by
  unfold prepareStep
  dsimp only
  rw [if_pos hc, hknown]
  dsimp only
  rw [if_pos hlt]

/-! ### The check on the queued pages -/

/-- Where the check passes, the queue is the pages reordered, and their page numbers are
distinct. -/
theorem sortDedupPages_eq_some {htPages sorted : List (Nat × FatPage)}
    (h : sortDedupPages htPages = some sorted) :
    sorted.Perm htPages ∧ (htPages.map Prod.fst).Nodup := by
  unfold sortDedupPages at h
  dsimp only at h
  split_ifs at h with hlen
  cases h
  exact ⟨List.perm_insertionSort _ htPages, (length_destutter_insertionSort_eq_iff htPages).mp hlen⟩

/-- What a `prepare_sync` that succeeds did: its loop succeeded, the changed meta pages were queued
after the data pages and the check passed on them, and the WAL blob was finalized. -/
theorem prepareSync_eq_ok {syncSeqn : UInt32} {metaMap : MetaMap}
    {changes : List (PageId × DirtyPage)} {st : PrepareSync}
    (h : prepareSync hashRaw fuel offsets syncSeqn metaMap changes = some (.ok st)) :
    ∃ stL, prepareLoop hashRaw fuel offsets ⟨metaMap, [], [], [], 0, WalBlobBuilder.reset syncSeqn⟩
        changes = some (.ok stL) ∧
      st.metaMap = stL.metaMap ∧ st.walBlobBuilder = stL.walBlobBuilder.finalize ∧
      sortDedupPages (stL.htPages ++ stL.changedMetaPages.map fun ix =>
        (HTOffsets.metaBytesIndex ix, metaPage stL.metaMap ix)) = some st.htPages := by
  rw [prepareSync] at h
  rcases hloop : prepareLoop hashRaw fuel offsets
      ⟨metaMap, [], [], [], 0, WalBlobBuilder.reset syncSeqn⟩ changes with
    _ | ⟨_ | stL⟩ <;> rw [hloop] at h
  · cases h
  · cases h
  obtain ⟨htPages, hsort, hst⟩ := Option.map_eq_some_iff.mp h
  cases hst
  exact ⟨stL, rfl, rfl, rfl, hsort⟩

/-- The loop queues, after what was queued before, the data page of the known bucket of every
updated page, in the order of the batch; the data pages of freshly allocated buckets come between
them. -/
theorem prepareLoop_htPages {st st' : PrepareSync} {changes : List (PageId × DirtyPage)}
    (h : prepareLoop hashRaw fuel offsets st changes = some (.ok st')) :
    ∃ queued, st'.htPages = st.htPages ++ queued ∧
      ((updatedKnownBuckets changes).map fun b => offsets.dataPageIndex b.toNat).Sublist
        (queued.map Prod.fst) := by
  induction changes generalizing st with
  | nil =>
    cases h
    exact ⟨[], (List.append_nil _).symm, List.Sublist.slnil⟩
  | cons c changes ih =>
    obtain ⟨pageId, d⟩ := c
    rw [prepareLoop] at h
    rcases hstep : prepareStep hashRaw fuel offsets st (pageId, d) with _ | ⟨_ | st₁⟩ <;>
      rw [hstep] at h
    · cases h
    · cases h
    obtain ⟨queued, hq, hsub⟩ := ih h
    rcases prepareStep_eq_ok hashRaw fuel offsets hstep with
      ⟨hc, _, _, _, hst⟩ | ⟨hc, _, _, bucket, _, ⟨hknown, _, hst⟩ | ⟨hknown, _, _, _, _, _, hst⟩⟩
    · -- a cleared page queues nothing
      subst hst
      refine ⟨queued, hq, ?_⟩
      simpa [updatedKnownBuckets, hc] using hsub
    · -- a page in its known bucket queues the data page of that bucket
      subst hst
      refine ⟨_ :: queued, hq.trans (List.append_assoc _ _ _), ?_⟩
      simp only [updatedKnownBuckets, List.filter_cons, hc, Bool.not_false, if_true,
        List.filterMap_cons, hknown, List.map_cons]
      exact hsub.cons_cons _
    · -- a page given a fresh bucket queues the data page of that bucket
      subst hst
      refine ⟨_ :: queued, hq.trans (List.append_assoc _ _ _), ?_⟩
      simp only [updatedKnownBuckets, List.filter_cons, hc, Bool.not_false, if_true,
        List.filterMap_cons, hknown, List.map_cons]
      exact hsub.cons _

/-- `prepare_sync` panics where two updated pages name one known bucket: the data page of the
bucket would be queued twice. -/
theorem nodup_updatedKnownBuckets {syncSeqn : UInt32} {metaMap : MetaMap}
    {changes : List (PageId × DirtyPage)} {st : PrepareSync}
    (h : prepareSync hashRaw fuel offsets syncSeqn metaMap changes = some (.ok st)) :
    (updatedKnownBuckets changes).Nodup := by
  obtain ⟨stL, hloop, -, -, hsort⟩ := prepareSync_eq_ok hashRaw fuel offsets h
  obtain ⟨queued, hq, hsub⟩ := prepareLoop_htPages hashRaw fuel offsets hloop
  have hnd := (sortDedupPages_eq_some hsort).2
  rw [List.map_append, hq, List.nil_append] at hnd
  exact (hsub.nodup (List.nodup_append.mp hnd).1).of_map _

end PrepareSync

end Nomt.Bitbox

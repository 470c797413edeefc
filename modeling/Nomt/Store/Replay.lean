import Nomt.Store.Recover

/-!
# Replaying the WAL reproduces the direct write

`prepare_sync` changes the meta map in memory, queues the data pages of the updated pages and the
changed meta pages, and records every change in the WAL blob; `post_meta` writes the queued pages.
After a crash between the two, `recover` replays the WAL over the HT file as it was before.

The replay reproduces the direct write when the batch agrees with the store as the rest of the
database keeps it (`Stored`): a page whose bucket is known is stored there, under a full meta entry
of its hash, and a cleared page shares its bucket with no other page of the batch; and every
updated page ends with its identifier (`Labelled`). `prepare_sync` panics where two updated pages
name one bucket, so a batch it accepts names each of its known buckets once (`Stored.placed`).

Both paths are run side by side over the batch. `Prepared` is what the loop of `prepare_sync`
keeps: the rest of the batch is still `Placed`, and the buckets updated so far are full, distinct
and named by no page still to come. `Replays` relates the direct state to the recovery of the
entries written so far: the same meta map and noted meta pages, and each updated page agreeing with
the page queued for it on the node slots of its diff, the elided-children word and the label
(`Agrees`). `replays_step` keeps both over one change and `replays_prepareLoop` over the loop.
-/

namespace Nomt.Bitbox

open Wal Undo

section Replay

variable (hashRaw : List UInt8 → UInt64)

/-- A batch as the rest of the store hands it to `prepare_sync`. A page's bucket is known only from
a lookup that found the page there (`merkle/seek.rs`), so it holds a full meta entry of the page's
hash; and a cleared page shares its bucket with no other page of the batch. That no two updated
pages name one bucket is not assumed: `prepare_sync` checks it (`nodup_updatedKnownBuckets`). -/
structure Stored (m : MetaMap) (changes : List (PageId × DirtyPage)) : Prop where
  full : ∀ c ∈ changes, ∀ bucket, c.2.bucket.knownBucket = some bucket →
    m.bitvec[bucket.toNat]! = fullEntry (hashPageId hashRaw c.1)
  cleared_nodup : (clearedBuckets changes).Nodup
  cleared_apart : ∀ bucket ∈ clearedBuckets changes, bucket ∉ updatedKnownBuckets changes

/-- A batch whose pages are stored where their known buckets say, no two in one bucket: the form
of `Stored` the loop of `prepare_sync` keeps. -/
structure Placed (m : MetaMap) (changes : List (PageId × DirtyPage)) : Prop where
  full : ∀ c ∈ changes, ∀ bucket, c.2.bucket.knownBucket = some bucket →
    m.bitvec[bucket.toNat]! = fullEntry (hashPageId hashRaw c.1)
  nodup : (changes.filterMap fun c => c.2.bucket.knownBucket).Nodup

/-- Every page of the batch that is not cleared ends with its identifier. -/
def Labelled (changes : List (PageId × DirtyPage)) : Prop :=
  ∀ c ∈ changes, c.2.diff.cleared = false → c.2.page.slice (PAGE_SIZE - 32) 32 = c.1.encode

/-- The buckets of the updates among `entries`. -/
def updateBuckets (entries : List WalEntry) : List Nat :=
  entries.filterMap fun
    | .update _ _ _ _ bucket => some bucket.toNat
    | .clear _ => none

/-- What the loop of `prepare_sync` keeps: the rest of the batch is `Placed`, a bucket index fits
in a `u64`, and the buckets updated so far are full, distinct, and named by no page still to come. -/
structure Prepared (m : MetaMap) (changes : List (PageId × DirtyPage)) (used : List Nat) :
    Prop where
  placed : Placed hashRaw m changes
  len_le : m.len ≤ 2 ^ 64
  used_full : ∀ u ∈ used, ¬ m.free u
  used_fresh : ∀ u ∈ used, ∀ c ∈ changes, ∀ bucket, c.2.bucket.knownBucket = some bucket →
    bucket.toNat ≠ u
  used_nodup : used.Nodup

/-- Two pages agree on what an update entry writes: the node slots of its diff, the
elided-children word and the label. -/
def Agrees : WalEntry → FatPage → FatPage → Prop
  | .clear _, _, _ => True
  | .update _ pageDiff _ _ _, page, page' =>
    (∀ i ∈ pageDiff.slots, page.slice (i * 32) 32 = page'.slice (i * 32) 32) ∧
    page.slice (PAGE_SIZE - 32 - 8) 8 = page'.slice (PAGE_SIZE - 32 - 8) 8 ∧
    page.slice (PAGE_SIZE - 32) 32 = page'.slice (PAGE_SIZE - 32) 32

/-! ### The batch along the loop -/

namespace Placed

variable {hashRaw} {m m' : MetaMap} {c : PageId × DirtyPage} {cs : List (PageId × DirtyPage)}
  {bucket : UInt64}

theorem tail (hS : Placed hashRaw m (c :: cs)) : Placed hashRaw m cs where
  full c' hc' := hS.full c' (List.mem_cons_of_mem _ hc')
  nodup := hS.nodup.sublist ((List.sublist_cons_self c cs).filterMap _)

/-- The bucket a page names is named by no later page. -/
theorem ne_of_known (hS : Placed hashRaw m (c :: cs)) (hknown : c.2.bucket.knownBucket = some bucket)
    {c' : PageId × DirtyPage} (hc' : c' ∈ cs) {bucket' : UInt64}
    (hknown' : c'.2.bucket.knownBucket = some bucket') : bucket'.toNat ≠ bucket.toNat := by
  have hnd := hS.nodup
  simp only [List.filterMap_cons, hknown, List.nodup_cons] at hnd
  intro heq
  exact hnd.1 (List.mem_filterMap.mpr ⟨c', hc', hknown'.trans (congrArg some (UInt64.toNat_inj.mp heq))⟩)

/-- A bucket a page names is full, so it lies inside the meta map and is not free. -/
theorem not_free (hS : Placed hashRaw m cs) (hc : c ∈ cs) (hknown : c.2.bucket.knownBucket = some bucket) :
    ¬ m.free bucket.toNat :=
  MetaMap.not_free_of_eq_fullEntry (hS.full c hc bucket hknown)

/-- Changing bytes no page names keeps the batch stored. -/
theorem congr (hS : Placed hashRaw m cs)
    (h : ∀ c ∈ cs, ∀ bucket, c.2.bucket.knownBucket = some bucket →
      m'.bitvec[bucket.toNat]! = m.bitvec[bucket.toNat]!) : Placed hashRaw m' cs where
  full c hc bucket hknown := (h c hc bucket hknown).trans (hS.full c hc bucket hknown)
  nodup := hS.nodup

end Placed

variable {hashRaw} in
/-- With the check of `prepare_sync` on the updated pages, a stored batch names each of its known
buckets once. -/
theorem Stored.placed {m : MetaMap} {changes : List (PageId × DirtyPage)}
    (hS : Stored hashRaw m changes) (hupdated : (updatedKnownBuckets changes).Nodup) :
    Placed hashRaw m changes where
  full := hS.full
  nodup := by
    -- the known buckets are those of the cleared pages and of the others, reordered
    have hperm : (clearedBuckets changes ++ updatedKnownBuckets changes).Perm
        (changes.filterMap fun c => c.2.bucket.knownBucket) := by
      rw [clearedBuckets, updatedKnownBuckets, ← List.filterMap_append]
      exact (List.filter_append_perm _ changes).filterMap _
    refine hperm.nodup_iff.mp (List.nodup_append.mpr ⟨hS.cleared_nodup, hupdated, ?_⟩)
    intro a ha b hb hab
    exact hS.cleared_apart a ha (hab ▸ hb)

theorem nodup_append_singleton {l : List Nat} {a : Nat} (hl : l.Nodup) (ha : a ∉ l) : (l ++ [a]).Nodup :=
  List.nodup_append.mpr ⟨hl, List.nodup_singleton a, fun x hx y hy hxy => by
    rw [List.mem_singleton.mp hy] at hxy
    exact ha (hxy ▸ hx)⟩

namespace Prepared

variable {hashRaw} {m : MetaMap} {c : PageId × DirtyPage} {cs : List (PageId × DirtyPage)}
  {used : List Nat} {bucket : UInt64}

theorem not_mem (hP : Prepared hashRaw m (c :: cs) used) (hknown : c.2.bucket.knownBucket = some bucket) :
    bucket.toNat ∉ used := fun hu =>
  hP.used_fresh _ hu c List.mem_cons_self bucket hknown rfl

/-- A cleared page's bucket becomes a tombstone. -/
theorem clear (hP : Prepared hashRaw m (c :: cs) used) (hknown : c.2.bucket.knownBucket = some bucket) :
    Prepared hashRaw (m.setTombstone bucket.toNat) cs used where
  placed := hP.placed.tail.congr fun _ hc' _ hknown' =>
    MetaMap.getElem!_set_of_ne (hP.placed.ne_of_known hknown hc' hknown').symm
  len_le := hP.len_le
  used_full u hu := by
    have hne : bucket.toNat ≠ u := hP.used_fresh u hu c List.mem_cons_self bucket hknown
    rw [MetaMap.free_congr (MetaMap.getElem!_set_of_ne hne)]
    exact hP.used_full u hu
  used_fresh u hu c' hc' := hP.used_fresh u hu c' (List.mem_cons_of_mem _ hc')
  used_nodup := hP.used_nodup

/-- An updated page keeps its known bucket, which is full. -/
theorem known (hP : Prepared hashRaw m (c :: cs) used) (hknown : c.2.bucket.knownBucket = some bucket) :
    Prepared hashRaw m cs (used ++ [bucket.toNat]) where
  placed := hP.placed.tail
  len_le := hP.len_le
  used_full u hu := by
    rcases List.mem_append.mp hu with hu | hu
    · exact hP.used_full u hu
    · rw [List.mem_singleton.mp hu]
      exact hP.placed.not_free List.mem_cons_self hknown
  used_fresh u hu c' hc' bucket' hknown' := by
    rcases List.mem_append.mp hu with hu | hu
    · exact hP.used_fresh u hu c' (List.mem_cons_of_mem _ hc') bucket' hknown'
    · rw [List.mem_singleton.mp hu]
      exact hP.placed.ne_of_known hknown hc' hknown'
  used_nodup := nodup_append_singleton hP.used_nodup (hP.not_mem hknown)

/-- A page given a free bucket sets it full; the pages still to come name full buckets, so not
this one. -/
theorem alloc (hP : Prepared hashRaw m (c :: cs) used) {b : Nat} (hfree : m.free b)
    (hlt : b < m.bitvec.length) (hash : UInt64) :
    Prepared hashRaw (m.setFull b hash) cs (used ++ [b]) where
  placed := hP.placed.tail.congr fun c' hc' bucket' hknown' =>
    MetaMap.getElem!_set_of_ne fun heq =>
      hP.placed.tail.not_free hc' hknown' (heq ▸ hfree)
  len_le := hP.len_le
  used_full u hu := by
    rcases List.mem_append.mp hu with hu | hu
    · have hne : b ≠ u := fun heq => hP.used_full u hu (heq ▸ hfree)
      rw [MetaMap.free_congr (MetaMap.getElem!_set_of_ne hne)]
      exact hP.used_full u hu
    · rw [List.mem_singleton.mp hu]
      exact MetaMap.not_free_of_eq_fullEntry (MetaMap.getElem!_setFull_self hlt)
  used_fresh u hu c' hc' bucket' hknown' := by
    rcases List.mem_append.mp hu with hu | hu
    · exact hP.used_fresh u hu c' (List.mem_cons_of_mem _ hc') bucket' hknown'
    · rw [List.mem_singleton.mp hu]
      exact fun heq => hP.placed.tail.not_free hc' hknown' (heq ▸ hfree)
  used_nodup := nodup_append_singleton hP.used_nodup fun hb => hP.used_full b hb hfree

end Prepared

/-! ### What an entry writes -/

theorem updateBuckets_append (es es' : List WalEntry) :
    updateBuckets (es ++ es') = updateBuckets es ++ updateBuckets es' :=
  List.filterMap_append

theorem updateBuckets_clear (bucket : UInt64) : updateBuckets [.clear bucket] = [] := rfl

theorem updateBuckets_update (pageId : List UInt8) (pageDiff : PageDiff)
    (changedNodes : List (List UInt8)) (elidedChildren : ElidedChildren) (bucket : UInt64) :
    updateBuckets [.update pageId pageDiff changedNodes elidedChildren bucket] = [bucket.toNat] :=
  rfl

theorem mem_updateBuckets {es : List WalEntry} {pageId : List UInt8} {pageDiff : PageDiff}
    {changedNodes : List (List UInt8)} {elidedChildren : ElidedChildren} {bucket : UInt64}
    (h : .update pageId pageDiff changedNodes elidedChildren bucket ∈ es) :
    bucket.toNat ∈ updateBuckets es :=
  List.mem_filterMap.mpr ⟨_, h, rfl⟩

/-- The entry `prepare_sync` writes for an updated page. -/
def updateEntry (pageId : PageId) (d : DirtyPage) (bucket : UInt64) : WalEntry :=
  .update pageId.encode d.diff (d.diff.slots.map fun i => d.page.slice (i * 32) 32)
    (readElidedChildren d.page) bucket

theorem wellFormed_updateEntry {d : DirtyPage} (hc : d.diff.cleared = false) (pageId : PageId)
    (bucket : UInt64) : (updateEntry pageId d bucket).WellFormed := by
  refine ⟨PageId.length_encode pageId, hc, by rw [List.length_map, PageDiff.length_slots], ?_⟩
  intro node hnode
  obtain ⟨i, -, rfl⟩ := List.mem_map.mp hnode
  exact FatPage.length_slice

/-- The page the update of a labelled page writes over any page agrees with the page: its node
slots come from the page, and so do the elided-children word and the label. -/
theorem agrees_patchPage {pageId : PageId} {d : DirtyPage} (hc : d.diff.cleared = false)
    (hlabel : d.page.slice (PAGE_SIZE - 32) 32 = pageId.encode) (bucket : UInt64) (old : FatPage) :
    Agrees (updateEntry pageId d bucket)
      (patchPage pageId.encode d.diff (d.diff.slots.map fun i => d.page.slice (i * 32) 32)
        (readElidedChildren d.page) old) d.page := by
  have hfold : ∀ j (hj : j < PAGE_SIZE),
      ((d.diff.slots.zip (d.diff.slots.map fun i => d.page.slice (i * 32) 32)).foldl
        (fun page node => FatPage.copyFromSlice page (node.1 * 32) node.2) old)[j] =
      if ∃ i ∈ d.diff.slots, i * 32 ≤ j ∧ j < i * 32 + 32 then d.page[j] else old[j] :=
    fun j hj => PageDiff.getElem_foldl_copy d.page (fun i hi => PageDiff.lt_of_mem_slots hc hi) old hj
  refine ⟨fun i hi => ?_, ?_, ?_⟩
  · -- a node slot lies below the elided-children word and the label
    have hi' := PageDiff.lt_of_mem_slots hc hi
    rw [NODES_PER_PAGE_eq] at hi'
    have hin : i * 32 + 32 ≤ PAGE_SIZE := by simp only [PAGE_SIZE]; omega
    rw [patchPage, FatPage.slice_copyFromSlice_of_disjoint hin
        (.inl (by simp only [PAGE_SIZE]; omega)),
      FatPage.slice_copyFromSlice_of_disjoint hin (.inl (by simp only [PAGE_SIZE]; omega))]
    refine FatPage.slice_congr hin fun j hj₁ hj₂ hj => ?_
    rw [hfold j hj, if_pos ⟨i, hi, hj₁, hj₂⟩]
  · -- the elided-children word is copied last, as read from the page
    rw [patchPage, FatPage.slice_copyFromSlice_of_length (ElidedChildren.length_toBytes _)
      (by simp only [PAGE_SIZE]; omega), readElidedChildren,
      ElidedChildren.toBytes_fromBytes FatPage.length_slice]
  · -- the label: the word copied after it lies before it
    rw [patchPage, FatPage.slice_copyFromSlice_of_disjoint (by simp only [PAGE_SIZE]; omega)
        (.inr (by simp only [ElidedChildren.length_toBytes, PAGE_SIZE]; omega)),
      FatPage.slice_copyFromSlice_of_length (PageId.length_encode pageId)
        (by simp only [PAGE_SIZE]; omega), hlabel]

variable (offsets : HTOffsets)

/-- The recovery of the entries written so far next to the direct path: the same meta map and
noted meta pages, each updated page agreeing with the page queued for it, the pages before the data
pages untouched by the recovery, and every queued page a data page. -/
structure Replays (htFd : HtFile) (st : PrepareSync) (rs : RecoverState) (done : List WalEntry) :
    Prop where
  metaMap : rs.metaMap = st.metaMap
  changedMetaPages : rs.changedMetaPageIxs = st.changedMetaPages
  agrees : ∀ e ∈ done, Agrees e (rs.htFd (offsets.dataPageIndex e.bucket.toNat))
    (writeHt htFd st.htPages (offsets.dataPageIndex e.bucket.toNat))
  untouched : ∀ pn < offsets.dataPageOffset, rs.htFd pn = htFd pn
  htPages_data : ∀ x ∈ st.htPages, offsets.dataPageOffset ≤ x.1

theorem writeHt_append_singleton (htFd : HtFile) (htPages : List (Nat × FatPage)) (pn : Nat)
    (page : FatPage) :
    writeHt htFd (htPages ++ [(pn, page)]) = Function.update (writeHt htFd htPages) pn page := by
  rw [writeHt, write_append, write_cons, write_nil]
  rfl

/-- An entry that is not an update writes no page; an update names its bucket. -/
theorem agrees_or_mem_updateBuckets {e : WalEntry} {done : List WalEntry} (he : e ∈ done) :
    (∀ page page', Agrees e page page') ∨ e.bucket.toNat ∈ updateBuckets done := by
  cases e with
  | clear bucket => exact .inl fun _ _ => trivial
  | update pageId pageDiff changedNodes elidedChildren bucket => exact .inr (mem_updateBuckets he)

namespace Replays

variable {hashRaw offsets} {htFd : HtFile} {st st' : PrepareSync} {rs : RecoverState}
  {done : List WalEntry}

/-- A clear makes its bucket a tombstone on both paths and writes no page. -/
theorem clear (hR : Replays offsets htFd st rs done) (pageId : PageId) (bucket : UInt64) :
    Replays offsets htFd { st with
        occupiedBucketsDelta := st.occupiedBucketsDelta - 1
        metaMap := st.metaMap.setTombstone bucket.toNat
        changedMetaPages := st.changedMetaPages.insert (MetaMap.pageIndex bucket.toNat)
        cacheUpdates := st.cacheUpdates ++ [(pageId, none)]
        walBlobBuilder := st.walBlobBuilder.writeClear bucket }
      (rs.apply hashRaw offsets (.clear bucket)) (done ++ [.clear bucket]) where
  metaMap := by rw [← hR.metaMap]; rfl
  changedMetaPages := by rw [← hR.changedMetaPages]; rfl
  agrees e he := by
    rcases List.mem_append.mp he with he | he
    · exact hR.agrees e he
    · rw [List.mem_singleton.mp he]
      trivial
  untouched := hR.untouched
  htPages_data := hR.htPages_data

/-- An update patches its bucket's page on the recovery path and queues the page on the direct
path; every earlier update names another bucket, so its pages stay as they were. -/
theorem update {pageId : List UInt8} {pageDiff : PageDiff} {changedNodes : List (List UInt8)}
    {elidedChildren : ElidedChildren} {bucket : UInt64} {page : FatPage}
    (hR : Replays offsets htFd st rs done) (hfresh : bucket.toNat ∉ updateBuckets done)
    (hmeta : (rs.apply hashRaw offsets
      (.update pageId pageDiff changedNodes elidedChildren bucket)).metaMap = st'.metaMap)
    (hixs : (rs.apply hashRaw offsets
      (.update pageId pageDiff changedNodes elidedChildren bucket)).changedMetaPageIxs =
        st'.changedMetaPages)
    (hpages : st'.htPages = st.htPages ++ [(offsets.dataPageIndex bucket.toNat, page)])
    (hagree : Agrees (.update pageId pageDiff changedNodes elidedChildren bucket)
      (patchPage pageId pageDiff changedNodes elidedChildren
        (rs.htFd (offsets.dataPageIndex bucket.toNat))) page) :
    Replays offsets htFd st' (rs.apply hashRaw offsets
        (.update pageId pageDiff changedNodes elidedChildren bucket))
      (done ++ [.update pageId pageDiff changedNodes elidedChildren bucket]) where
  metaMap := hmeta
  changedMetaPages := hixs
  agrees e he := by
    rw [hpages, writeHt_append_singleton, RecoverState.htFd_apply_update]
    rcases List.mem_append.mp he with he | he
    · rcases agrees_or_mem_updateBuckets he with hall | hmem
      · exact hall _ _
      · have hne : offsets.dataPageIndex e.bucket.toNat ≠ offsets.dataPageIndex bucket.toNat :=
          fun h => hfresh (Nat.add_left_cancel h ▸ hmem)
        rw [Function.update_of_ne hne, Function.update_of_ne hne]
        exact hR.agrees e he
    · rw [List.mem_singleton.mp he, WalEntry.bucket_update, Function.update_self,
        Function.update_self]
      exact hagree
  untouched pn hpn := by
    rw [RecoverState.htFd_apply_update,
      Function.update_of_ne (by simp only [HTOffsets.dataPageIndex]; omega)]
    exact hR.untouched pn hpn
  htPages_data x hx := by
    rw [hpages] at hx
    rcases List.mem_append.mp hx with hx | hx
    · exact hR.htPages_data x hx
    · rw [List.mem_singleton.mp hx]
      exact Nat.le_add_right _ _

end Replays

/-! ### Both paths along the loop -/

variable (fuel : Nat)

theorem toNat_ofNat_of_lt_len {m : MetaMap} {b : Nat} (hlt : b < m.len) (hlen : m.len ≤ 2 ^ 64) :
    (UInt64.ofNat b).toNat = b := by
  rw [UInt64.toNat_ofNat', Nat.mod_eq_of_lt (Nat.lt_of_lt_of_le hlt hlen)]

/-- One change on both paths: the step of `prepare_sync` records an entry that passes the checks
of `recover`, and replaying it keeps `Replays`; the rest of the batch stays `Prepared`. -/
theorem replays_step {htFd : HtFile} {st st' : PrepareSync} {rs : RecoverState}
    {done : List WalEntry} {c : PageId × DirtyPage} {cs : List (PageId × DirtyPage)}
    (hP : Prepared hashRaw st.metaMap (c :: cs) (updateBuckets done))
    (hR : Replays offsets htFd st rs done)
    (hlabel : c.2.diff.cleared = false → c.2.page.slice (PAGE_SIZE - 32) 32 = c.1.encode)
    (h : prepareStep hashRaw fuel offsets st c = some (.ok st')) :
    ∃ e, e.WellFormed ∧ e.Applies rs.metaMap.bitvec.length ∧
      st'.walBlobBuilder = st.walBlobBuilder.writeEntry e ∧
      Prepared hashRaw st'.metaMap cs (updateBuckets (done ++ [e])) ∧
      Replays offsets htFd st' (rs.apply hashRaw offsets e) (done ++ [e]) := by
  obtain ⟨pageId, d⟩ := c
  rw [hR.metaMap]
  rcases prepareStep_eq_ok hashRaw fuel offsets h with
    ⟨hc, bucket, hknown, hlt, rfl⟩ |
    ⟨hc, changed, hpack, bucket, metaMap, ⟨hknown, rfl, rfl⟩ | ⟨hknown, b, hfree, hlt, rfl, rfl, rfl⟩⟩
  · -- a cleared page: its bucket becomes a tombstone
    refine ⟨.clear bucket, trivial, hlt, rfl, ?_, hR.clear pageId bucket⟩
    rw [updateBuckets_append, updateBuckets_clear, List.append_nil]
    exact hP.clear hknown
  all_goals
    -- an updated page: the entry holds the page's changed nodes
    obtain rfl : d.diff.slots.map (fun i => d.page.slice (i * 32) 32) = changed :=
      Option.some.inj ((PageDiff.packChangedNodes_eq hc d.page).symm.trans hpack)
    have hcount : d.diff.count = (d.diff.slots.map fun i => d.page.slice (i * 32) 32).length := by
      rw [List.length_map, PageDiff.length_slots]
    have hagree := agrees_patchPage hc (hlabel hc)
  · -- the page keeps its known bucket, whose byte already matches its hash
    have hfull := hP.placed.full _ List.mem_cons_self bucket hknown
    have hlt : bucket.toNat < st.metaMap.bitvec.length :=
      MetaMap.lt_of_not_free (hP.placed.not_free List.mem_cons_self hknown)
    have happ : (updateEntry pageId d bucket).Applies st.metaMap.bitvec.length := ⟨hlt, hcount, hc⟩
    have hcm : (updateEntry pageId d bucket).changesMeta hashRaw st.metaMap = false :=
      MetaMap.hintNotMatch_eq_false hfull
    refine ⟨updateEntry pageId d bucket, wellFormed_updateEntry hc pageId bucket, happ, rfl, ?_, ?_⟩
    · rw [updateBuckets_append, updateEntry, updateBuckets_update]
      exact hP.known hknown
    · refine hR.update (hP.not_mem hknown) ?_ ?_ rfl (hagree bucket _)
      · rw [RecoverState.metaMap_apply, hR.metaMap]
        exact applyMeta_of_changesMeta_eq_false happ hcm
      · rw [updateEntry] at hcm
        rw [RecoverState.changedMetaPageIxs_apply, hR.metaMap, hcm, if_neg Bool.false_ne_true]
        exact hR.changedMetaPages
  · -- the page takes a free bucket, which both paths set full with its hash
    have hb := toNat_ofNat_of_lt_len hlt hP.len_le
    have hlt' : b < st.metaMap.bitvec.length := Nat.lt_of_lt_of_le hlt st.metaMap.buckets_le
    have happ : (updateEntry pageId d (UInt64.ofNat b)).Applies st.metaMap.bitvec.length :=
      ⟨by rw [hb]; exact hlt', hcount, hc⟩
    have hcm : (updateEntry pageId d (UInt64.ofNat b)).changesMeta hashRaw st.metaMap = true := by
      show st.metaMap.hintNotMatch (UInt64.ofNat b).toNat _ = true
      rw [hb]
      exact MetaMap.hintNotMatch_of_free hfree
    refine ⟨updateEntry pageId d (UInt64.ofNat b), wellFormed_updateEntry hc pageId _, happ, rfl,
      ?_, ?_⟩
    · rw [updateBuckets_append, updateEntry, updateBuckets_update, hb]
      show Prepared hashRaw ((st.metaMap.setFull b _).setFull b _) cs _
      rw [MetaMap.setFull_setFull]
      exact hP.alloc hfree hlt' _
    · refine hR.update (fun hu => hP.used_full b (hb ▸ hu) hfree) ?_ ?_ rfl (hagree _ _)
      · rw [RecoverState.metaMap_apply, hR.metaMap]
        show st.metaMap.setFull (UInt64.ofNat b).toNat _ =
          (st.metaMap.setFull b _).setFull (UInt64.ofNat b).toNat _
        rw [hb, MetaMap.setFull_setFull]
        rfl
      · rw [updateEntry] at hcm
        rw [RecoverState.changedMetaPageIxs_apply, hR.metaMap, hcm, if_pos rfl,
          hR.changedMetaPages]
        rfl

/-- The loop of `prepare_sync` on both paths: the entries it records pass the checks of
`recover`, and replaying them keeps `Replays`. -/
theorem replays_prepareLoop {htFd : HtFile} {cs : List (PageId × DirtyPage)} :
    ∀ {st st' : PrepareSync} {rs : RecoverState} {done : List WalEntry},
      Prepared hashRaw st.metaMap cs (updateBuckets done) → Replays offsets htFd st rs done →
      Labelled cs → prepareLoop hashRaw fuel offsets st cs = some (.ok st') →
      ∃ es : List WalEntry, es.length = cs.length ∧ (∀ e ∈ es, e.WellFormed) ∧
        (∀ e ∈ es, e.Applies rs.metaMap.bitvec.length) ∧
        st'.walBlobBuilder = es.foldl WalBlobBuilder.writeEntry st.walBlobBuilder ∧
        Replays offsets htFd st' (es.foldl (RecoverState.apply hashRaw offsets) rs) (done ++ es) := by
  induction cs with
  | nil =>
    intro st st' rs done _ hR _ h
    cases h
    exact ⟨[], rfl, fun _ h => absurd h List.not_mem_nil, fun _ h => absurd h List.not_mem_nil,
      rfl, by rw [List.append_nil]; exact hR⟩
  | cons c cs ih =>
    intro st st' rs done hP hR hlabel h
    rw [prepareLoop] at h
    rcases hstep : prepareStep hashRaw fuel offsets st c with _ | ⟨_ | st₁⟩ <;> rw [hstep] at h
    · cases h
    · cases h
    obtain ⟨e, hwf, happ, hwal, hP₁, hR₁⟩ :=
      replays_step hashRaw offsets fuel hP hR (hlabel c List.mem_cons_self) hstep
    obtain ⟨es, hlen, hwfs, happs, hwals, hRs⟩ :=
      ih hP₁ hR₁ (fun c' hc' => hlabel c' (List.mem_cons_of_mem _ hc')) h
    refine ⟨e :: es, by rw [List.length_cons, List.length_cons, hlen], ?_, ?_, ?_, ?_⟩
    · exact List.forall_mem_cons.mpr ⟨hwf, hwfs⟩
    · have hlen₁ : (rs.apply hashRaw offsets e).metaMap.bitvec.length =
          rs.metaMap.bitvec.length := length_apply rs e
      refine List.forall_mem_cons.mpr ⟨happ, fun e' he' => ?_⟩
      rw [← hlen₁]
      exact happs e' he'
    · rw [List.foldl_cons, ← hwal]
      exact hwals
    · rw [List.foldl_cons, ← List.singleton_append, ← List.append_assoc]
      exact hRs

/-! ### The sync -/

theorem Prepared.init {m : MetaMap} {changes : List (PageId × DirtyPage)}
    (hS : Placed hashRaw m changes) (hlen : m.len ≤ 2 ^ 64) : Prepared hashRaw m changes [] where
  placed := hS
  len_le := hlen
  used_full _ h := absurd h List.not_mem_nil
  used_fresh _ h := absurd h List.not_mem_nil
  used_nodup := List.nodup_nil

theorem Replays.init (htFd : HtFile) (m : MetaMap) (syncSeqn : UInt32) :
    Replays offsets htFd ⟨m, [], [], [], 0, WalBlobBuilder.reset syncSeqn⟩ ⟨htFd, m, []⟩ [] where
  metaMap := rfl
  changedMetaPages := rfl
  agrees _ h := absurd h List.not_mem_nil
  untouched _ _ := rfl
  htPages_data _ h := absurd h List.not_mem_nil

/-- A batch `prepare_sync` accepts on the meta map `ht_file::open` read, on both paths: its WAL
blob is built from entries that pass the checks of `recover`, and their recovery replays the loop
of `prepare_sync`, before which the changed meta pages are queued. -/
theorem replays_prepareSync {numPages syncSeqn : UInt32} {htFd : HtFile}
    {changes : List (PageId × DirtyPage)} {st : PrepareSync}
    (hsync : prepareSync hashRaw fuel (htFileOpen numPages htFd).1 syncSeqn
      (htFileOpen numPages htFd).2 changes = some (.ok st))
    (hstored : Stored hashRaw (htFileOpen numPages htFd).2 changes) (hlabel : Labelled changes) :
    ∃ (es : List WalEntry) (stL : PrepareSync), es.length = changes.length ∧
      (∀ e ∈ es, e.WellFormed) ∧ (∀ e ∈ es, e.Applies (htFileOpen numPages htFd).2.bitvec.length) ∧
      st.walBlobBuilder = WalBlobBuilder.build syncSeqn es ∧ st.metaMap = stL.metaMap ∧
      writeHt htFd st.htPages = writeHt htFd (stL.htPages ++ stL.changedMetaPages.map
        (fun ix => (HTOffsets.metaBytesIndex ix, metaPage stL.metaMap ix))) ∧
      Replays (htFileOpen numPages htFd).1 htFd stL
        (es.foldl (RecoverState.apply hashRaw (htFileOpen numPages htFd).1)
          ⟨htFd, (htFileOpen numPages htFd).2, []⟩) es := by
  obtain ⟨stL, hloop, hmeta, hwalF, hsort⟩ := prepareSync_eq_ok hashRaw fuel _ hsync
  -- the check of `prepare_sync` gives the distinct buckets that `Stored` leaves out
  have hplaced := hstored.placed (nodup_updatedKnownBuckets hashRaw fuel _ hsync)
  -- the meta map has `num_pages` buckets, which fit in a `u64`
  have hbuckets : (htFileOpen numPages htFd).2.len ≤ 2 ^ 64 :=
    Nat.le_of_lt (Nat.lt_of_lt_of_le numPages.toNat_lt (by decide))
  obtain ⟨es, hlen, hwf, happ, hwal, hR⟩ := replays_prepareLoop hashRaw (htFileOpen numPages htFd).1
    fuel (Prepared.init hashRaw hplaced hbuckets) (Replays.init _ htFd _ syncSeqn) hlabel hloop
  rw [List.nil_append] at hR
  -- the sorted queue writes what the loop queued
  obtain ⟨hperm, hnd⟩ := sortDedupPages_eq_some hsort
  exact ⟨es, stL, hlen, hwf, happ, by rw [hwalF, WalBlobBuilder.build, ← hwal], hmeta,
    write_perm hnd hperm, hR⟩

/-- `recover` of a blob built from well-formed entries that pass its checks reads the entries
back, applies them all, then writes the meta pages it noted. -/
theorem recover_build {offsets : HTOffsets} {htFd : HtFile} {m : MetaMap} (syncSeqn : UInt32)
    {es : List WalEntry} (hwf : ∀ e ∈ es, e.WellFormed)
    (happ : ∀ e ∈ es, e.Applies m.bitvec.length) :
    ∃ r, WalBlobReader.new (WalBlobBuilder.build syncSeqn es).asSlice = .ok r ∧
      r.syncSeqn = syncSeqn ∧ WalBlobReader.readEntries (es.length + 1) r = some (.ok es) ∧
      recover hashRaw offsets syncSeqn ⟨htFd, (WalBlobBuilder.build syncSeqn es).asSlice, m⟩ =
        (let rs := es.foldl (RecoverState.apply hashRaw offsets) ⟨htFd, m, []⟩
         (⟨writeHt rs.htFd (metaPages rs), [], rs.metaMap⟩, none)) := by
  obtain ⟨r, hr, hseqn, hes⟩ := WalBlobReader.read_build syncSeqn hwf
  -- the blob is at least as long as its entries, so the fuel of `recover` reads them all
  have hes' := WalBlobReader.readEntries_of_le hes
    (Nat.succ_le_succ (WalBlobReader.length_le_asSlice_build syncSeqn es))
  exact ⟨r, hr, hseqn, hes, recover_eq hr hseqn hes' happ⟩

theorem not_mem_keys {ws : List (Nat × FatPage)} {p : Nat → Prop} {pn : Nat}
    (h : ∀ x ∈ ws, p x.1) (hpn : ¬ p pn) : pn ∉ ws.map Prod.fst := fun hmem => by
  obtain ⟨x, hx, rfl⟩ := List.mem_map.mp hmem
  exact hpn (h x hx)

end Replay

/-! ### The two files -/

section Files

variable {offsets : HTOffsets} {htFd : HtFile} {stL : PrepareSync} {rs : RecoverState}
  {es : List WalEntry} {L : List (Nat × FatPage)}

/-- The meta pages the recovery notes lie before the data pages. -/
theorem metaPages_lt {m : MetaMap} (hlen : m.bitvec.length = offsets.dataPageOffset * PAGE_SIZE)
    (hlt : ∀ ix ∈ rs.changedMetaPageIxs, ix * PAGE_SIZE < m.bitvec.length) :
    ∀ x ∈ metaPages rs, x.1 < offsets.dataPageOffset := by
  intro x hx
  obtain ⟨ix, hix, rfl⟩ := List.mem_map.mp hx
  exact Nat.lt_of_mul_lt_mul_right (hlen ▸ hlt ix hix)

/-- Below the data pages both paths write only the meta pages `L`: the loop queues data pages,
and the recovery of its entries writes data pages only. -/
theorem writeHt_meta_eq (hR : Replays offsets htFd stL rs es) {pn : Nat}
    (hpn : pn < offsets.dataPageOffset) :
    writeHt rs.htFd L pn = write (writeHt htFd stL.htPages) L pn := by
  rw [writeHt]
  refine write_apply_congr L ?_
  rw [hR.untouched pn hpn, writeHt, write_apply_of_not_mem
    (not_mem_keys hR.htPages_data (Nat.not_le.mpr hpn))]

/-- On the data page of an entry no meta page is written, so the two paths still agree there. -/
theorem agrees_writeHt_meta (hR : Replays offsets htFd stL rs es)
    (hkeys : ∀ x ∈ L, x.1 < offsets.dataPageOffset) {e : WalEntry} (he : e ∈ es) :
    Agrees e (writeHt rs.htFd L (offsets.dataPageIndex e.bucket.toNat))
      (write (writeHt htFd stL.htPages) L (offsets.dataPageIndex e.bucket.toNat)) := by
  have hdata : ¬ offsets.dataPageIndex e.bucket.toNat < offsets.dataPageOffset := by
    simp only [HTOffsets.dataPageIndex]
    omega
  have hnot : offsets.dataPageIndex e.bucket.toNat ∉ L.map Prod.fst :=
    not_mem_keys (p := fun pn => pn < offsets.dataPageOffset) hkeys hdata
  rw [writeHt, write_apply_of_not_mem hnot, write_apply_of_not_mem hnot]
  exact hR.agrees e he

end Files

/-- For a batch accepted by `prepare_sync` whose pages are stored where their known buckets say
and end with their identifiers: the WAL blob is read back as the entries it was built from, in
order; `recover` from it on the HT file before the sync gives the meta map of `prepare_sync`, in
memory and in the meta pages, which are those `post_meta` writes; each updated data page agrees
with the page `post_meta` writes on the node slots of its diff, the elided-children word and the
label; recovering again from the same WAL changes nothing; and a `recover` that expects another
sync leaves the HT file as it was. -/
theorem recover_replays_prepareSync (hashRaw : List UInt8 → UInt64) (fuel : Nat)
    (numPages syncSeqn : UInt32) (htFd : HtFile) (changes : List (PageId × DirtyPage))
    (st : PrepareSync)
    (hsync : prepareSync hashRaw fuel (htFileOpen numPages htFd).1 syncSeqn
      (htFileOpen numPages htFd).2 changes = some (.ok st))
    (hstored : Stored hashRaw (htFileOpen numPages htFd).2 changes) (hlabel : Labelled changes) :
    ∃ entries : List WalEntry, entries.length = changes.length ∧
      st.walBlobBuilder = WalBlobBuilder.build syncSeqn entries ∧
      (∃ r, WalBlobReader.new st.walBlobBuilder.asSlice = .ok r ∧ r.syncSeqn = syncSeqn ∧
        WalBlobReader.readEntries (entries.length + 1) r = some (.ok entries)) ∧
      ∃ recovered : HtFile,
        recover hashRaw (htFileOpen numPages htFd).1 syncSeqn
            ⟨htFd, st.walBlobBuilder.asSlice, (htFileOpen numPages htFd).2⟩ =
          (⟨recovered, [], st.metaMap⟩, none) ∧
        (∀ pn < numMetaBytePages numPages, recovered pn = writeHt htFd st.htPages pn) ∧
        (htFileOpen numPages recovered).2 = st.metaMap ∧
        (htFileOpen numPages (writeHt htFd st.htPages)).2 = st.metaMap ∧
        (∀ e ∈ entries, Agrees e
          (recovered ((htFileOpen numPages htFd).1.dataPageIndex e.bucket.toNat))
          (writeHt htFd st.htPages ((htFileOpen numPages htFd).1.dataPageIndex e.bucket.toNat))) ∧
        recover hashRaw (htFileOpen numPages htFd).1 syncSeqn
            ⟨recovered, st.walBlobBuilder.asSlice, (htFileOpen numPages recovered).2⟩ =
          (⟨recovered, [], st.metaMap⟩, none) ∧
        ∀ syncSeqn' : UInt32, syncSeqn' ≠ syncSeqn →
          recover hashRaw (htFileOpen numPages htFd).1 syncSeqn'
              ⟨htFd, st.walBlobBuilder.asSlice, (htFileOpen numPages htFd).2⟩ =
            (⟨htFd, [], (htFileOpen numPages htFd).2⟩, none) := by
  set offsets := (htFileOpen numPages htFd).1 with hoffsets
  set m := (htFileOpen numPages htFd).2 with hm
  -- the meta map fills the meta pages, which come before the data pages
  have hlen : m.bitvec.length = offsets.dataPageOffset * PAGE_SIZE := length_readMeta htFd _
  have hcoh : Coherent htFd m := coherent_htFileOpen numPages htFd
  obtain ⟨es, stL, hlenes, hwf, happ, hwal, hmeta, hpages, hR⟩ :=
    replays_prepareSync hashRaw fuel hsync hstored hlabel
  -- the blob is read back, and the recovery applies every entry, then writes the meta pages it
  -- noted: those of the loop
  obtain ⟨r, hr, hseqn, hes, hrec⟩ := @recover_build hashRaw offsets htFd m syncSeqn es hwf happ
  rw [← hwal] at hr hrec
  have hlt := lt_of_mem_foldl_apply hashRaw offsets ⟨htFd, m, []⟩ happ
    (fun _ h => absurd h List.not_mem_nil)
  have hmetaF := metaMap_foldl_apply hashRaw offsets es ⟨htFd, m, []⟩
  dsimp only at hrec hlt hmetaF
  generalize es.foldl (RecoverState.apply hashRaw offsets) ⟨htFd, m, []⟩ = rsF at hR hrec hlt hmetaF
  have hkeys := metaPages_lt hlen hlt
  have hL : metaPages rsF = stL.changedMetaPages.map
      (fun ix => (HTOffsets.metaBytesIndex ix, metaPage stL.metaMap ix)) := by
    rw [metaPages, hR.changedMetaPages, hR.metaMap]
  rw [hL] at hrec hkeys
  generalize stL.changedMetaPages.map
    (fun ix => (HTOffsets.metaBytesIndex ix, metaPage stL.metaMap ix)) = L at hL hpages hrec hkeys
  rw [hR.metaMap, ← hmeta] at hrec
  have hdirect : writeHt htFd st.htPages = write (writeHt htFd stL.htPages) L := by
    rw [hpages, writeHt, writeHt, write_append]
  have hmetaPages : ∀ pn < numMetaBytePages numPages,
      writeHt rsF.htFd L pn = writeHt htFd st.htPages pn := fun pn hpn => by
    rw [hdirect]
    exact writeHt_meta_eq hR hpn
  -- the recovered file holds the meta map of `prepare_sync` in its meta pages
  have hcoh' : Coherent (writeHt rsF.htFd L) st.metaMap :=
    coherent_recover hcoh (Nat.le_of_eq hlen) hrec
  have hlenF : st.metaMap.bitvec.length = numMetaBytePages numPages * PAGE_SIZE := by
    rw [hmeta, ← hR.metaMap, hmetaF, bitvec_foldl_applyMeta, Undo.length_foldl_set]
    exact hlen
  have hbF : st.metaMap.buckets = numPages.toNat := by
    rw [hmeta, ← hR.metaMap, hmetaF, buckets_foldl_applyMeta]
    rfl
  have hopen : (htFileOpen numPages (writeHt rsF.htFd L)).2 = st.metaMap :=
    htFileOpen_of_coherent hcoh' hlenF hbF
  refine ⟨es, hlenes, hwal, ⟨r, hr, hseqn, hes⟩, writeHt rsF.htFd L, hrec, hmetaPages, hopen,
    ?_, ?_, ?_, ?_⟩
  · -- `ht_file::open` reads only the meta pages
    rw [← hopen]
    exact htFileOpen_congr fun pn hpn => (hmetaPages pn hpn).symm
  · intro e he
    rw [hdirect]
    exact agrees_writeHt_meta hR hkeys he
  · -- recovering again
    rw [hopen]
    exact recover_recover hcoh (Nat.le_of_eq hlen) hrec
  · -- a WAL of another sync
    intro syncSeqn' hne
    exact recover_of_syncSeqn_ne hr (by rw [hseqn]; exact Ne.symm hne)

/-- A store of two buckets whose meta page marks both full for hash 0. -/
def twoBucketFile : HtFile := fun _ => Vector.replicate PAGE_SIZE (fullEntry 0)

/-- A batch over it: the first child of the root page, as `child_page_id` builds it, cleared from
bucket 0; and the root page, its first node changed, updated in bucket 1. -/
def clearAndUpdate : List (PageId × DirtyPage) :=
  [(((ChildPageIndex.new 0).bind fun c => (rootPageId.childPageId c).toOption).getD rootPageId,
      ⟨Vector.replicate PAGE_SIZE 0, PageDiff.default.setCleared, .known 0⟩),
    (rootPageId, ⟨FatPage.copyFromSlice (Vector.replicate PAGE_SIZE 0) 0 [7],
      (PageDiff.default.setChanged 0).getD PageDiff.default, .known 1⟩)]

/-- The batch is stored and labelled, `prepare_sync` accepts it, and the replay reproduces it. -/
theorem recover_replays_prepareSync_clear_and_update :
    Stored (fun _ => 0) (htFileOpen 2 twoBucketFile).2 clearAndUpdate ∧ Labelled clearAndUpdate ∧
    ∃ st, prepareSync (fun _ => 0) 0 (htFileOpen 2 twoBucketFile).1 1 (htFileOpen 2 twoBucketFile).2
        clearAndUpdate = some (.ok st) ∧
      ∃ entries : List WalEntry, entries.length = clearAndUpdate.length ∧
        st.walBlobBuilder = WalBlobBuilder.build 1 entries ∧
        (∃ r, WalBlobReader.new st.walBlobBuilder.asSlice = .ok r ∧ r.syncSeqn = 1 ∧
          WalBlobReader.readEntries (entries.length + 1) r = some (.ok entries)) ∧
        ∃ recovered : HtFile,
          recover (fun _ => 0) (htFileOpen 2 twoBucketFile).1 1
              ⟨twoBucketFile, st.walBlobBuilder.asSlice, (htFileOpen 2 twoBucketFile).2⟩ =
            (⟨recovered, [], st.metaMap⟩, none) ∧
          (∀ pn < numMetaBytePages 2, recovered pn = writeHt twoBucketFile st.htPages pn) ∧
          (htFileOpen 2 recovered).2 = st.metaMap ∧
          (htFileOpen 2 (writeHt twoBucketFile st.htPages)).2 = st.metaMap ∧
          (∀ e ∈ entries, Agrees e
            (recovered ((htFileOpen 2 twoBucketFile).1.dataPageIndex e.bucket.toNat))
            (writeHt twoBucketFile st.htPages
              ((htFileOpen 2 twoBucketFile).1.dataPageIndex e.bucket.toNat))) ∧
          recover (fun _ => 0) (htFileOpen 2 twoBucketFile).1 1
              ⟨recovered, st.walBlobBuilder.asSlice, (htFileOpen 2 recovered).2⟩ =
            (⟨recovered, [], st.metaMap⟩, none) ∧
          ∀ syncSeqn' : UInt32, syncSeqn' ≠ 1 →
            recover (fun _ => 0) (htFileOpen 2 twoBucketFile).1 syncSeqn'
                ⟨twoBucketFile, st.walBlobBuilder.asSlice, (htFileOpen 2 twoBucketFile).2⟩ =
              (⟨twoBucketFile, [], (htFileOpen 2 twoBucketFile).2⟩, none) := by
  -- the one meta page holds the full entry of hash 0 in every byte
  have hbytes : (htFileOpen 2 twoBucketFile).2.bitvec = List.replicate PAGE_SIZE (fullEntry 0) := by
    show readMeta twoBucketFile (numMetaBytePages 2) = _
    rw [show numMetaBytePages 2 = 1 from rfl, readMeta, List.range_one, List.flatMap_singleton]
    exact Vector.toList_replicate
  have hstored : Stored (fun _ => 0) (htFileOpen 2 twoBucketFile).2 clearAndUpdate := by
    have hcleared : clearedBuckets clearAndUpdate = [0] := by decide
    have hupdated : updatedKnownBuckets clearAndUpdate = [1] := by decide
    refine ⟨?_, hcleared ▸ List.nodup_singleton 0, ?_⟩
    · intro c hc bucket hknown
      simp only [clearAndUpdate, List.mem_cons, List.mem_nil_iff, or_false] at hc
      rw [hbytes]
      rcases hc with rfl | rfl <;> cases hknown <;> decide
    · rw [hcleared, hupdated]
      intro bucket hbucket
      rw [List.mem_singleton.mp hbucket, List.mem_singleton]
      decide
  have hlabel : Labelled clearAndUpdate := by
    intro c hc hcleared
    simp only [clearAndUpdate, List.mem_cons, List.mem_nil_iff, or_false] at hc
    rcases hc with rfl | rfl
    · exact absurd hcleared (by decide)
    · -- the root page is zero after its first byte, and the root's identifier is zero
      have hroot : rootPageId.encode = List.replicate 32 0 := by decide
      rw [hroot]
      show (FatPage.copyFromSlice (Vector.replicate PAGE_SIZE 0) 0 [7]).slice (PAGE_SIZE - 32) 32 = _
      rw [FatPage.slice_copyFromSlice_of_disjoint (by decide) (.inr (by decide))]
      refine List.ext_getElem (by rw [FatPage.length_slice, List.length_replicate]) fun k hk _ => ?_
      rw [FatPage.length_slice] at hk
      have hin : PAGE_SIZE - 32 + k < PAGE_SIZE := by simp only [PAGE_SIZE]; omega
      simp only [FatPage.slice, List.getElem_map, List.getElem_range, List.getElem_replicate]
      rw [Vector.getElem?_replicate, if_pos hin]
      rfl
  have hlt : (0 : UInt64).toNat < (htFileOpen 2 twoBucketFile).2.bitvec.length := by
    rw [hbytes, List.length_replicate]
    decide
  -- the loop clears bucket 0 and queues the root page for bucket 1
  obtain ⟨st, hsync⟩ : ∃ st, prepareSync (fun _ => 0) 0 (htFileOpen 2 twoBucketFile).1 1
      (htFileOpen 2 twoBucketFile).2 clearAndUpdate = some (.ok st) := by
    rw [prepareSync, clearAndUpdate, prepareLoop, prepareStep_cleared _ _ _ (by decide) rfl hlt]
    dsimp only
    rw [prepareLoop, prepareStep_known _ _ _ (by decide) rfl]
    dsimp only
    rw [prepareLoop]
    exact ⟨_, rfl⟩
  exact ⟨hstored, hlabel, st, hsync, recover_replays_prepareSync (fun _ => 0) 0 2 1 twoBucketFile
    clearAndUpdate st hsync hstored hlabel⟩

/-- Without `Stored` the replay can differ: a page whose known bucket is `EMPTY` is queued by
`prepare_sync` with the meta map unchanged, but `recover` finds the byte not matching and sets it
full. -/
theorem recover_ne_of_known_empty_bucket (hashRaw : List UInt8 → UInt64) (fuel : Nat)
    (syncSeqn : UInt32) :
    ∃ st, prepareSync hashRaw fuel (htFileOpen 1 fun _ => Vector.replicate PAGE_SIZE 0).1 syncSeqn
        (htFileOpen 1 fun _ => Vector.replicate PAGE_SIZE 0).2
        [(rootPageId, ⟨Vector.replicate PAGE_SIZE 0, PageDiff.default, .known 0⟩)] = some (.ok st) ∧
      (recover hashRaw (htFileOpen 1 fun _ => Vector.replicate PAGE_SIZE 0).1 syncSeqn
        ⟨fun _ => Vector.replicate PAGE_SIZE 0, st.walBlobBuilder.asSlice,
          (htFileOpen 1 fun _ => Vector.replicate PAGE_SIZE 0).2⟩).1.metaMap ≠ st.metaMap := by
  -- the one entry: an update of bucket 0, which the zero file holds `EMPTY`
  set zero : HtFile := fun _ => Vector.replicate PAGE_SIZE 0
  set d : DirtyPage := ⟨Vector.replicate PAGE_SIZE 0, PageDiff.default, .known 0⟩
  have hc : d.diff.cleared = false := by decide
  refine ⟨_, by rw [prepareSync, prepareLoop, prepareStep_known hashRaw fuel _ hc rfl]; rfl, ?_⟩
  dsimp only
  have hwf : ∀ x ∈ [updateEntry rootPageId d 0], x.WellFormed := by
    intro x hx
    rw [List.mem_singleton.mp hx]
    exact wellFormed_updateEntry hc rootPageId 0
  have hlen : (htFileOpen 1 zero).2.bitvec.length = PAGE_SIZE :=
    (length_readMeta _ _).trans (Nat.one_mul _)
  have happ : ∀ x ∈ [updateEntry rootPageId d 0], x.Applies (htFileOpen 1 zero).2.bitvec.length := by
    intro x hx
    rw [List.mem_singleton.mp hx, hlen]
    exact ⟨by decide, by decide, hc⟩
  obtain ⟨-, -, -, -, hrec⟩ :=
    @recover_build hashRaw (htFileOpen 1 zero).1 zero (htFileOpen 1 zero).2 syncSeqn _ hwf happ
  change (recover hashRaw (htFileOpen 1 zero).1 syncSeqn ⟨zero,
    (WalBlobBuilder.build syncSeqn [updateEntry rootPageId d 0]).asSlice,
    (htFileOpen 1 zero).2⟩).1.metaMap ≠ (htFileOpen 1 zero).2
  rw [hrec]
  -- the recovery sets the byte full, where `prepare_sync` left it `EMPTY`
  show (htFileOpen 1 zero).2.setFull 0 (hashRaw rootPageId.encode) ≠ (htFileOpen 1 zero).2
  intro h
  have hbyte : (htFileOpen 1 zero).2.bitvec[0]! = EMPTY := by
    have hm : (htFileOpen 1 zero).2.bitvec = (Vector.replicate PAGE_SIZE (0 : UInt8)).toList := by
      show readMeta zero (numMetaBytePages 1) = _
      rw [show numMetaBytePages 1 = 1 from rfl, readMeta, List.range_one, List.flatMap_singleton]
    rw [hm, Vector.toList_replicate, List.getElem!_eq_getElem?_getD, List.getElem?_replicate,
      if_pos (by decide)]
    rfl
  have h0 := congrArg (fun m : MetaMap => m.bitvec[0]!) h
  rw [MetaMap.getElem!_setFull_self (by rw [hlen]; decide), hbyte] at h0
  exact fullEntry_ne_empty _ h0

/-- The counterexample at the first sync of a one-page store, for the hash that sends every page
to bucket 0. -/
theorem recover_known_empty_bucket :
    ∃ st, prepareSync (fun _ => 0) 0 (htFileOpen 1 fun _ => Vector.replicate PAGE_SIZE 0).1 0
        (htFileOpen 1 fun _ => Vector.replicate PAGE_SIZE 0).2
        [(rootPageId, ⟨Vector.replicate PAGE_SIZE 0, PageDiff.default, .known 0⟩)] = some (.ok st) ∧
      (recover (fun _ => 0) (htFileOpen 1 fun _ => Vector.replicate PAGE_SIZE 0).1 0
        ⟨fun _ => Vector.replicate PAGE_SIZE 0, st.walBlobBuilder.asSlice,
          (htFileOpen 1 fun _ => Vector.replicate PAGE_SIZE 0).2⟩).1.metaMap ≠ st.metaMap :=
  recover_ne_of_known_empty_bucket _ 0 0

end Nomt.Bitbox


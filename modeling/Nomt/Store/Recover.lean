import Nomt.Store.Sync
import Mathlib.Data.Option.Basic

/-!
# Recovering the hash table from the WAL (`recover` in `nomt/src/bitbox/mod.rs`)

When the database opens with a WAL that is not empty, `recover` replays it over the hash-table
file. A WAL written for another sync is discarded. Otherwise each entry is applied in turn: a
`Clear` makes its bucket a tombstone; an `Update` sets its bucket full unless the meta byte already
matches the page's hash, and patches the bucket's data page: the changed nodes are unpacked into
the page read from the file, and the page identifier and the elided-children word are copied to
its end. The meta pages that changed are written last, and the WAL is truncated.
-/

/-! ### Overwrites

A map `F` on states read position by position through `view` is an overwrite when it sets some
positions to values fixed in advance and leaves the others as they were:
`view (F s) i = (w i).getD (view s i)` for one `w` and every state `s`. Copying a slice into a
buffer is one, and so is patching one page of a file with such a copy (`IsOverwrite.update`).
Overwrites compose (`IsOverwrite.comp`, `IsOverwrite.foldl`), and what doing one twice leaves is
what doing it once leaves (`IsOverwrite.view_idem`): this is why the patches of a WAL can be
replayed again after a crash (`recover_recover`). -/

namespace Overwrite

variable {σ ι α : Type}

/-- `F` sets the positions `w` names to the values it gives, and keeps the others. -/
def IsOverwrite (view : σ → ι → α) (F : σ → σ) : Prop :=
  ∃ w : ι → Option α, ∀ s i, view (F s) i = (w i).getD (view s i)

variable {view : σ → ι → α} {F G : σ → σ}

theorem isOverwrite_id : IsOverwrite view id := ⟨fun _ => none, fun _ _ => rfl⟩

/-- Two overwrites in a row are one: the later one's values, where it has them. -/
theorem IsOverwrite.comp (hF : IsOverwrite view F) (hG : IsOverwrite view G) :
    IsOverwrite view (G ∘ F) := by
  obtain ⟨wF, hF⟩ := hF
  obtain ⟨wG, hG⟩ := hG
  refine ⟨fun i => (wG i).or (wF i), fun s i => ?_⟩
  rw [Function.comp_apply, hG, hF]
  show _ = ((wG i).or (wF i)).getD _
  cases wG i <;> rfl

/-- A run of overwrites is an overwrite. -/
theorem IsOverwrite.foldl {β : Type} {step : β → σ → σ} {l : List β}
    (h : ∀ x ∈ l, IsOverwrite view (step x)) :
    IsOverwrite view (fun s => l.foldl (fun s x => step x s) s) := by
  induction l with
  | nil => exact isOverwrite_id
  | cons x l ih => exact (h x List.mem_cons_self).comp (ih fun y hy => h y (List.mem_cons_of_mem _ hy))

theorem IsOverwrite.view_idem (hF : IsOverwrite view F) (s : σ) : view (F (F s)) = view (F s) := by
  obtain ⟨w, hw⟩ := hF
  funext i
  rw [hw, hw]
  cases w i <;> rfl

/-- What an overwrite leaves at a position depends only on what was there. -/
theorem IsOverwrite.apply_congr (hF : IsOverwrite view F) {s s' : σ} {i : ι}
    (h : view s i = view s' i) : view (F s) i = view (F s') i := by
  obtain ⟨w, hw⟩ := hF
  rw [hw, hw, h]

/-- Overwriting one component of a family of states overwrites the family. -/
theorem IsOverwrite.update {κ : Type} [DecidableEq κ] (hF : IsOverwrite view F) (k : κ) :
    IsOverwrite (fun (f : κ → σ) (x : κ × ι) => view (f x.1) x.2)
      (fun f => Function.update f k (F (f k))) := by
  obtain ⟨w, hw⟩ := hF
  refine ⟨fun x => if x.1 = k then w x.2 else none, fun f x => ?_⟩
  by_cases hx : x.1 = k
  · simp only [hx, if_true, Function.update_self, hw]
  · simp only [hx, if_false, Function.update_of_ne hx, Option.getD_none]

end Overwrite

namespace Nomt.Bitbox

open Wal Undo

/-- The errors of `recover`. -/
inductive RecoverError
  /-- An error of `WalBlobReader`. -/
  | read (e : ReadError)
  /-- "mismatched number of changed nodes", with the diff's count and the number of nodes. -/
  | mismatchedChangedNodes (count len : Nat)
  /-- A panic: a bucket past the meta map, or a diff with the clear bit. -/
  | panicked
deriving DecidableEq, Repr

/-- What the loop of `recover` changes: the HT file, the meta map, and the meta pages to write. -/
structure RecoverState where
  htFd : HtFile
  metaMap : MetaMap
  changedMetaPageIxs : List Nat

/-- The files `recover` works on, and the meta map `ht_file::open` read from the HT file. -/
structure Store where
  htFd : HtFile
  walFd : List UInt8
  metaMap : MetaMap

section Recover

-- the seeded `hash_raw_page_id` and the file's offsets
variable (hashRaw : List UInt8 → UInt64) (htOffsets : HTOffsets)

/-- One entry of the loop of `recover`. -/
def recoverEntry (st : RecoverState) : WalEntry → Except RecoverError RecoverState
  | .clear bucket =>
    -- `set_tombstone` indexes the meta map
    if bucket.toNat < st.metaMap.bitvec.length then
      .ok { st with
        metaMap := st.metaMap.setTombstone bucket.toNat
        changedMetaPageIxs := st.changedMetaPageIxs.insert (MetaMap.pageIndex bucket.toNat) }
    else .error .panicked
  | .update pageId pageDiff changedNodes elidedChildren bucket =>
    -- so does `hint_not_match`
    if bucket.toNat < st.metaMap.bitvec.length then
      let hash := hashRaw pageId
      let metaMapChanged := st.metaMap.hintNotMatch bucket.toNat hash
      let metaMap := if metaMapChanged then st.metaMap.setFull bucket.toNat hash else st.metaMap
      let changedMetaPageIxs := if metaMapChanged then
          st.changedMetaPageIxs.insert (MetaMap.pageIndex bucket.toNat)
        else st.changedMetaPageIxs
      let pn := htOffsets.dataPageIndex bucket.toNat
      if pageDiff.count ≠ changedNodes.length then
        .error (.mismatchedChangedNodes pageDiff.count changedNodes.length)
      else
        match pageDiff.unpackChangedNodes changedNodes (st.htFd pn) with
        | none => .error .panicked
        | some page =>
          let page := FatPage.copyFromSlice page (PAGE_SIZE - 32) pageId
          let page := FatPage.copyFromSlice page (PAGE_SIZE - 32 - 8) elidedChildren.toBytes
          .ok { htFd := Function.update st.htFd pn page, metaMap, changedMetaPageIxs }
    else .error .panicked

/-- The `while let Some(entry) = wal_reader.read_entry()?` loop of `recover`, on at most `fuel`
entries: the state it reaches, and the error that stopped it. An entry that fails has written
nothing to the file. -/
def recoverLoop : Nat → WalBlobReader → RecoverState → RecoverState × Option RecoverError
  | 0, _, st => (st, some (.read .unexpectedEnd))
  | fuel + 1, r, st =>
    match r.readEntry with
    | .error e => (st, some (.read e))
    | .ok (none, _) => (st, none)
    | .ok (some entry, r) =>
      match recoverEntry hashRaw htOffsets st entry with
      | .error e => (st, some e)
      | .ok st => recoverLoop fuel r st

/-- `recover`, with a call of `read_entry` for each byte of the WAL. On an error the file keeps
what was written before it (`DB::open` then fails and drops the meta map). -/
def recover (syncSeqn : UInt32) (s : Store) : Store × Option RecoverError :=
  match WalBlobReader.new s.walFd with
  | .error e => (s, some (.read e))
  | .ok walReader =>
    if walReader.syncSeqn ≠ syncSeqn then
      -- the WAL of a sync that never concluded, or that concluded in full
      ({ s with walFd := [] }, none)
    else
      match recoverLoop hashRaw htOffsets (s.walFd.length + 1) walReader ⟨s.htFd, s.metaMap, []⟩ with
      | (st, some e) => ({ s with htFd := st.htFd }, some e)
      | (st, none) =>
        ({ htFd := writeHt st.htFd (st.changedMetaPageIxs.map fun ix =>
              (HTOffsets.metaBytesIndex ix, metaPage st.metaMap ix))
           walFd := []
           metaMap := st.metaMap }, none)

end Recover

/-! ### What an entry does -/

/-- The page an update writes over its bucket's page: its nodes at the diff's slots, then the page
identifier and the elided-children word. -/
def patchPage (pageId : List UInt8) (pageDiff : PageDiff) (changedNodes : List (List UInt8))
    (elidedChildren : ElidedChildren) (page : FatPage) : FatPage :=
  let page := (pageDiff.slots.zip changedNodes).foldl
    (fun page node => FatPage.copyFromSlice page (node.1 * 32) node.2) page
  let page := FatPage.copyFromSlice page (PAGE_SIZE - 32) pageId
  FatPage.copyFromSlice page (PAGE_SIZE - 32 - 8) elidedChildren.toBytes

end Nomt.Bitbox

namespace Nomt.Wal.WalEntry

open Nomt.Bitbox

/-- The bucket an entry names. -/
def bucket : WalEntry → UInt64
  | .clear bucket | .update _ _ _ _ bucket => bucket

@[simp] theorem bucket_update (pageId : List UInt8) (pageDiff : PageDiff)
    (changedNodes : List (List UInt8)) (elidedChildren : ElidedChildren) (bucket : UInt64) :
    (update pageId pageDiff changedNodes elidedChildren bucket).bucket = bucket := rfl

/-- The entry passes the checks of `recover` on a meta map of `len` bytes. -/
def Applies (len : Nat) : WalEntry → Prop
  | .clear bucket => bucket.toNat < len
  | .update _ pageDiff changedNodes _ bucket =>
    bucket.toNat < len ∧ pageDiff.count = changedNodes.length ∧ pageDiff.cleared = false

/-- The HT file after the entry: an update patches its bucket's data page. -/
def patchFile (htOffsets : HTOffsets) (e : WalEntry) (htFd : HtFile) : HtFile :=
  match e with
  | .clear _ => htFd
  | .update pageId pageDiff changedNodes elidedChildren bucket =>
    let pn := htOffsets.dataPageIndex bucket.toNat
    Function.update htFd pn (patchPage pageId pageDiff changedNodes elidedChildren (htFd pn))

/-- The meta map after the entry: its bucket is a tombstone, or full with the page's hash. -/
def applyMeta (hashRaw : List UInt8 → UInt64) (e : WalEntry) (m : MetaMap) : MetaMap :=
  match e with
  | .clear bucket => m.setTombstone bucket.toNat
  | .update pageId _ _ _ bucket => m.setFull bucket.toNat (hashRaw pageId)

/-- The meta byte the entry leaves at its bucket. -/
def metaByte (hashRaw : List UInt8 → UInt64) : WalEntry → UInt8
  | .clear _ => TOMBSTONE
  | .update pageId _ _ _ _ => fullEntry (hashRaw pageId)

/-- Whether `recover` notes the entry's meta page as changed. -/
def changesMeta (hashRaw : List UInt8 → UInt64) (m : MetaMap) : WalEntry → Bool
  | .clear _ => true
  | .update pageId _ _ _ bucket => m.hintNotMatch bucket.toNat (hashRaw pageId)

theorem Applies.bucket_lt {e : WalEntry} {len : Nat} (h : e.Applies len) :
    e.bucket.toNat < len := by
  cases e with
  | clear bucket => exact h
  | update pageId pageDiff changedNodes elidedChildren bucket => exact h.1

theorem bitvec_applyMeta (hashRaw : List UInt8 → UInt64) (e : WalEntry) (m : MetaMap) :
    (e.applyMeta hashRaw m).bitvec = m.bitvec.set e.bucket.toNat (e.metaByte hashRaw) := by
  cases e <;> rfl

@[simp] theorem buckets_applyMeta (hashRaw : List UInt8 → UInt64) (e : WalEntry) (m : MetaMap) :
    (e.applyMeta hashRaw m).buckets = m.buckets := by
  cases e <;> rfl

@[simp] theorem length_applyMeta (hashRaw : List UInt8 → UInt64) (e : WalEntry) (m : MetaMap) :
    (e.applyMeta hashRaw m).bitvec.length = m.bitvec.length := by
  rw [bitvec_applyMeta, List.length_set]

end Nomt.Wal.WalEntry

namespace Nomt.Bitbox

open Wal Undo

theorem MetaMap.ext_bitvec {m m' : MetaMap} (hb : m.buckets = m'.buckets)
    (hv : m.bitvec = m'.bitvec) : m = m' := by
  cases m
  cases m'
  cases hb
  cases hv
  rfl

/-- Setting a bucket full with the hash its byte already matches changes nothing. -/
theorem MetaMap.setFull_of_hint {m : MetaMap} {bucket : Nat} {hash : UInt64}
    (hlt : bucket < m.bitvec.length) (h : m.hintNotMatch bucket hash = false) :
    m.setFull bucket hash = m := by
  have hbyte : m.bitvec[bucket] = fullEntry hash := by
    rw [MetaMap.hintNotMatch, bne_eq_false_iff_eq, List.getElem!_eq_getElem?_getD,
      List.getElem?_eq_getElem hlt, Option.getD_some] at h
    exact h
  refine MetaMap.ext_bitvec rfl ?_
  show m.bitvec.set bucket (fullEntry hash) = m.bitvec
  rw [← hbyte, List.set_getElem_self]

section Recover

variable (hashRaw : List UInt8 → UInt64) (htOffsets : HTOffsets)

/-- The state after an entry that passes the checks of `recover`. -/
def RecoverState.apply (st : RecoverState) (e : WalEntry) : RecoverState where
  htFd := e.patchFile htOffsets st.htFd
  metaMap := e.applyMeta hashRaw st.metaMap
  changedMetaPageIxs := if e.changesMeta hashRaw st.metaMap then
      st.changedMetaPageIxs.insert (MetaMap.pageIndex e.bucket.toNat)
    else st.changedMetaPageIxs

theorem RecoverState.metaMap_apply (st : RecoverState) (e : WalEntry) :
    (st.apply hashRaw htOffsets e).metaMap = e.applyMeta hashRaw st.metaMap := rfl

theorem RecoverState.changedMetaPageIxs_apply (st : RecoverState) (e : WalEntry) :
    (st.apply hashRaw htOffsets e).changedMetaPageIxs =
      if e.changesMeta hashRaw st.metaMap then
        st.changedMetaPageIxs.insert (MetaMap.pageIndex e.bucket.toNat)
      else st.changedMetaPageIxs := rfl

theorem RecoverState.htFd_apply_update (st : RecoverState) (pageId : List UInt8)
    (pageDiff : PageDiff) (changedNodes : List (List UInt8)) (elidedChildren : ElidedChildren)
    (bucket : UInt64) :
    (st.apply hashRaw htOffsets (.update pageId pageDiff changedNodes elidedChildren bucket)).htFd =
      Function.update st.htFd (htOffsets.dataPageIndex bucket.toNat)
        (patchPage pageId pageDiff changedNodes elidedChildren
          (st.htFd (htOffsets.dataPageIndex bucket.toNat))) := rfl

variable {hashRaw htOffsets}

theorem unpackChangedNodes_eq {d : PageDiff} {nodes : List (List UInt8)} (page : FatPage)
    (hcount : d.count = nodes.length) (hc : d.cleared = false) :
    d.unpackChangedNodes nodes page = some ((d.slots.zip nodes).foldl
      (fun page node => FatPage.copyFromSlice page (node.1 * 32) node.2) page) := by
  rw [PageDiff.unpackChangedNodes, if_neg (by omega), PageDiff.iterOnes_eq hc]
  rfl

/-- An entry that passes the checks is applied. -/
theorem recoverEntry_of_applies {st : RecoverState} {e : WalEntry}
    (h : e.Applies st.metaMap.bitvec.length) :
    recoverEntry hashRaw htOffsets st e = .ok (st.apply hashRaw htOffsets e) := by
  cases e with
  | clear bucket =>
    have hlt : bucket.toNat < st.metaMap.bitvec.length := h
    rw [recoverEntry, if_pos hlt]
    rfl
  | update pageId pageDiff changedNodes elidedChildren bucket =>
    obtain ⟨hlt, hcount, hc⟩ := h
    rw [recoverEntry, if_pos hlt]
    dsimp only
    rw [if_neg (by omega), unpackChangedNodes_eq _ hcount hc]
    dsimp only
    -- a byte that already matches is left as it is, which is setting it again
    by_cases hmatch : st.metaMap.hintNotMatch bucket.toNat (hashRaw pageId) = true
    · simp only [RecoverState.apply, WalEntry.changesMeta, hmatch, if_true]
      rfl
    · have hfalse := Bool.eq_false_iff.mpr hmatch
      simp only [RecoverState.apply, WalEntry.changesMeta, WalEntry.applyMeta, hfalse,
        Bool.false_eq_true, if_false, MetaMap.setFull_of_hint hlt hfalse]
      rfl

/-- An entry that is applied passed the checks. -/
theorem applies_of_recoverEntry {st st' : RecoverState} {e : WalEntry}
    (h : recoverEntry hashRaw htOffsets st e = .ok st') : e.Applies st.metaMap.bitvec.length := by
  cases e with
  | clear bucket =>
    rw [recoverEntry] at h
    split_ifs at h with hlt
    exact hlt
  | update pageId pageDiff changedNodes elidedChildren bucket =>
    rw [recoverEntry] at h
    split_ifs at h with hlt hcount
    dsimp only at h
    refine ⟨hlt, by omega, ?_⟩
    cases hc : pageDiff.cleared
    · rfl
    · rw [PageDiff.unpackChangedNodes, if_neg hcount, PageDiff.iterOnes_eq_none hc] at h
      cases h

end Recover

/-! ### The loop -/

section Loop

variable (hashRaw : List UInt8 → UInt64) (htOffsets : HTOffsets)

/-- The entries applied one after the other, up to the first that fails. -/
def applyEntries (st : RecoverState) : List WalEntry → RecoverState × Option RecoverError
  | [] => (st, none)
  | e :: es =>
    match recoverEntry hashRaw htOffsets st e with
    | .error err => (st, some err)
    | .ok st => applyEntries st es

variable {hashRaw htOffsets}

/-- The loop of `recover` applies the entries the reader reads. -/
theorem recoverLoop_eq_applyEntries {fuel : Nat} {r : WalBlobReader} {es : List WalEntry}
    (h : WalBlobReader.readEntries fuel r = some (.ok es)) (st : RecoverState) :
    recoverLoop hashRaw htOffsets fuel r st = applyEntries hashRaw htOffsets st es := by
  induction fuel generalizing r es st with
  | zero => cases h
  | succ fuel ih =>
    rw [WalBlobReader.readEntries] at h
    rw [recoverLoop]
    rcases hr : r.readEntry with e | ⟨_ | entry, r'⟩ <;> rw [hr] at h
    · cases h
    · cases h
      rfl
    · obtain ⟨res, hres, hmap⟩ := Option.map_eq_some_iff.mp h
      rcases res with _ | rest
      · cases hmap
      · cases hmap
        rw [applyEntries]
        dsimp only
        rcases recoverEntry hashRaw htOffsets st entry with err | st'
        · rfl
        · exact ih hres st'

/-- A loop that succeeds read its entries to the end and applied them all. -/
theorem readEntries_of_recoverLoop {fuel : Nat} {r : WalBlobReader} {st st' : RecoverState}
    (h : recoverLoop hashRaw htOffsets fuel r st = (st', none)) :
    ∃ es, WalBlobReader.readEntries fuel r = some (.ok es) ∧ applyEntries hashRaw htOffsets st es = (st', none) := by
  induction fuel generalizing r st with
  | zero => cases h
  | succ fuel ih =>
    rw [recoverLoop] at h
    rw [WalBlobReader.readEntries]
    rcases hr : r.readEntry with e | ⟨_ | entry, r'⟩ <;> rw [hr] at h
    · cases h
    · exact ⟨[], rfl, h⟩
    · dsimp only at h ⊢
      rcases he : recoverEntry hashRaw htOffsets st entry with err | st₁ <;> rw [he] at h
      · cases h
      · obtain ⟨es, hes, happly⟩ := ih h
        refine ⟨entry :: es, by rw [hes]; rfl, ?_⟩
        rw [applyEntries, he]
        exact happly

@[simp] theorem length_apply (st : RecoverState) (e : WalEntry) :
    (st.apply hashRaw htOffsets e).metaMap.bitvec.length = st.metaMap.bitvec.length :=
  WalEntry.length_applyMeta hashRaw e st.metaMap

/-- A run that succeeds applied every entry, and each passed the checks. -/
theorem applyEntries_eq_none_iff {es : List WalEntry} {st st' : RecoverState} :
    applyEntries hashRaw htOffsets st es = (st', none) ↔
      (∀ e ∈ es, e.Applies st.metaMap.bitvec.length) ∧
        st' = es.foldl (RecoverState.apply hashRaw htOffsets) st := by
  induction es generalizing st with
  | nil =>
    constructor
    · intro h
      cases h
      exact ⟨fun e he => absurd he List.not_mem_nil, rfl⟩
    · rintro ⟨-, rfl⟩
      rfl
  | cons e es ih =>
    rcases hr : recoverEntry hashRaw htOffsets st e with err | st₁
    · -- the entry fails its checks, and the run stops there
      have hna : ¬ e.Applies st.metaMap.bitvec.length := fun ha => by
        rw [recoverEntry_of_applies ha] at hr
        cases hr
      rw [applyEntries, hr]
      simp only [Prod.mk.injEq, reduceCtorEq, and_false, false_iff, not_and]
      exact fun hall => absurd (hall e List.mem_cons_self) hna
    · have ha := applies_of_recoverEntry hr
      rw [recoverEntry_of_applies ha] at hr
      cases hr
      rw [applyEntries, recoverEntry_of_applies ha]
      dsimp only
      rw [ih, length_apply, List.forall_mem_cons, List.foldl_cons]
      exact ⟨fun ⟨hall, heq⟩ => ⟨⟨ha, hall⟩, heq⟩, fun ⟨⟨_, hall⟩, heq⟩ => ⟨hall, heq⟩⟩

theorem htFd_foldl_apply (hashRaw : List UInt8 → UInt64) (htOffsets : HTOffsets)
    (es : List WalEntry) (st : RecoverState) :
    (es.foldl (RecoverState.apply hashRaw htOffsets) st).htFd =
      es.foldl (fun htFd e => e.patchFile htOffsets htFd) st.htFd := by
  induction es generalizing st with
  | nil => rfl
  | cons e es ih => exact ih _

theorem metaMap_foldl_apply (hashRaw : List UInt8 → UInt64) (htOffsets : HTOffsets)
    (es : List WalEntry) (st : RecoverState) :
    (es.foldl (RecoverState.apply hashRaw htOffsets) st).metaMap =
      es.foldl (fun m e => e.applyMeta hashRaw m) st.metaMap := by
  induction es generalizing st with
  | nil => rfl
  | cons e es ih => exact ih _

end Loop

/-! ### Entries are overwrites -/

section Overwrites

open Overwrite

variable {hashRaw : List UInt8 → UInt64} {htOffsets : HTOffsets}

/-- `copy_from_slice` into a page sets the bytes of its range to values the slice fixes. -/
theorem isOverwrite_copyFromSlice (start : Nat) (src : List UInt8) :
    IsOverwrite (fun (page : FatPage) (j : Fin PAGE_SIZE) => page.get j)
      (fun page => FatPage.copyFromSlice page start src) := by
  refine ⟨fun j => if start ≤ j.val ∧ j.val < start + src.length then
    some (src.getD (j.val - start) 0) else none, fun page j => ?_⟩
  show (FatPage.copyFromSlice page start src)[j.val] =
    (if start ≤ j.val ∧ j.val < start + src.length then some (src.getD (j.val - start) 0)
      else none).getD page[j.val]
  rw [FatPage.getElem_copyFromSlice j.isLt]
  split_ifs <;> rfl

/-- What an update writes over its bucket's page depends on the entry alone. -/
theorem isOverwrite_patchPage (pageId : List UInt8) (pageDiff : PageDiff)
    (changedNodes : List (List UInt8)) (elidedChildren : ElidedChildren) :
    IsOverwrite (fun (page : FatPage) (j : Fin PAGE_SIZE) => page.get j)
      (patchPage pageId pageDiff changedNodes elidedChildren) := by
  have hnodes : IsOverwrite (fun (page : FatPage) (j : Fin PAGE_SIZE) => page.get j)
      (fun page => (pageDiff.slots.zip changedNodes).foldl
        (fun page node => FatPage.copyFromSlice page (node.1 * 32) node.2) page) :=
    IsOverwrite.foldl fun node _ => isOverwrite_copyFromSlice (node.1 * 32) node.2
  have hpatch : patchPage pageId pageDiff changedNodes elidedChildren =
      (fun page => FatPage.copyFromSlice page (PAGE_SIZE - 32 - 8) elidedChildren.toBytes) ∘
        (fun page => FatPage.copyFromSlice page (PAGE_SIZE - 32) pageId) ∘
        (fun page => (pageDiff.slots.zip changedNodes).foldl
          (fun page node => FatPage.copyFromSlice page (node.1 * 32) node.2) page) := rfl
  rw [hpatch]
  exact (hnodes.comp (isOverwrite_copyFromSlice _ pageId)).comp
    (isOverwrite_copyFromSlice _ elidedChildren.toBytes)

theorem isOverwrite_foldl_patchFile (htOffsets : HTOffsets) (es : List WalEntry) :
    IsOverwrite (fun (htFd : HtFile) (x : Nat × Fin PAGE_SIZE) => (htFd x.1).get x.2)
      (fun htFd => es.foldl (fun htFd e => e.patchFile htOffsets htFd) htFd) := by
  refine IsOverwrite.foldl fun e _ => ?_
  cases e with
  | clear bucket => exact isOverwrite_id
  | update pageId pageDiff changedNodes elidedChildren bucket =>
    exact (isOverwrite_patchPage pageId pageDiff changedNodes elidedChildren).update _

theorem bitvec_foldl_applyMeta (es : List WalEntry) (m : MetaMap) :
    (es.foldl (fun m e => e.applyMeta hashRaw m) m).bitvec =
      (es.map fun e => (e.bucket.toNat, e.metaByte hashRaw)).foldl
        (fun l w => l.set w.1 w.2) m.bitvec := by
  induction es generalizing m with
  | nil => rfl
  | cons e es ih => rw [List.foldl_cons, ih, WalEntry.bitvec_applyMeta]; rfl

theorem buckets_foldl_applyMeta (es : List WalEntry) (m : MetaMap) :
    (es.foldl (fun m e => e.applyMeta hashRaw m) m).buckets = m.buckets := by
  induction es generalizing m with
  | nil => rfl
  | cons e es ih => rw [List.foldl_cons, ih, WalEntry.buckets_applyMeta]

/-- Setting the meta bytes of entries inside the meta map a second time changes nothing. -/
theorem foldl_applyMeta_idem {es : List WalEntry} {m : MetaMap}
    (h : ∀ e ∈ es, e.bucket.toNat < m.bitvec.length) :
    es.foldl (fun m e => e.applyMeta hashRaw m) (es.foldl (fun m e => e.applyMeta hashRaw m) m) =
      es.foldl (fun m e => e.applyMeta hashRaw m) m := by
  refine MetaMap.ext_bitvec (by rw [buckets_foldl_applyMeta, buckets_foldl_applyMeta]) ?_
  rw [bitvec_foldl_applyMeta, bitvec_foldl_applyMeta, Undo.foldl_set_idem]
  intro w hw
  obtain ⟨e, he, rfl⟩ := List.mem_map.mp hw
  exact h e he

end Overwrites

/-! ### `recover` -/

section RecoverRun

variable {hashRaw : List UInt8 → UInt64} {htOffsets : HTOffsets}

/-- A WAL of another sync is truncated, and the HT file and the meta map are left as they are. -/
theorem recover_of_syncSeqn_ne {s : Store} {r : WalBlobReader} {syncSeqn : UInt32}
    (hr : WalBlobReader.new s.walFd = .ok r) (hne : r.syncSeqn ≠ syncSeqn) :
    recover hashRaw htOffsets syncSeqn s = ({ s with walFd := [] }, none) := by
  rw [recover, hr]
  dsimp only
  rw [if_pos hne]

/-- The meta pages `recover` writes last. -/
def metaPages (st : RecoverState) : List (Nat × FatPage) :=
  st.changedMetaPageIxs.map fun ix => (HTOffsets.metaBytesIndex ix, metaPage st.metaMap ix)

/-- `recover` of a WAL of this sync whose entries all pass the checks applies them all, then
writes the meta pages and truncates the WAL. -/
theorem recover_eq {s : Store} {r : WalBlobReader} {syncSeqn : UInt32} {es : List WalEntry}
    (hr : WalBlobReader.new s.walFd = .ok r) (hseqn : r.syncSeqn = syncSeqn)
    (hes : WalBlobReader.readEntries (s.walFd.length + 1) r = some (.ok es))
    (happ : ∀ e ∈ es, e.Applies s.metaMap.bitvec.length) :
    recover hashRaw htOffsets syncSeqn s =
      (let st := es.foldl (RecoverState.apply hashRaw htOffsets) ⟨s.htFd, s.metaMap, []⟩
       (⟨writeHt st.htFd (metaPages st), [], st.metaMap⟩, none)) := by
  have hloop : recoverLoop hashRaw htOffsets (s.walFd.length + 1) r ⟨s.htFd, s.metaMap, []⟩ =
      (es.foldl (RecoverState.apply hashRaw htOffsets) ⟨s.htFd, s.metaMap, []⟩, none) := by
    rw [recoverLoop_eq_applyEntries hes]
    exact applyEntries_eq_none_iff.mpr ⟨happ, rfl⟩
  rw [recover, hr]
  dsimp only
  rw [if_neg (not_not.mpr hseqn), hloop]
  rfl

/-- What a `recover` that succeeds did: it discarded a WAL of another sync, or applied every
entry of the WAL. -/
theorem recover_eq_none {s s' : Store} {syncSeqn : UInt32}
    (h : recover hashRaw htOffsets syncSeqn s = (s', none)) :
    ∃ r, WalBlobReader.new s.walFd = .ok r ∧
      ((r.syncSeqn ≠ syncSeqn ∧ s' = { s with walFd := [] }) ∨
       (r.syncSeqn = syncSeqn ∧ ∃ es,
          WalBlobReader.readEntries (s.walFd.length + 1) r = some (.ok es) ∧
          (∀ e ∈ es, e.Applies s.metaMap.bitvec.length) ∧
          let st := es.foldl (RecoverState.apply hashRaw htOffsets) ⟨s.htFd, s.metaMap, []⟩
          s' = ⟨writeHt st.htFd (metaPages st), [], st.metaMap⟩)) := by
  rw [recover] at h
  rcases hr : WalBlobReader.new s.walFd with e | r <;> rw [hr] at h
  · cases h
  refine ⟨r, rfl, ?_⟩
  dsimp only at h
  by_cases hne : r.syncSeqn ≠ syncSeqn
  · rw [if_pos hne] at h
    cases h
    exact .inl ⟨hne, rfl⟩
  rw [if_neg hne] at h
  refine .inr ⟨not_not.mp hne, ?_⟩
  rcases hloop : recoverLoop hashRaw htOffsets (s.walFd.length + 1) r ⟨s.htFd, s.metaMap, []⟩ with
    ⟨st, _ | err⟩ <;> rw [hloop] at h
  · obtain ⟨es, hes, happly⟩ := readEntries_of_recoverLoop hloop
    obtain ⟨happ, rfl⟩ := applyEntries_eq_none_iff.mp happly
    cases h
    exact ⟨es, hes, happ, rfl⟩
  · cases h

end RecoverRun

/-! ### The meta pages on disk -/

section Coherence

variable {hashRaw : List UInt8 → UInt64} {htOffsets : HTOffsets}

/-- The meta pages of the HT file hold the meta map, except perhaps those noted in `ixs`. -/
def CoherentExcept (htFd : HtFile) (m : MetaMap) (ixs : List Nat) : Prop :=
  ∀ ix, ix * PAGE_SIZE < m.bitvec.length → ix ∉ ixs →
    htFd (HTOffsets.metaBytesIndex ix) = metaPage m ix

/-- The meta pages of the HT file hold the meta map. -/
def Coherent (htFd : HtFile) (m : MetaMap) : Prop := CoherentExcept htFd m []

theorem pageSlice_applyMeta {e : WalEntry} {m : MetaMap} {ix : Nat}
    (hix : MetaMap.pageIndex e.bucket.toNat ≠ ix) :
    (e.applyMeta hashRaw m).pageSlice ix = m.pageSlice ix := by
  simp only [MetaMap.pageSlice, WalEntry.bitvec_applyMeta]
  rw [MetaMap.pageIndex] at hix
  by_cases hlt : e.bucket.toNat < ix * 4096
  · rw [List.drop_set_of_lt hlt]
  · rw [List.drop_set, if_neg hlt, List.take_set_of_le (by omega)]

/-- An update whose byte already matched leaves the meta map as it was. -/
theorem applyMeta_of_changesMeta_eq_false {e : WalEntry} {m : MetaMap}
    (he : e.Applies m.bitvec.length) (hc : e.changesMeta hashRaw m = false) :
    e.applyMeta hashRaw m = m := by
  cases e with
  | clear bucket => cases hc
  | update pageId pageDiff changedNodes elidedChildren bucket =>
    exact MetaMap.setFull_of_hint he.1 hc

theorem patchFile_apply_of_lt {e : WalEntry} {htFd : HtFile} {pn : Nat}
    (hpn : pn < htOffsets.dataPageOffset) : e.patchFile htOffsets htFd pn = htFd pn := by
  cases e with
  | clear bucket => rfl
  | update pageId pageDiff changedNodes elidedChildren bucket =>
    exact Function.update_of_ne (by simp only [HTOffsets.dataPageIndex]; omega) _ _

/-- An entry keeps the meta pages it does not note in step with the meta map: it writes no meta
page, and the meta byte it sets lies in the page it notes. -/
theorem CoherentExcept.apply {st : RecoverState} {e : WalEntry}
    (hoff : st.metaMap.bitvec.length ≤ htOffsets.dataPageOffset * PAGE_SIZE)
    (he : e.Applies st.metaMap.bitvec.length)
    (h : CoherentExcept st.htFd st.metaMap st.changedMetaPageIxs) :
    CoherentExcept (st.apply hashRaw htOffsets e).htFd (st.apply hashRaw htOffsets e).metaMap
      (st.apply hashRaw htOffsets e).changedMetaPageIxs := by
  intro ix hix hnot
  rw [length_apply] at hix
  have hpn : ix < htOffsets.dataPageOffset :=
    Nat.lt_of_mul_lt_mul_right (Nat.lt_of_lt_of_le hix hoff)
  show e.patchFile htOffsets st.htFd ix = metaPage (e.applyMeta hashRaw st.metaMap) ix
  rw [patchFile_apply_of_lt hpn]
  cases hc : e.changesMeta hashRaw st.metaMap
  · simp only [RecoverState.apply, hc, Bool.false_eq_true, if_false] at hnot
    rw [applyMeta_of_changesMeta_eq_false he hc]
    exact h ix hix hnot
  · simp only [RecoverState.apply, hc, if_true, List.mem_insert_iff, not_or] at hnot
    have hpage : metaPage (e.applyMeta hashRaw st.metaMap) ix = metaPage st.metaMap ix := by
      simp only [metaPage, pageSlice_applyMeta (Ne.symm hnot.1)]
    rw [hpage]
    exact h ix hix hnot.2

theorem coherentExcept_foldl_apply (hashRaw : List UInt8 → UInt64) (htOffsets : HTOffsets)
    (st : RecoverState) {es : List WalEntry}
    (hoff : st.metaMap.bitvec.length ≤ htOffsets.dataPageOffset * PAGE_SIZE)
    (happ : ∀ e ∈ es, e.Applies st.metaMap.bitvec.length)
    (h : CoherentExcept st.htFd st.metaMap st.changedMetaPageIxs) :
    CoherentExcept (es.foldl (RecoverState.apply hashRaw htOffsets) st).htFd
      (es.foldl (RecoverState.apply hashRaw htOffsets) st).metaMap
      (es.foldl (RecoverState.apply hashRaw htOffsets) st).changedMetaPageIxs := by
  induction es generalizing st with
  | nil => exact h
  | cons e es ih =>
    have he := happ e List.mem_cons_self
    refine ih _ (by rw [length_apply]; exact hoff) (fun e' he' => ?_) (h.apply hoff he)
    rw [length_apply]
    exact happ e' (List.mem_cons_of_mem _ he')

/-- Every meta page `recover` notes lies in the meta map. -/
theorem lt_of_mem_foldl_apply (hashRaw : List UInt8 → UInt64) (htOffsets : HTOffsets)
    (st : RecoverState) {es : List WalEntry}
    (happ : ∀ e ∈ es, e.Applies st.metaMap.bitvec.length)
    (h : ∀ ix ∈ st.changedMetaPageIxs, ix * PAGE_SIZE < st.metaMap.bitvec.length) :
    ∀ ix ∈ (es.foldl (RecoverState.apply hashRaw htOffsets) st).changedMetaPageIxs,
      ix * PAGE_SIZE < st.metaMap.bitvec.length := by
  induction es generalizing st with
  | nil => exact h
  | cons e es ih =>
    have hlt := WalEntry.Applies.bucket_lt (happ e List.mem_cons_self)
    have hlen : (st.apply hashRaw htOffsets e).metaMap.bitvec.length = st.metaMap.bitvec.length :=
      length_apply st e
    rw [List.foldl_cons, ← hlen]
    refine ih _ (fun e' he' => ?_) fun ix hix => ?_
    · rw [length_apply]
      exact happ e' (List.mem_cons_of_mem _ he')
    · rw [length_apply]
      by_cases hc : e.changesMeta hashRaw st.metaMap = true
      · simp only [RecoverState.apply, hc, if_true, List.mem_insert_iff] at hix
        rcases hix with rfl | hix
        · simp only [MetaMap.pageIndex, PAGE_SIZE]
          omega
        · exact h ix hix
      · simp only [RecoverState.apply, hc, Bool.false_eq_true, if_false] at hix
        exact h ix hix

/-- Writing the noted meta pages brings every meta page in step with the meta map. -/
theorem coherent_writeHt {htFd : HtFile} {st : RecoverState}
    (h : CoherentExcept htFd st.metaMap st.changedMetaPageIxs) :
    Coherent (writeHt htFd (metaPages st)) st.metaMap := by
  intro ix hix _
  by_cases hmem : ix ∈ st.changedMetaPageIxs
  · refine write_apply_of_forall (List.mem_map.mpr ⟨_, List.mem_map.mpr ⟨ix, hmem, rfl⟩, rfl⟩) ?_
    intro w hw hkey
    obtain ⟨ix', -, rfl⟩ := List.mem_map.mp hw
    simp only [HTOffsets.metaBytesIndex] at hkey
    rw [hkey]
  · rw [writeHt, write_apply_of_not_mem]
    · exact h ix hix hmem
    · simpa [metaPages, HTOffsets.metaBytesIndex] using hmem

/-- `recover` leaves the meta pages in step with the meta map. -/
theorem coherent_recover {s s' : Store} {syncSeqn : UInt32} (hcoh : Coherent s.htFd s.metaMap)
    (hoff : s.metaMap.bitvec.length ≤ htOffsets.dataPageOffset * PAGE_SIZE)
    (h : recover hashRaw htOffsets syncSeqn s = (s', none)) : Coherent s'.htFd s'.metaMap := by
  obtain ⟨r, -, ⟨-, rfl⟩ | ⟨-, es, -, happ, rfl⟩⟩ := recover_eq_none h
  · exact hcoh
  · exact coherent_writeHt (coherentExcept_foldl_apply hashRaw htOffsets _ hoff happ hcoh)

/-- The pages of a list, `k` elements each, give the list back. -/
theorem flatMap_range_take_drop {α : Type} (k : Nat) :
    ∀ (n : Nat) (l : List α), l.length = n * k →
      (List.range n).flatMap (fun i => (l.drop (i * k)).take k) = l
  | 0, l, h => by
    rw [Nat.zero_mul, List.length_eq_zero_iff] at h
    rw [h]
    rfl
  | n + 1, l, h => by
    have hrest : (List.range n).flatMap (fun i => (l.drop ((i + 1) * k)).take k) = l.drop k := by
      have hlen : (l.drop k).length = n * k := by
        rw [List.length_drop, h, Nat.succ_mul, Nat.add_sub_cancel]
      rw [← flatMap_range_take_drop k n (l.drop k) hlen]
      refine List.flatMap_congr fun i _ => ?_
      rw [List.drop_drop, Nat.succ_mul, Nat.add_comm]
    rw [List.range_succ_eq_map, List.flatMap_cons, List.flatMap_map, Nat.zero_mul, List.drop_zero]
    simp only [Nat.succ_eq_add_one]
    rw [hrest, List.take_append_drop]

theorem toList_metaPage {m : MetaMap} {ix : Nat} (h : (ix + 1) * PAGE_SIZE ≤ m.bitvec.length) :
    (metaPage m ix).toList = m.pageSlice ix := by
  have hlen : (m.pageSlice ix).length = PAGE_SIZE := by
    simp only [MetaMap.pageSlice, List.length_take, List.length_drop, PAGE_SIZE] at h ⊢
    omega
  refine List.ext_getElem (by rw [Vector.length_toList, hlen]) fun j hj _ => ?_
  rw [Vector.length_toList] at hj
  rw [Vector.getElem_toList]
  show (FatPage.copyFromSlice (Vector.replicate PAGE_SIZE 0) 0 (m.pageSlice ix))[j] = _
  rw [FatPage.getElem_copyFromSlice hj, if_pos ⟨Nat.zero_le _, by rw [hlen]; omega⟩,
    Nat.sub_zero, List.getD_eq_getElem _ _ (by omega)]

/-- `ht_file::open` reads back a meta map its meta pages hold. -/
theorem htFileOpen_of_coherent {numPages : UInt32} {htFd : HtFile} {m : MetaMap}
    (h : Coherent htFd m) (hlen : m.bitvec.length = numMetaBytePages numPages * PAGE_SIZE)
    (hb : m.buckets = numPages.toNat) :
    (htFileOpen numPages htFd).2 = m := by
  refine MetaMap.ext_bitvec hb.symm ?_
  show readMeta htFd (numMetaBytePages numPages) = m.bitvec
  have hpages : ∀ pn ∈ List.range (numMetaBytePages numPages),
      (htFd pn).toList = (m.bitvec.drop (pn * PAGE_SIZE)).take PAGE_SIZE := by
    intro pn hpn
    have hlt := List.mem_range.mp hpn
    have hin : (pn + 1) * PAGE_SIZE ≤ m.bitvec.length := by
      rw [hlen]
      exact Nat.mul_le_mul_right _ hlt
    have hpage := h pn (by rw [Nat.succ_mul] at hin; simp only [PAGE_SIZE] at hin ⊢; omega)
      List.not_mem_nil
    rw [HTOffsets.metaBytesIndex] at hpage
    rw [hpage, toList_metaPage hin]
    rfl
  rw [readMeta, List.flatMap_congr hpages, flatMap_range_take_drop _ _ _ hlen]

/-- A page of a run of pages, `k` elements each. -/
theorem take_drop_flatMap_range {α : Type} {k : Nat} (f : Nat → List α)
    (hf : ∀ i, (f i).length = k) :
    ∀ {n ix : Nat}, ix < n → (((List.range n).flatMap f).drop (ix * k)).take k = f ix
  | 0, _, h => absurd h (Nat.not_lt_zero _)
  | n + 1, ix, h => by
    have hlen : ((List.range n).flatMap f).length = n * k := by
      rw [List.length_flatMap, List.map_congr_left fun i _ => hf i, List.map_const',
        List.length_range, List.sum_replicate, smul_eq_mul]
    rw [List.range_succ, List.flatMap_append, List.flatMap_singleton]
    rcases Nat.lt_succ_iff_lt_or_eq.mp h with hlt | rfl
    · -- a page of the first `n`
      have hle : ix * k + k ≤ n * k := by
        rw [← Nat.succ_mul]
        exact Nat.mul_le_mul_right _ hlt
      rw [List.drop_append_of_le_length (by omega), List.take_append_of_le_length
        (by rw [List.length_drop]; omega), take_drop_flatMap_range f hf hlt]
    · -- the last page
      rw [List.drop_append_of_le_length (by omega), List.drop_of_length_le (by omega),
        List.nil_append, List.take_of_length_le (by rw [hf])]

/-- The meta map `ht_file::open` reads is held by the meta pages it was read from. -/
theorem coherent_htFileOpen (numPages : UInt32) (htFd : HtFile) :
    Coherent htFd (htFileOpen numPages htFd).2 := by
  intro ix hix _
  have hlen : (htFileOpen numPages htFd).2.bitvec.length = numMetaBytePages numPages * PAGE_SIZE :=
    length_readMeta htFd _
  have hlt : ix < numMetaBytePages numPages :=
    Nat.lt_of_mul_lt_mul_right (hlen ▸ hix)
  have hslice : (htFileOpen numPages htFd).2.pageSlice ix = (htFd ix).toList :=
    take_drop_flatMap_range (fun pn => (htFd pn).toList) (fun _ => Vector.length_toList) hlt
  refine Vector.ext fun j hj => ?_
  show (htFd ix)[j] = (FatPage.copyFromSlice (Vector.replicate PAGE_SIZE 0) 0
    ((htFileOpen numPages htFd).2.pageSlice ix))[j]
  rw [FatPage.getElem_copyFromSlice hj, hslice, Vector.length_toList,
    if_pos ⟨Nat.zero_le _, hj⟩, Nat.sub_zero, List.getD_eq_getElem _ _ (by simpa using hj),
    Vector.getElem_toList]

/-- `ht_file::open` reads only the meta pages. -/
theorem htFileOpen_congr {numPages : UInt32} {htFd htFd' : HtFile}
    (h : ∀ pn < numMetaBytePages numPages, htFd pn = htFd' pn) :
    (htFileOpen numPages htFd).2 = (htFileOpen numPages htFd').2 :=
  MetaMap.ext_bitvec rfl <| List.flatMap_congr fun pn hpn => by
    rw [h pn (List.mem_range.mp hpn)]

end Coherence

/-! ### Recovering twice -/

section Twice

open Overwrite

variable {hashRaw : List UInt8 → UInt64} {htOffsets : HTOffsets}

/-- A `recover` that succeeds, run again with the same WAL on what it left (as after a crash
before the WAL is truncated), leaves the same store: each entry sets its meta byte and the bytes
of its data page to values the entry alone fixes, and the meta pages it writes already hold the
meta map. -/
theorem recover_recover {s s' : Store} {syncSeqn : UInt32} (hcoh : Coherent s.htFd s.metaMap)
    (hoff : s.metaMap.bitvec.length ≤ htOffsets.dataPageOffset * PAGE_SIZE)
    (h : recover hashRaw htOffsets syncSeqn s = (s', none)) :
    recover hashRaw htOffsets syncSeqn { s' with walFd := s.walFd } = (s', none) := by
  obtain ⟨r, hr, ⟨hne, rfl⟩ | ⟨hseqn, es, hes, happ, rfl⟩⟩ := recover_eq_none h
  · exact recover_of_syncSeqn_ne hr hne
  -- the data patches of the entries, as one map on files
  have hD := isOverwrite_foldl_patchFile htOffsets es
  -- the first run
  have hcoh₁ := coherent_writeHt
    (coherentExcept_foldl_apply hashRaw htOffsets ⟨s.htFd, s.metaMap, []⟩ hoff happ hcoh)
  have hlt₁ := lt_of_mem_foldl_apply hashRaw htOffsets ⟨s.htFd, s.metaMap, []⟩ happ
    (fun _ h => absurd h List.not_mem_nil)
  have hfile₁ := htFd_foldl_apply hashRaw htOffsets es ⟨s.htFd, s.metaMap, []⟩
  have hmeta₁ := metaMap_foldl_apply hashRaw htOffsets es ⟨s.htFd, s.metaMap, []⟩
  dsimp only at hcoh₁ hlt₁ ⊢
  generalize es.foldl (RecoverState.apply hashRaw htOffsets) ⟨s.htFd, s.metaMap, []⟩ = st₁
    at hcoh₁ hlt₁ hfile₁ hmeta₁ ⊢
  have hlen₁ : st₁.metaMap.bitvec.length = s.metaMap.bitvec.length := by
    rw [hmeta₁, bitvec_foldl_applyMeta, Undo.length_foldl_set]
  -- the second run reads the same entries, which pass the same checks
  have happ₂ : ∀ e ∈ es, e.Applies st₁.metaMap.bitvec.length := hlen₁ ▸ happ
  refine (recover_eq (s := ⟨writeHt st₁.htFd (metaPages st₁), s.walFd, st₁.metaMap⟩) hr hseqn hes
    happ₂).trans ?_
  have hcoh₂ := coherent_writeHt (coherentExcept_foldl_apply hashRaw htOffsets
    ⟨writeHt st₁.htFd (metaPages st₁), st₁.metaMap, []⟩ (hlen₁ ▸ hoff) happ₂ hcoh₁)
  have hlt₂ := lt_of_mem_foldl_apply hashRaw htOffsets
    ⟨writeHt st₁.htFd (metaPages st₁), st₁.metaMap, []⟩ happ₂ (fun _ h => absurd h List.not_mem_nil)
  have hfile₂ := htFd_foldl_apply hashRaw htOffsets es
    ⟨writeHt st₁.htFd (metaPages st₁), st₁.metaMap, []⟩
  have hmeta₂ := metaMap_foldl_apply hashRaw htOffsets es
    ⟨writeHt st₁.htFd (metaPages st₁), st₁.metaMap, []⟩
  dsimp only at hcoh₂ hlt₂ ⊢
  generalize es.foldl (RecoverState.apply hashRaw htOffsets)
    ⟨writeHt st₁.htFd (metaPages st₁), st₁.metaMap, []⟩ = st₂ at hcoh₂ hlt₂ hfile₂ hmeta₂ ⊢
  -- the meta bytes are set to the same values again
  have hm : st₂.metaMap = st₁.metaMap := by
    rw [hmeta₂, hmeta₁]
    exact foldl_applyMeta_idem fun e he => WalEntry.Applies.bucket_lt (happ e he)
  have hfile : writeHt st₂.htFd (metaPages st₂) = writeHt st₁.htFd (metaPages st₁) := by
    funext pn
    by_cases hpn : pn * PAGE_SIZE < s.metaMap.bitvec.length
    · -- a meta page: both files hold the meta map there
      have h₂ := hcoh₂ pn (by rw [hm, hlen₁]; exact hpn) List.not_mem_nil
      have h₁ := hcoh₁ pn (by rw [hlen₁]; exact hpn) List.not_mem_nil
      rw [HTOffsets.metaBytesIndex] at h₁ h₂
      rw [h₂, h₁, hm]
    · -- a data page: no meta page is written there, and the patches are overwrites
      have hkeys : ∀ st : RecoverState, (∀ ix ∈ st.changedMetaPageIxs,
          ix * PAGE_SIZE < s.metaMap.bitvec.length) → pn ∉ (metaPages st).map Prod.fst := by
        intro st hst hmem
        obtain ⟨⟨ix, page⟩, hix, rfl⟩ := List.mem_map.mp hmem
        obtain ⟨ix', hix', hpair⟩ := List.mem_map.mp hix
        simp only [HTOffsets.metaBytesIndex, Prod.mk.injEq] at hpair
        exact hpn (hpair.1 ▸ hst ix' hix')
      have hnot₁ := hkeys st₁ hlt₁
      have hnot₂ := hkeys st₂ (hlen₁ ▸ hlt₂)
      rw [writeHt, write_apply_of_not_mem hnot₂, writeHt, write_apply_of_not_mem hnot₁, hfile₂,
        congrFun hfile₁ pn]
      refine Vector.ext fun j hj => ?_
      have hsame : (writeHt st₁.htFd (metaPages st₁) pn)[j] =
          (es.foldl (fun htFd e => e.patchFile htOffsets htFd) s.htFd pn)[j] := by
        rw [writeHt, write_apply_of_not_mem hnot₁, hfile₁]
      exact (hD.apply_congr (i := (pn, ⟨j, hj⟩)) hsame).trans
        (congrFun (hD.view_idem s.htFd) (pn, ⟨j, hj⟩))
  rw [hfile, hm]

end Twice

end Nomt.Bitbox

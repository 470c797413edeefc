import Nomt.Store.PageDiff

/-!
# The write-ahead log of the hash table (`nomt/src/bitbox/wal/`)

Before a sync writes the hash-table pages, `prepare_sync` records the batch in a WAL blob: a
`START` tag with the sync sequence number, one entry per changed page (`CLEAR` with the bucket,
or `UPDATE` with the page's identifier, its diff, the changed nodes, the elided-children word and
the bucket), an `END` tag, and zeros up to a whole page. `WalBlobReader` reads it back.

Each read is characterised by the bytes after the reader's offset (`readByte_eq`, `readBuf_eq`).
The round trip holds for the entries `write_update` is given (`WalEntry.WellFormed`: a 32-byte
identifier, a diff that is not cleared, `count` nodes of 32 bytes): the reader finds the
sequence number and then every entry in order, and `None` after the last (`read_build`).
-/

namespace Nomt.Wal

open ByteOrder

/-- `WAL_ENTRY_TAG_START`. -/
def WAL_ENTRY_TAG_START : UInt8 := 1

/-- `WAL_ENTRY_TAG_END`. -/
def WAL_ENTRY_TAG_END : UInt8 := 2

/-- `WAL_ENTRY_TAG_CLEAR`. -/
def WAL_ENTRY_TAG_CLEAR : UInt8 := 3

/-- `WAL_ENTRY_TAG_UPDATE`. -/
def WAL_ENTRY_TAG_UPDATE : UInt8 := 4

/-- `WalEntry`. -/
inductive WalEntry
  | update (pageId : List UInt8) (pageDiff : PageDiff) (changedNodes : List (List UInt8))
      (elidedChildren : ElidedChildren) (bucket : UInt64)
  | clear (bucket : UInt64)
deriving DecidableEq, Repr

/-! ### Writing -/

/-- `WalBlobBuilder`: the bytes written since the last `reset` (`mmap[..cur]`). -/
structure WalBlobBuilder where
  blob : List UInt8

namespace WalBlobBuilder

/-- `WalBlobBuilder::write`. -/
def write (b : WalBlobBuilder) (bytes : List UInt8) : WalBlobBuilder := ⟨b.blob ++ bytes⟩

/-- `WalBlobBuilder::write_byte`. -/
def writeByte (b : WalBlobBuilder) (byte : UInt8) : WalBlobBuilder := b.write [byte]

/-- `WalBlobBuilder::write_clear`. -/
def writeClear (b : WalBlobBuilder) (bucketIndex : UInt64) : WalBlobBuilder :=
  (b.writeByte WAL_ENTRY_TAG_CLEAR).write (leBytes bucketIndex.toNat 8)

/-- `WalBlobBuilder::write_update`. -/
def writeUpdate (b : WalBlobBuilder) (pageId : List UInt8) (pageDiff : PageDiff)
    (changed : List (List UInt8)) (elidedChildren : ElidedChildren) (bucketIndex : UInt64) :
    WalBlobBuilder :=
  let b := b.writeByte WAL_ENTRY_TAG_UPDATE
  let b := b.write pageId
  let b := b.write pageDiff.asBytes
  let b := changed.foldl write b
  let b := b.write elidedChildren.toBytes
  b.write (leBytes bucketIndex.toNat 8)

/-- `WalBlobBuilder::reset`: the bytes written before are dropped (`cur = 0`). -/
def reset (syncSeqn : UInt32) : WalBlobBuilder :=
  (⟨[]⟩ : WalBlobBuilder).writeByte WAL_ENTRY_TAG_START |>.write (leBytes syncSeqn.toNat 4)

/-- `WalBlobBuilder::finalize`: the `END` tag, then zeros to the next multiple of a page. -/
def finalize (b : WalBlobBuilder) : WalBlobBuilder :=
  let b := b.writeByte WAL_ENTRY_TAG_END
  let len := (b.blob.length + PAGE_SIZE - 1) / PAGE_SIZE * PAGE_SIZE
  b.write (List.replicate (len - b.blob.length) 0)

/-- `WalBlobBuilder::as_slice`. -/
def asSlice (b : WalBlobBuilder) : List UInt8 := b.blob

end WalBlobBuilder

/-- The bytes `write_clear` and `write_update` append for an entry. -/
def WalEntry.encode : WalEntry → List UInt8
  | .clear bucket => WAL_ENTRY_TAG_CLEAR :: leBytes bucket.toNat 8
  | .update pageId pageDiff changedNodes elidedChildren bucket =>
    WAL_ENTRY_TAG_UPDATE :: (pageId ++ pageDiff.asBytes ++ changedNodes.flatten ++
      elidedChildren.toBytes ++ leBytes bucket.toNat 8)

/-- The entries `write_update` is given: a 32-byte identifier, a diff that is not cleared, and its
`count` nodes of 32 bytes. -/
def WalEntry.WellFormed : WalEntry → Prop
  | .clear _ => True
  | .update pageId pageDiff changedNodes _ _ =>
    pageId.length = 32 ∧ pageDiff.cleared = false ∧ changedNodes.length = pageDiff.count ∧
      ∀ node ∈ changedNodes, node.length = 32

namespace WalBlobBuilder

/-- The call of `prepare_sync` that records an entry. -/
def writeEntry (b : WalBlobBuilder) : WalEntry → WalBlobBuilder
  | .clear bucket => b.writeClear bucket
  | .update pageId pageDiff changedNodes elidedChildren bucket =>
    b.writeUpdate pageId pageDiff changedNodes elidedChildren bucket

/-- The blob of a sync: `reset`, one write per entry, `finalize`. -/
def build (syncSeqn : UInt32) (entries : List WalEntry) : WalBlobBuilder :=
  (entries.foldl writeEntry (reset syncSeqn)).finalize

theorem foldl_write (b : WalBlobBuilder) (chunks : List (List UInt8)) :
    (chunks.foldl write b).blob = b.blob ++ chunks.flatten := by
  induction chunks generalizing b with
  | nil => simp
  | cons chunk chunks ih => simp [ih, write]

theorem writeEntry_blob (b : WalBlobBuilder) (e : WalEntry) :
    (b.writeEntry e).blob = b.blob ++ e.encode := by
  cases e with
  | clear bucket => simp [writeEntry, writeClear, writeByte, write, WalEntry.encode]
  | update pageId pageDiff changedNodes elidedChildren bucket =>
    simp [writeEntry, writeUpdate, writeByte, write, WalEntry.encode, foldl_write]

theorem foldl_writeEntry_blob (b : WalBlobBuilder) (entries : List WalEntry) :
    (entries.foldl writeEntry b).blob = b.blob ++ entries.flatMap WalEntry.encode := by
  induction entries generalizing b with
  | nil => simp
  | cons e entries ih => simp [ih, writeEntry_blob]

/-- The blob of a sync: the sequence number, the entries, the `END` tag and zero padding. -/
theorem asSlice_build (syncSeqn : UInt32) (entries : List WalEntry) :
    ∃ padding, (build syncSeqn entries).asSlice =
      WAL_ENTRY_TAG_START :: leBytes syncSeqn.toNat 4 ++ entries.flatMap WalEntry.encode ++
        WAL_ENTRY_TAG_END :: padding := by
  let b := entries.foldl writeEntry (reset syncSeqn)
  refine ⟨List.replicate (((b.blob.length + 1) + PAGE_SIZE - 1) / PAGE_SIZE * PAGE_SIZE -
    (b.blob.length + 1)) 0, ?_⟩
  simp [b, asSlice, build, finalize, writeByte, write, foldl_writeEntry_blob, reset]
  simp only [PAGE_SIZE]
  omega

/-- `finalize` leaves a whole number of pages. -/
theorem length_finalize (b : WalBlobBuilder) : b.finalize.blob.length % PAGE_SIZE = 0 := by
  simp only [finalize, write, List.length_append, List.length_replicate]
  set n := (b.writeByte WAL_ENTRY_TAG_END).blob.length
  have hle : n ≤ (n + PAGE_SIZE - 1) / PAGE_SIZE * PAGE_SIZE := by
    simp only [PAGE_SIZE]
    omega
  rw [Nat.add_sub_cancel' hle, Nat.mul_mod_left]

end WalBlobBuilder

/-! ### Reading -/

/-- The errors of `WalBlobReader`. -/
inductive ReadError
  /-- "WAL file size is not a multiple of the page size" -/
  | notPageMultiple
  /-- "Unexpected end of WAL file" -/
  | unexpectedEnd
  /-- "Invalid page diff" -/
  | invalidPageDiff
  /-- "unknown WAL entry tag: " and the tag. -/
  | unknownTag (tag : UInt8)
  /-- "unexpected WAL entry tag at start: " and the tag. -/
  | unexpectedStartTag (tag : UInt8)
deriving DecidableEq, Repr

/-- `WalBlobReader`: the WAL file's bytes, the offset of the next read, and the sequence number
`read_start` found. -/
structure WalBlobReader where
  wal : List UInt8
  offset : Nat
  syncSeqn : UInt32
deriving DecidableEq, Repr

namespace WalBlobReader

/-- `WalBlobReader::read_byte`. -/
def readByte (r : WalBlobReader) : Except ReadError (UInt8 × WalBlobReader) :=
  if h : r.offset < r.wal.length then .ok (r.wal[r.offset], { r with offset := r.offset + 1 })
  else .error .unexpectedEnd

/-- `WalBlobReader::read_buf` of `n` bytes. -/
def readBuf (r : WalBlobReader) (n : Nat) : Except ReadError (List UInt8 × WalBlobReader) :=
  if r.offset + n > r.wal.length then .error .unexpectedEnd
  else .ok ((r.wal.drop r.offset).take n, { r with offset := r.offset + n })

/-- `WalBlobReader::read_u64`. -/
def readU64 (r : WalBlobReader) : Except ReadError (UInt64 × WalBlobReader) := do
  let (buf, r) ← r.readBuf 8
  pure (UInt64.ofNat (ofLeBytes buf), r)

/-- `WalBlobReader::read_u32`. -/
def readU32 (r : WalBlobReader) : Except ReadError (UInt32 × WalBlobReader) := do
  let (buf, r) ← r.readBuf 4
  pure (UInt32.ofNat (ofLeBytes buf), r)

/-- The loop of `read_entry` reading `changed_count` nodes of 32 bytes. -/
def readNodes : Nat → WalBlobReader → Except ReadError (List (List UInt8) × WalBlobReader)
  | 0, r => .ok ([], r)
  | n + 1, r => do
    let (node, r) ← r.readBuf 32
    let (nodes, r) ← readNodes n r
    pure (node :: nodes, r)

/-- `WalBlobReader::read_entry`: `none` at the `END` tag. -/
def readEntry (r : WalBlobReader) : Except ReadError (Option WalEntry × WalBlobReader) := do
  let (entryTag, r) ← r.readByte
  if entryTag = WAL_ENTRY_TAG_END then pure (none, r)
  else if entryTag = WAL_ENTRY_TAG_CLEAR then
    let (bucket, r) ← r.readU64
    pure (some (.clear bucket), r)
  else if entryTag = WAL_ENTRY_TAG_UPDATE then
    let (pageId, r) ← r.readBuf 32
    let (pageDiff, r) ← r.readBuf 16
    match PageDiff.fromBytes pageDiff with
    | none => throw .invalidPageDiff
    | some pageDiff =>
      let (changedNodes, r) ← readNodes pageDiff.count r
      let (elidedChildren, r) ← r.readBuf 8
      let (bucket, r) ← r.readU64
      pure (some (.update pageId pageDiff changedNodes (.fromBytes elidedChildren) bucket), r)
  else throw (.unknownTag entryTag)

/-- `WalBlobReader::read_start`. -/
def readStart (r : WalBlobReader) : Except ReadError WalBlobReader := do
  let (entryTag, r) ← r.readByte
  if entryTag = WAL_ENTRY_TAG_START then
    let (syncSeqn, r) ← r.readU32
    pure { r with syncSeqn := syncSeqn }
  else throw (.unexpectedStartTag entryTag)

/-- `WalBlobReader::new` on the bytes of the WAL file. -/
def new (wal : List UInt8) : Except ReadError WalBlobReader :=
  if wal.length % PAGE_SIZE ≠ 0 then .error .notPageMultiple
  else readStart ⟨wal, 0, 0⟩

/-- The entries `read_entry` yields until it yields `None`, on at most `fuel` calls. -/
def readEntries : Nat → WalBlobReader → Option (Except ReadError (List WalEntry))
  | 0, _ => none
  | fuel + 1, r =>
    match r.readEntry with
    | .error e => some (.error e)
    | .ok (none, _) => some (.ok [])
    | .ok (some e, r) => (readEntries fuel r).map fun rest => rest.map (e :: ·)

/-! ### Each read, by the bytes after the offset -/

/-- The reader `n` bytes further on. -/
def skip (r : WalBlobReader) (n : Nat) : WalBlobReader := { r with offset := r.offset + n }

variable {r : WalBlobReader} {rest : List UInt8}

@[simp] theorem wal_skip (n : Nat) : (r.skip n).wal = r.wal := rfl

@[simp] theorem syncSeqn_skip (n : Nat) : (r.skip n).syncSeqn = r.syncSeqn := rfl

theorem skip_skip (m n : Nat) : (r.skip m).skip n = r.skip (m + n) := by
  simp [skip, Nat.add_assoc]

theorem drop_skip {b : List UInt8} (h : r.wal.drop r.offset = b ++ rest) :
    (r.skip b.length).wal.drop (r.skip b.length).offset = rest := by
  simp only [skip, ← List.drop_drop, h, List.drop_left]

theorem readByte_eq {byte : UInt8} (h : r.wal.drop r.offset = byte :: rest) :
    r.readByte = .ok (byte, r.skip 1) := by
  have hlt : r.offset < r.wal.length := by
    have hlen : (r.wal.drop r.offset).length = rest.length + 1 := by rw [h]; rfl
    rw [List.length_drop] at hlen
    omega
  have hbyte : r.wal[r.offset] = byte := by
    have := congrArg (·[0]?) h
    simpa [hlt] using this
  rw [readByte, dif_pos hlt, hbyte]
  rfl

/-- A read of a nonempty buffer; an empty one fails past the end of the file. -/
theorem readBuf_eq {bytes : List UInt8} (hpos : 0 < bytes.length)
    (h : r.wal.drop r.offset = bytes ++ rest) :
    r.readBuf bytes.length = .ok (bytes, r.skip bytes.length) := by
  have hle : r.offset + bytes.length ≤ r.wal.length := by
    have hlen : (r.wal.drop r.offset).length = bytes.length + rest.length := by
      rw [h, List.length_append]
    rw [List.length_drop] at hlen
    omega
  rw [readBuf, if_neg (Nat.not_lt.mpr hle), h, List.take_left]
  rfl

theorem readU64_eq {bucket : UInt64} (h : r.wal.drop r.offset = leBytes bucket.toNat 8 ++ rest) :
    r.readU64 = .ok (bucket, r.skip 8) := by
  have hbuf := readBuf_eq (by simp) h
  rw [length_leBytes] at hbuf
  rw [readU64, hbuf]
  simp only [bind, Except.bind, pure, Except.pure, ofLeBytes_leBytes_u64]

theorem readU32_eq {w : UInt32} (h : r.wal.drop r.offset = leBytes w.toNat 4 ++ rest) :
    r.readU32 = .ok (w, r.skip 4) := by
  have hbuf := readBuf_eq (by simp) h
  rw [length_leBytes] at hbuf
  rw [readU32, hbuf]
  simp only [bind, Except.bind, pure, Except.pure, ofLeBytes_leBytes_u32]

theorem readNodes_eq {nodes : List (List UInt8)} (hlen : ∀ node ∈ nodes, node.length = 32)
    (h : r.wal.drop r.offset = nodes.flatten ++ rest) :
    readNodes nodes.length r = .ok (nodes, r.skip nodes.flatten.length) := by
  induction nodes generalizing r with
  | nil => simp [readNodes, skip]
  | cons node nodes ih =>
    have hnode := hlen node List.mem_cons_self
    rw [List.flatten_cons, List.append_assoc] at h
    have hbuf := readBuf_eq (by rw [hnode]; decide) h
    rw [hnode] at hbuf
    have hrest := ih (fun n hn => hlen n (List.mem_cons_of_mem _ hn)) (hnode ▸ drop_skip h)
    rw [List.length_cons, readNodes, hbuf]
    simp only [bind, Except.bind, hrest, pure, Except.pure, skip_skip, List.flatten_cons,
      List.length_append, hnode]

/-! ### The round trip -/

/-- `read_entry` reads back a well-formed entry. -/
theorem readEntry_encode {e : WalEntry} (he : e.WellFormed)
    (h : r.wal.drop r.offset = e.encode ++ rest) :
    r.readEntry = .ok (some e, r.skip e.encode.length) := by
  cases e with
  | clear bucket =>
    rw [WalEntry.encode, List.cons_append] at h
    have hu := readU64_eq (drop_skip (b := [WAL_ENTRY_TAG_CLEAR]) h)
    rw [List.length_singleton] at hu
    have hne : WAL_ENTRY_TAG_CLEAR ≠ WAL_ENTRY_TAG_END := by decide
    simp only [readEntry, readByte_eq h, bind, Except.bind, if_neg hne, if_true, hu, pure,
      Except.pure, skip_skip, WalEntry.encode, List.length_cons, length_leBytes]
  | update pageId pageDiff changedNodes elidedChildren bucket =>
    obtain ⟨hid, hc, hcount, hnodes⟩ := he
    rw [WalEntry.encode, List.cons_append] at h
    simp only [List.append_assoc] at h
    -- each field sits after the ones before it
    have h1 := drop_skip (b := [WAL_ENTRY_TAG_UPDATE]) h
    rw [List.length_singleton] at h1
    have h2 := drop_skip h1
    rw [hid] at h2
    have h3 := drop_skip h2
    rw [PageDiff.length_asBytes] at h3
    have h4 := drop_skip h3
    have h5 := drop_skip h4
    rw [ElidedChildren.length_toBytes] at h5
    have hid' := readBuf_eq (by rw [hid]; decide) h1
    rw [hid] at hid'
    have hdiff := readBuf_eq (by simp) h2
    rw [PageDiff.length_asBytes] at hdiff
    have hns := readNodes_eq hnodes h3
    rw [hcount] at hns
    have hel := readBuf_eq (by simp) h4
    rw [ElidedChildren.length_toBytes] at hel
    have hne : WAL_ENTRY_TAG_UPDATE ≠ WAL_ENTRY_TAG_END ∧ WAL_ENTRY_TAG_UPDATE ≠ WAL_ENTRY_TAG_CLEAR :=
      by decide
    simp only [readEntry, readByte_eq h, bind, Except.bind, if_neg hne.1, if_neg hne.2, if_true,
      hid', hdiff, PageDiff.fromBytes_asBytes hc, hns, hel, readU64_eq h5, pure, Except.pure,
      ElidedChildren.fromBytes_toBytes]
    simp only [skip_skip, WalEntry.encode, List.length_cons, List.length_append, hid,
      PageDiff.length_asBytes, ElidedChildren.length_toBytes, length_leBytes]
    congr 3
    omega

theorem readEntry_end (h : r.wal.drop r.offset = WAL_ENTRY_TAG_END :: rest) :
    r.readEntry = .ok (none, r.skip 1) := by
  simp only [readEntry, readByte_eq h, bind, Except.bind, if_true, pure, Except.pure]

/-- After a run of well-formed entries and the `END` tag, `read_entry` yields the entries and then
`None`. -/
theorem readEntries_flatMap {entries : List WalEntry} (hwf : ∀ e ∈ entries, e.WellFormed)
    (h : r.wal.drop r.offset = entries.flatMap WalEntry.encode ++ WAL_ENTRY_TAG_END :: rest) :
    readEntries (entries.length + 1) r = some (.ok entries) := by
  induction entries generalizing r with
  | nil => simp [readEntries, readEntry_end h]
  | cons e entries ih =>
    rw [List.flatMap_cons, List.append_assoc] at h
    have hrest := ih (fun e' he' => hwf e' (List.mem_cons_of_mem _ he')) (drop_skip h)
    rw [List.length_cons, readEntries, readEntry_encode (hwf e List.mem_cons_self) h]
    simp [hrest, Except.map]

/-- The reader finds the sync sequence number of a blob, then each of its entries in order, then
`None`. -/
theorem read_build (syncSeqn : UInt32) {entries : List WalEntry}
    (hwf : ∀ e ∈ entries, e.WellFormed) :
    ∃ r, new (WalBlobBuilder.build syncSeqn entries).asSlice = .ok r ∧ r.syncSeqn = syncSeqn ∧
      readEntries (entries.length + 1) r = some (.ok entries) := by
  obtain ⟨padding, hblob⟩ := WalBlobBuilder.asSlice_build syncSeqn entries
  set r₀ : WalBlobReader := ⟨(WalBlobBuilder.build syncSeqn entries).asSlice, 0, 0⟩
  have h₀ : r₀.wal.drop r₀.offset = [WAL_ENTRY_TAG_START] ++
      (leBytes syncSeqn.toNat 4 ++ (entries.flatMap WalEntry.encode ++ WAL_ENTRY_TAG_END :: padding)) := by
    simp [r₀, hblob]
  have h₁ := drop_skip h₀
  rw [List.length_singleton] at h₁
  have h₂ := drop_skip h₁
  rw [length_leBytes] at h₂
  refine ⟨{ (r₀.skip 1).skip 4 with syncSeqn := syncSeqn }, ?_, rfl,
    readEntries_flatMap hwf h₂⟩
  rw [new, if_neg (by simp [WalBlobBuilder.asSlice, WalBlobBuilder.build,
    WalBlobBuilder.length_finalize])]
  change readStart r₀ = _
  simp only [readStart, readByte_eq h₀, bind, Except.bind, if_true, readU32_eq h₁, pure,
    Except.pure]

/-- More calls of `read_entry` read the same entries. -/
theorem readEntries_of_le {fuel fuel' : Nat} {r : WalBlobReader}
    {x : Except ReadError (List WalEntry)} (h : readEntries fuel r = some x) (hle : fuel ≤ fuel') :
    readEntries fuel' r = some x := by
  induction fuel generalizing fuel' r x with
  | zero => cases h
  | succ fuel ih =>
    obtain ⟨fuel', rfl⟩ : ∃ f, fuel' = f + 1 := ⟨fuel' - 1, by omega⟩
    rw [readEntries] at h ⊢
    rcases hr : r.readEntry with e | ⟨_ | e, r'⟩ <;> rw [hr] at h
    · exact h
    · exact h
    · obtain ⟨y, hy, rfl⟩ := Option.map_eq_some_iff.mp h
      dsimp only
      rw [ih hy (Nat.le_of_succ_le_succ hle)]
      rfl

/-- Each entry takes at least its tag byte, so a blob is longer than its list of entries. -/
theorem length_le_asSlice_build (syncSeqn : UInt32) (entries : List WalEntry) :
    entries.length ≤ (WalBlobBuilder.build syncSeqn entries).asSlice.length := by
  have hentries : entries.length ≤ (entries.flatMap WalEntry.encode).length := by
    induction entries with
    | nil => exact Nat.le_refl 0
    | cons e entries ih =>
      have he : 1 ≤ e.encode.length := by
        cases e <;> simp [WalEntry.encode]
      rw [List.flatMap_cons, List.length_append, List.length_cons]
      omega
  obtain ⟨padding, hblob⟩ := WalBlobBuilder.asSlice_build syncSeqn entries
  rw [hblob]
  simp only [List.cons_append, List.length_cons, List.length_append]
  omega

end WalBlobReader

end Nomt.Wal

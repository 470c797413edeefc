import Nomt.Store.Seglog
import Nomt.Lib.ByteOrder

/-!
# Segment files (`nomt/src/seglog/segment_rw.rs`, the byte level of `nomt/src/seglog/mod.rs`)

`SegmentFileWriter` appends a record as a 12-byte header (the payload length as a little-endian
`u32`, the record ID as a little-endian `u64`), the payload, and zeros up to the next multiple of
`RECORD_ALIGNMENT` (`set_len`); `append` then calls `fsync`. `SegmentFileReader` reads a header
whenever the position of the next record is below the file size, with `read_exact`, and then reads
or skips the payload by seeking to the next aligned position.

`open` scans every record of every segment file with the live range the manifest holds (the scan of
`Seglog.openLog`), removes the segment files outside the live range and truncates the last one
after the live end. Here the files are their bytes: `openFiles` gives the records passed to
`process_record` and the segment files left, or the error of `open`.

A crash during `append` leaves the head segment file cut anywhere in the bytes written since the
last `fsync`. A file cut inside the header of the next record (`tornHeader`) is longer than the
position of that record, so the scan reads a header there, `read_exact` finds the end of the file,
and `open` fails with the live range the manifest holds (`openFiles_torn_header`). A file cut after
the header is read to the end (a payload that is skipped is not read).
-/

namespace Nomt.Seglog

open ByteOrder

/-! ### Writing -/

/-- The header `write_header` writes. -/
def encodeHeader (payloadLength recordId : Nat) : List UInt8 :=
  leBytes payloadLength 4 ++ leBytes recordId 8

/-- The file after `write_header` and `write_payload` of a record: header, payload, and zeros up
to the next aligned position. -/
def writeRecord (file : List UInt8) (record : Record) : List UInt8 :=
  let file := file ++ encodeHeader record.2.length record.1 ++ record.2
  file ++ List.replicate (alignUp file.length - file.length) 0

/-- A segment file holding `records`, as `append` writes it. -/
def encodeFile (records : List Record) : List UInt8 := records.foldl writeRecord []

/-- The head segment file after a crash during `append` of `record` onto the file `file` that
the last `fsync` left: the first `k` bytes written since then survive. -/
def crashDuringAppend (file : List UInt8) (record : Record) (k : Nat) : List UInt8 :=
  (writeRecord file record).take (file.length + k)

/-- The bytes of a record written at an aligned position. -/
def recordBytes (record : Record) : List UInt8 :=
  encodeHeader record.2.length record.1 ++ record.2 ++
    List.replicate (alignUp (HEADER_SIZE + record.2.length) - (HEADER_SIZE + record.2.length)) 0

theorem alignUp_eq (pos : Nat) :
    alignUp pos = (pos + RECORD_ALIGNMENT - 1) / RECORD_ALIGNMENT * RECORD_ALIGNMENT := by
  unfold alignUp
  split
  · simp only [RECORD_ALIGNMENT] at *
    omega
  · simp only [RECORD_ALIGNMENT] at *
    omega

theorem alignUp_add {base : Nat} (hbase : base % RECORD_ALIGNMENT = 0) (x : Nat) :
    alignUp (base + x) = base + alignUp x := by
  simp only [alignUp_eq, RECORD_ALIGNMENT] at hbase ⊢
  omega

theorem le_alignUp (pos : Nat) : pos ≤ alignUp pos := by
  rw [alignUp_eq, RECORD_ALIGNMENT]
  omega

theorem alignUp_mod (pos : Nat) : alignUp pos % RECORD_ALIGNMENT = 0 := by
  rw [alignUp_eq]
  exact Nat.mul_mod_left _ _

@[simp] theorem length_encodeHeader (payloadLength recordId : Nat) :
    (encodeHeader payloadLength recordId).length = HEADER_SIZE := by
  simp [encodeHeader, HEADER_SIZE]

theorem length_recordBytes (record : Record) :
    (recordBytes record).length = alignUp (HEADER_SIZE + record.2.length) := by
  have := le_alignUp (HEADER_SIZE + record.2.length)
  simp only [recordBytes, List.length_append, length_encodeHeader, List.length_replicate]
  omega

/-- At an aligned position a record is written as its bytes. -/
theorem writeRecord_of_aligned {file : List UInt8} (hfile : file.length % RECORD_ALIGNMENT = 0)
    (record : Record) : writeRecord file record = file ++ recordBytes record := by
  simp only [writeRecord, recordBytes, List.length_append, length_encodeHeader, List.append_assoc,
    alignUp_add hfile, Nat.add_sub_add_left]

theorem encodeFile_append_singleton (records : List Record) (record : Record) :
    encodeFile (records ++ [record]) = writeRecord (encodeFile records) record := by
  simp [encodeFile]

theorem length_encodeFile_mod (records : List Record) :
    (encodeFile records).length % RECORD_ALIGNMENT = 0 := by
  induction records using List.reverseRecOn with
  | nil => rfl
  | append_singleton records record ih =>
    rw [encodeFile_append_singleton, writeRecord_of_aligned ih, List.length_append,
      length_recordBytes, Nat.add_mod, ih, alignUp_mod]
    rfl

theorem encodeFile_eq_flatMap (records : List Record) :
    encodeFile records = records.flatMap recordBytes := by
  induction records using List.reverseRecOn with
  | nil => rfl
  | append_singleton records record ih =>
    rw [encodeFile_append_singleton, writeRecord_of_aligned (length_encodeFile_mod records), ih,
      List.flatMap_append, List.flatMap_singleton]

/-- A crash during `append` at an aligned end of file leaves the first `k` bytes of the record. -/
theorem crashDuringAppend_of_aligned {file : List UInt8} (hfile : file.length % RECORD_ALIGNMENT = 0)
    (record : Record) (k : Nat) :
    crashDuringAppend file record k = file ++ (recordBytes record).take k := by
  rw [crashDuringAppend, writeRecord_of_aligned hfile, List.take_append, List.take_of_length_le (by omega),
    Nat.add_sub_cancel_left]

theorem length_take_recordBytes {record : Record} {k : Nat} (hk : k < HEADER_SIZE) :
    ((recordBytes record).take k).length = k := by
  have := le_alignUp (HEADER_SIZE + record.2.length)
  rw [List.length_take, length_recordBytes]
  omega

/-! ### Reading -/

/-- `read_exact` of `n` bytes at `pos`. -/
def readExact (file : List UInt8) (pos n : Nat) : Except Error (List UInt8) :=
  if pos + n ≤ file.length then .ok ((file.drop pos).take n) else .error .unexpectedEof

/-- `SegmentFileReader::read_header` at the position `pos` of the next record: nothing at the end
of the file, or the payload length, the record ID and the position of the record after it. -/
def readHeader (file : List UInt8) (pos : Nat) : Except Error (Option (Nat × Nat × Nat)) :=
  if file.length ≤ pos then .ok none
  else do
    let header ← readExact file pos HEADER_SIZE
    let payloadLength := ofLeBytes (header.take 4)
    if payloadLength > MAX_RECORD_PAYLOAD_SIZE then throw .payloadLengthTooLarge
    -- records span an integer number of pages
    let curPos := pos + HEADER_SIZE
    pure (some (payloadLength, ofLeBytes (header.drop 4),
      (curPos + payloadLength + RECORD_ALIGNMENT - 1) / RECORD_ALIGNMENT * RECORD_ALIGNMENT))

/-- A header read moves past the header: the position of the next record is beyond it. -/
theorem readHeader_eq_some {file : List UInt8} {pos payloadLength recordId nextPos : Nat}
    (h : readHeader file pos = .ok (some (payloadLength, recordId, nextPos))) :
    pos < file.length ∧ pos + HEADER_SIZE ≤ nextPos := by
  unfold readHeader at h
  split_ifs at h with hend
  · cases h
  cases hread : readExact file pos HEADER_SIZE with
  | error e =>
    rw [hread] at h
    cases h
  | ok header =>
    rw [hread] at h
    dsimp only [bind, Except.bind] at h
    -- a payload length over the bound is an error, not a header
    split_ifs at h
    cases h
    refine ⟨Nat.lt_of_not_le hend, ?_⟩
    simp only [RECORD_ALIGNMENT, HEADER_SIZE]
    omega

/-- A file that ends inside the header of the next record fails `read_exact`. -/
theorem readHeader_torn {file : List UInt8} {pos : Nat} (hpos : pos < file.length)
    (hshort : file.length < pos + HEADER_SIZE) : readHeader file pos = .error .unexpectedEof := by
  unfold readHeader
  rw [if_neg (Nat.not_le.mpr hpos)]
  simp only [readExact, if_neg (Nat.not_le.mpr hshort)]
  rfl

/-- The header of a record written at an aligned position reads back its payload length, its
record ID as a `u64`, and the position after its padding. -/
theorem readHeader_recordBytes {A C : List UInt8} (hA : A.length % RECORD_ALIGNMENT = 0)
    {record : Record} (hlen : record.2.length ≤ MAX_RECORD_PAYLOAD_SIZE) :
    readHeader (A ++ recordBytes record ++ C) A.length =
      .ok (some (record.2.length, record.1 % 256 ^ 8, A.length + (recordBytes record).length)) := by
  have hrec := length_recordBytes record
  have hal := le_alignUp (HEADER_SIZE + record.2.length)
  have h12 : HEADER_SIZE = 12 := rfl
  have hhead : ((A ++ recordBytes record ++ C).drop A.length).take HEADER_SIZE =
      encodeHeader record.2.length record.1 := by
    rw [List.append_assoc, List.drop_left, recordBytes, List.append_assoc, List.append_assoc,
      List.take_append_of_le_length (by simp), List.take_of_length_le (by simp)]
  have hlen' : ofLeBytes ((encodeHeader record.2.length record.1).take 4) = record.2.length := by
    rw [encodeHeader, List.take_left' (by simp), ofLeBytes_leBytes]
    exact Nat.mod_eq_of_lt (Nat.lt_of_le_of_lt hlen (by decide))
  have hid : ofLeBytes ((encodeHeader record.2.length record.1).drop 4) = record.1 % 256 ^ 8 := by
    rw [encodeHeader, List.drop_left' (by simp), ofLeBytes_leBytes]
  unfold readHeader
  rw [if_neg (by simp only [List.length_append]; omega)]
  simp only [readExact, if_pos (show A.length + HEADER_SIZE ≤ (A ++ recordBytes record ++ C).length by
    simp only [List.length_append]; omega), hhead, bind, Except.bind, hlen', hid,
    if_neg (Nat.not_lt.mpr hlen)]
  -- the next record starts at the aligned end of this one
  have hnext : (A.length + HEADER_SIZE + record.2.length + RECORD_ALIGNMENT - 1) / RECORD_ALIGNMENT *
      RECORD_ALIGNMENT = A.length + alignUp (HEADER_SIZE + record.2.length) := by
    rw [alignUp_eq]
    simp only [RECORD_ALIGNMENT, HEADER_SIZE] at hA ⊢
    omega
  rw [hrec, hnext]
  rfl

theorem readExact_payload (A C : List UInt8) (record : Record) :
    readExact (A ++ recordBytes record ++ C) (A.length + HEADER_SIZE) record.2.length =
      .ok record.2 := by
  have hfile : A ++ recordBytes record ++ C = (A ++ encodeHeader record.2.length record.1) ++
      (record.2 ++ (List.replicate (alignUp (HEADER_SIZE + record.2.length) -
        (HEADER_SIZE + record.2.length)) 0 ++ C)) := by
    simp [recordBytes]
  have hlen : (A ++ encodeHeader record.2.length record.1).length = A.length + HEADER_SIZE := by simp
  unfold readExact
  rw [if_pos (by rw [hfile, List.length_append, hlen, List.length_append]; omega), hfile,
    ← hlen, List.drop_left, List.take_left' rfl]

namespace Recovery

-- the hypothesis named in the body is for `decreasing_by`
set_option linter.unusedVariables false in
/-- The loop of `Recovery::scan_segment` over the bytes of segment file `segmentIndex`, from the
record at `pos`, after the record `last`: the records passed to `process_record`, the IDs of the
records read, and the new tracking. A processed payload is read with `read_exact`, another one is
skipped. -/
def scanFile (segmentIndex : Nat) (file : List UInt8) (pos : Nat) (last : Option Nat)
    (r : Recovery) : Except Error (List Record × List Nat × Recovery) :=
  match h : readHeader file pos with
  | .error e => .error e
  | .ok none => .ok ([], [], r)
  | .ok (some (payloadLength, recordId, nextPos)) =>
    if last.any (fun l => recordId ≠ l + 1) then .error .recordIdsNotOrdered
    else
      let (process, r) := r.onNextRecord segmentIndex recordId
      let payload := if process then
          (readExact file (pos + HEADER_SIZE) payloadLength).map fun p => [(recordId, p)]
        else .ok []
      match payload with
      | .error e => .error e
      | .ok out =>
        match scanFile segmentIndex file nextPos (some recordId) r with
        | .error e => .error e
        | .ok (out', ids, r) => .ok (out ++ out', recordId :: ids, r)
termination_by file.length - pos
decreasing_by
  have := readHeader_eq_some h
  simp only [HEADER_SIZE] at this
  omega

/-- Scanning a segment file whose records are followed by a torn header fails: each record moves the
scan to the next aligned position, and the last one to the torn header. -/
theorem scanFile_torn {i : Nat} {T : List UInt8} (hT : 0 < T.length) (hT' : T.length < HEADER_SIZE)
    (rest : List Record) (hrest : ∀ x ∈ rest, x.2.length ≤ MAX_RECORD_PAYLOAD_SIZE) :
    ∀ (A : List UInt8) (last : Option Nat) (r : Recovery), A.length % RECORD_ALIGNMENT = 0 →
      ∃ e, scanFile i (A ++ rest.flatMap recordBytes ++ T) A.length last r = .error e := by
  induction rest with
  | nil =>
    intro A last r hA
    have htorn : readHeader (A ++ [].flatMap recordBytes ++ T) A.length = .error .unexpectedEof :=
      readHeader_torn (by simp; omega) (by simp; omega)
    rw [scanFile]
    split
    next e heq => exact ⟨e, rfl⟩
    next heq => rw [htorn] at heq; cases heq
    next heq => rw [htorn] at heq; cases heq
  | cons x rest ih =>
    intro A last r hA
    have hfile : A ++ (x :: rest).flatMap recordBytes ++ T =
        A ++ recordBytes x ++ (rest.flatMap recordBytes ++ T) := by
      simp
    have hheader := readHeader_recordBytes (C := rest.flatMap recordBytes ++ T) hA
      (hrest x (List.mem_cons_self ..))
    rw [← hfile] at hheader
    rw [scanFile]
    split
    next e heq => exact ⟨e, rfl⟩
    next heq => rw [hheader] at heq; cases heq
    next payloadLength recordId nextPos heq =>
      rw [hheader] at heq
      cases heq
      split_ifs with hord
      · exact ⟨_, rfl⟩
      -- the scan from the next record fails, whatever this one did
      have hA' : (A ++ recordBytes x).length % RECORD_ALIGNMENT = 0 := by
        rw [List.length_append, length_recordBytes, Nat.add_mod, hA, alignUp_mod]
        rfl
      obtain ⟨process, r'⟩ := r.onNextRecord i (x.1 % 256 ^ 8)
      obtain ⟨e', he'⟩ := ih (fun y hy => hrest y (List.mem_cons_of_mem _ hy)) (A ++ recordBytes x)
        (some (x.1 % 256 ^ 8)) r' hA'
      have hfile' : A ++ recordBytes x ++ rest.flatMap recordBytes ++ T =
          A ++ (x :: rest).flatMap recordBytes ++ T := by
        simp
      rw [hfile', List.length_append] at he'
      refine ⟨e', ?_⟩
      dsimp only
      rw [hfile, readExact_payload, ← hfile, he']
      cases process <;> rfl

/-- `scan_segment` over every segment file in turn, the first at index `i`: the records passed
to `process_record`, the IDs read from each file, and the tracking. -/
def scanFiles : Nat → List (Nat × List UInt8) → Recovery →
    Except Error (List Record × List (List Nat) × Recovery)
  | _, [], r => .ok ([], [], r)
  | i, file :: rest, r =>
    match scanFile i file.2 0 none r with
    | .error e => .error e
    | .ok (out, ids, r) =>
      match scanFiles (i + 1) rest r with
      | .error e => .error e
      | .ok (out', ids', r) => .ok (out ++ out', ids :: ids', r)

/-- The scan of the segment files fails if the scan of the last one fails, whatever the others
leave of the tracking. -/
theorem scanFiles_append_error {files : List (Nat × List UInt8)} {file : Nat × List UInt8}
    (hfile : ∀ r, ∃ e, scanFile (i + files.length) file.2 0 none r = .error e) (r : Recovery) :
    ∃ e, scanFiles i (files ++ [file]) r = .error e := by
  induction files generalizing i r with
  | nil =>
    obtain ⟨e, he⟩ := hfile r
    rw [List.length_nil, Nat.add_zero] at he
    exact ⟨e, by rw [List.nil_append, scanFiles, he]⟩
  | cons f files ih =>
    rw [List.cons_append, scanFiles]
    split
    next e _ => exact ⟨e, rfl⟩
    next out ids r' _ =>
      obtain ⟨e, he⟩ := ih (i := i + 1) (by simpa [Nat.add_assoc, Nat.add_comm 1] using hfile) r'
      exact ⟨e, by rw [he]⟩

end Recovery

-- the hypothesis named in the body is for `decreasing_by`
set_option linter.unusedVariables false in
/-- `scan_record_end` on the bytes of a segment file, from the record at `pos`: the end of the
record with ID `endLive`, after its padding. -/
def scanRecordEndFile (file : List UInt8) (endLive pos : Nat) : Except Error (Option Nat) :=
  match h : readHeader file pos with
  | .error e => .error e
  | .ok none => .ok none
  | .ok (some (_, recordId, nextPos)) =>
    if recordId = endLive then .ok (some nextPos) else scanRecordEndFile file endLive nextPos
termination_by file.length - pos
decreasing_by
  have := readHeader_eq_some h
  simp only [HEADER_SIZE] at this
  omega

/-- `open` on the segment files' bytes, in ascending ID order, with the live range of the
manifest: the records passed to `process_record`, in order, and the segment files left, the last
one truncated after the live end. -/
def openFiles (files : List (Nat × List UInt8)) (startLive endLive : Nat) :
    Except Error (List Record × List (Nat × List UInt8)) := do
  if (startLive = 0) ≠ (endLive = 0) then throw .liveRangeHalfNil
  checkSegmentIds none (files.map fun file => (file.1, []))
  let r₀ : Recovery := ⟨startLive, endLive, none, none⟩
  let (processed, _, r) ← if startLive = 0 then pure ([], [], r₀)
    else Recovery.scanFiles 0 files r₀
  if startLive ≠ 0 ∧ r.liveSegmentStart.isNone then throw .noFirstLiveSegment
  if startLive ≠ 0 ∧ r.liveSegmentEnd.isNone then throw .noLastLiveSegment
  -- `remove_nonlive_segments`
  let live ← match r.liveSegmentStart, r.liveSegmentEnd with
    | none, none => pure []
    | some s, some e => pure ((files.drop s).take (e + 1 - s))
    | _, _ => throw .invalidLiveSegmentIndices
  -- `truncate_head_segment`
  let live ← match live.getLast? with
    | none => pure []
    | some head =>
      match ← scanRecordEndFile head.2 endLive 0 with
      | none => throw .lastLiveRecordNotFound
      | some stop => pure (live.modifyLast fun file => (file.1, file.2.take stop))
  pure (processed, live)

/-- `open` fails whenever the scan of the segment files fails. -/
theorem openFiles_error_of_scanFiles {files : List (Nat × List UInt8)} {startLive endLive : Nat}
    (hstart : startLive ≠ 0)
    (hscan : ∃ e, Recovery.scanFiles 0 files ⟨startLive, endLive, none, none⟩ = .error e) :
    ∃ e, openFiles files startLive endLive = .error e := by
  obtain ⟨e, he⟩ := hscan
  unfold openFiles
  simp only [bind, Except.bind, hstart, if_false]
  split_ifs
  · exact ⟨_, rfl⟩
  · split
    · exact ⟨_, rfl⟩
    · simp only [he]
      exact ⟨_, rfl⟩

/-- A crash during `append` inside the header of the next record: whatever the segment files
before the head, `open` fails with any nonempty live range. -/
theorem openFiles_torn_header (files : List (Nat × List UInt8)) (segmentId : Nat)
    (records : List Record) (next : Record) (startLive endLive k : Nat)
    (hrecords : ∀ record ∈ records, record.2.length ≤ MAX_RECORD_PAYLOAD_SIZE)
    (hstart : startLive ≠ 0) (hk : 0 < k) (hk' : k < HEADER_SIZE) :
    ∃ e, openFiles (files ++ [(segmentId, crashDuringAppend (encodeFile records) next k)])
      startLive endLive = .error e := by
  refine openFiles_error_of_scanFiles hstart (Recovery.scanFiles_append_error (fun r => ?_) _)
  rw [crashDuringAppend_of_aligned (length_encodeFile_mod records), encodeFile_eq_flatMap,
    ← List.nil_append (records.flatMap recordBytes)]
  exact Recovery.scanFile_torn (by rw [length_take_recordBytes hk']; exact hk)
    (by rw [length_take_recordBytes hk']; exact hk') records hrecords [] none r rfl

/-- One record appended and persisted with the live range `(1, 1)`, and a crash after 5 of the 12
header bytes of the second. -/
theorem openFiles_torn_header_second_append :
    ∃ e, openFiles [(1, crashDuringAppend (encodeFile [(1, [7])]) (2, [8]) 5)] 1 1 = .error e :=
  openFiles_torn_header [] 1 [(1, [7])] (2, [8]) 1 1 5 (by decide) (by decide) (by decide)
    (by decide)

example : openFiles [(1, crashDuringAppend (encodeFile [(1, [7])]) (2, [8]) 5)] 1 1 =
    .error .unexpectedEof := by
  decide +kernel

end Nomt.Seglog

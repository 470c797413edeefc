import Mathlib.Data.List.ModifyLast

/-!
# The segmented log (`nomt/src/seglog/mod.rs`)

An append-only log of records numbered `1, 2, …`, kept in segment files of bounded size. The log
knows its live range `(start_live, end_live)` (`(0, 0)` when empty). `prune_oldest` moves the live
start up and deletes the segment files wholly before it; `prune_recent` moves the live end down,
deleting the later segment files and truncating the one holding the new end after it. Nothing
else is deleted: records before the live start stay in a segment file as long as a live record
shares the file.

`open` recovers the log from the segment files and the live range the manifest recorded. It scans
every record, passes on those from the first record at or after the live start to the first at or
after the live end, keeps the segment files between the two and truncates the last one after the
live end.

The model keeps each segment's file as its list of records next to the `min` and `max` the log
tracks for it; record and segment IDs are unbounded numbers (`u64`, `u32` in the source: the wraps
after `2 ^ 64` records or `2 ^ 32` segments are not modelled). I/O errors other than the ones the
code raises itself, and the files a failed call has already deleted, are not modelled.
-/

namespace Nomt.Seglog

/-- `MAX_RECORD_PAYLOAD_SIZE`. -/
def MAX_RECORD_PAYLOAD_SIZE : Nat := 1 <<< 30

/-- `RECORD_ALIGNMENT`. -/
def RECORD_ALIGNMENT : Nat := 4096

/-- `HEADER_SIZE`: the payload length and the record ID. -/
def HEADER_SIZE : Nat := 12

/-- A record of a segment file: its ID and its payload. -/
abbrev Record := Nat × List UInt8

/-- The end of a record whose payload ends at `pos`, padded to the record alignment
(`SegmentFileWriter::write_payload`). -/
def alignUp (pos : Nat) : Nat :=
  if pos % RECORD_ALIGNMENT = 0 then pos else (pos / RECORD_ALIGNMENT + 1) * RECORD_ALIGNMENT

/-- The size of a segment file holding `records`, which `SegmentFileWriter::file_size` tracks:
each record is a header, its payload and the padding. -/
def fileSize (records : List Record) : Nat :=
  records.foldl (fun pos r => alignUp (pos + HEADER_SIZE + r.2.length)) 0

/-- `Segment`, with the records of its file. -/
structure Segment where
  id : Nat
  min : Nat
  max : Nat
  records : List Record
deriving DecidableEq, Repr, Inhabited

/-- A segment file as `Recovery::scan_segment` finds it: `min` and `max` are the first and last
record IDs (the IDs of a file are consecutive), `0` for an empty file. -/
def Segment.ofFile (id : Nat) (records : List Record) : Segment :=
  ⟨id, (records.head?.map Prod.fst).getD 0, (records.getLast?.map Prod.fst).getD 0, records⟩

/-- The head segment after a record is written to it (`append`). -/
def Segment.push (seg : Segment) (recordId : Nat) (data : List UInt8) : Segment :=
  { seg with
    records := seg.records ++ [(recordId, data)]
    min := if seg.min = 0 then recordId else seg.min
    max := recordId }

/-- `SegmentedLog`. `headOpen` says whether `head_segment_writer` is set; its file is the last
segment's. -/
structure SegmentedLog where
  maxSegmentSize : Nat
  startLive : Nat
  endLive : Nat
  segments : List Segment
  headOpen : Bool
deriving DecidableEq, Repr

/-- The errors of the segmented log, and the panics of `prune_oldest`. -/
inductive Error
  /-- "Record payload size is too large". -/
  | payloadTooLarge
  /-- A panic of `prune_oldest`: the new live start lies outside the live range. -/
  | pruneOutOfRange
  /-- "Start live and end live must both be nil or both be non-nil". -/
  | liveRangeHalfNil
  /-- "Segment ID is nil". -/
  | segmentIdNil
  /-- "Gap in segment IDs". -/
  | segmentIdGap
  /-- "IDs are not ordered". -/
  | recordIdsNotOrdered
  /-- "Failed to find the first live segment". -/
  | noFirstLiveSegment
  /-- "Failed to find the last live segment". -/
  | noLastLiveSegment
  /-- "Invalid live segment indices". -/
  | invalidLiveSegmentIndices
  /-- "Failed to find the last live record in the head segment". -/
  | lastLiveRecordNotFound
  /-- "Record payload length is too large", of `SegmentFileReader::read_header`. -/
  | payloadLengthTooLarge
  /-- `read_exact` reaching the end of the file (`ErrorKind::UnexpectedEof`). -/
  | unexpectedEof
deriving DecidableEq, Repr

/-- `scan_record_end` with the truncation of `truncate_head_segment`: the records of a segment file
up to the one with ID `endLive`, if the file holds it. -/
def scanRecordEnd (endLive : Nat) : List Record → Option (List Record)
  | [] => none
  | r :: rest => if r.1 = endLive then some [r] else (scanRecordEnd endLive rest).map (r :: ·)

namespace SegmentedLog

/-- `SegmentedLog::live_range`. -/
def liveRange (log : SegmentedLog) : Nat × Nat := (log.startLive, log.endLive)

/-- The segment files: their IDs and records, oldest first. -/
def files (log : SegmentedLog) : List (Nat × List Record) :=
  log.segments.map fun seg => (seg.id, seg.records)

/-- `SegmentedLog::gen_segment_id`. -/
def genSegmentId (log : SegmentedLog) : Nat :=
  (log.segments.getLast?.map Segment.id).getD 0 + 1

/-- `SegmentedLog::create_segment`: a new, empty head segment file. -/
def createSegment (log : SegmentedLog) (min : Nat) : SegmentedLog :=
  { log with segments := log.segments ++ [⟨log.genSegmentId, min, min, []⟩], headOpen := true }

/-- Whether `append` opens a new head segment: there is no head writer, or its file has reached
`max_segment_size`. -/
def needsSegment (log : SegmentedLog) : Bool :=
  !log.headOpen ||
    decide (log.maxSegmentSize ≤ fileSize ((log.segments.getLast?.map Segment.records).getD []))

/-- `SegmentedLog::append`: the record gets the ID after the live end. -/
def append (log : SegmentedLog) (data : List UInt8) : Except Error (SegmentedLog × Nat) :=
  if data.length > MAX_RECORD_PAYLOAD_SIZE then .error .payloadTooLarge
  else
    let recordId := log.endLive + 1
    let log := if log.needsSegment then log.createSegment recordId else log
    .ok ({ log with
      segments := log.segments.modifyLast (·.push recordId data)
      endLive := recordId
      startLive := if log.startLive = 0 then recordId else log.startLive }, recordId)

/-- `remove_all_segments`, with the live range reset to `(0, 0)`. -/
def clear (log : SegmentedLog) : SegmentedLog :=
  { log with startLive := 0, endLive := 0, segments := [], headOpen := false }

/-- The loop of `prune_oldest`: delete the oldest segment while it is not the last one and ends
before the new live start. -/
def dropOldSegments (newStartLive : Nat) : List Segment → List Segment
  | s :: s' :: rest =>
    if s.max ≥ newStartLive then s :: s' :: rest else dropOldSegments newStartLive (s' :: rest)
  | segments => segments

/-- `SegmentedLog::prune_oldest`. -/
def pruneOldest (log : SegmentedLog) (newStartLive : Nat) : Except Error SegmentedLog :=
  if newStartLive = 0 then .ok log.clear
  else if log.segments.isEmpty then .ok log
  else if newStartLive > log.endLive ∨ newStartLive < log.startLive then .error .pruneOutOfRange
  else .ok { log with
    startLive := newStartLive
    segments := dropOldSegments newStartLive log.segments }

/-- The loop of `prune_recent` locating the segment of the new live end: from index `i` down to
`1`, the first segment whose `min` is at most the new live end, or else the oldest. -/
def locateSegment (segments : List Segment) (newEndLive : Nat) : Nat → Nat
  | 0 => 0
  | i + 1 => if segments[i + 1]!.min ≤ newEndLive then i + 1 else locateSegment segments newEndLive i

/-- `SegmentedLog::prune_recent`. The segments after the located one are deleted, and its file is
truncated after the new live end, which it must hold. -/
def pruneRecent (log : SegmentedLog) (newEndLive : Nat) : Except Error SegmentedLog :=
  if newEndLive = 0 then .ok log.clear
  else if log.segments.isEmpty then .ok log
  else
    let segIndex := locateSegment log.segments newEndLive (log.segments.length - 1)
    let segments := log.segments.take (segIndex + 1)
    match scanRecordEnd newEndLive segments[segIndex]!.records with
    | none => .error .lastLiveRecordNotFound
    | some records => .ok { log with
        segments := segments.modifyLast fun seg => { seg with records, max := newEndLive }
        endLive := newEndLive
        headOpen := true }

end SegmentedLog

/-! ### Recovery -/

/-- The live-range tracking of `Recovery` while it scans the records. -/
structure Recovery where
  startLive : Nat
  endLive : Nat
  liveSegmentStart : Option Nat
  liveSegmentEnd : Option Nat
deriving DecidableEq, Repr

namespace Recovery

/-- `Recovery::is_live`. -/
def isLive (r : Recovery) : Bool :=
  r.startLive != 0 && r.liveSegmentStart.isSome && r.liveSegmentEnd.isNone

/-- `Recovery::enter_live`. -/
def enterLive (r : Recovery) (segmentIndex recordId : Nat) : Bool × Recovery :=
  if r.startLive = 0 then (false, r)
  else if r.liveSegmentStart.isNone ∧ recordId ≥ r.startLive then
    (true, { r with liveSegmentStart := some segmentIndex })
  else (false, r)

/-- `Recovery::exit_live`. -/
def exitLive (r : Recovery) (segmentIndex recordId : Nat) : Bool × Recovery :=
  if r.startLive = 0 then (false, r)
  else if r.isLive ∧ r.liveSegmentEnd.isNone ∧ recordId ≥ r.endLive then
    (true, { r with liveSegmentEnd := some segmentIndex })
  else (false, r)

/-- `Recovery::on_next_record`: whether the record is passed to `process_record`, and the new
tracking. -/
def onNextRecord (r : Recovery) (segmentIndex recordId : Nat) : Bool × Recovery :=
  let wasLive := r.isLive
  let (becameLive, r) := r.enterLive segmentIndex recordId
  let (becameNonlive, r) := r.exitLive segmentIndex recordId
  (wasLive || becameLive || becameNonlive, r)

/-- The loop of `Recovery::scan_segment` over the records of one segment file, after the record
`last`: the records passed to `process_record`, and the new tracking. -/
def scanRecords (segmentIndex : Nat) :
    Option Nat → List Record → Recovery → Except Error (List Record × Recovery)
  | _, [], r => .ok ([], r)
  | last, record :: rest, r =>
    if last.any (fun l => record.1 ≠ l + 1) then .error .recordIdsNotOrdered
    else
      let (process, r) := r.onNextRecord segmentIndex record.1
      match scanRecords segmentIndex (some record.1) rest r with
      | .error e => .error e
      | .ok (out, r) => .ok (if process then record :: out else out, r)

/-- `Recovery::scan_segment` over every segment file in turn, the first at index `i`. -/
def scanSegments : Nat → List (Nat × List Record) → Recovery → Except Error (List Record × Recovery)
  | _, [], r => .ok ([], r)
  | i, file :: rest, r =>
    match scanRecords i none file.2 r with
    | .error e => .error e
    | .ok (out, r) =>
      match scanSegments (i + 1) rest r with
      | .error e => .error e
      | .ok (out', r) => .ok (out ++ out', r)

end Recovery

/-- The checks of `Recovery::scan_root_dir` on the segment IDs, in ascending order: none is nil,
and each follows the one before. -/
def checkSegmentIds : Option Nat → List (Nat × List Record) → Except Error Unit
  | _, [] => .ok ()
  | prev, file :: rest =>
    if file.1 = 0 then .error .segmentIdNil
    else if prev.any (· ≠ file.1 - 1) then .error .segmentIdGap
    else checkSegmentIds (some file.1) rest

/-- `open`, from the segment files in ascending ID order and the live range of the manifest: the
recovered log, and the records passed to `process_record`, in order. -/
def openLog (maxSegmentSize : Nat) (files : List (Nat × List Record)) (startLive endLive : Nat) :
    Except Error (SegmentedLog × List Record) := do
  if (startLive = 0) ≠ (endLive = 0) then throw .liveRangeHalfNil
  checkSegmentIds none files
  let r₀ : Recovery := ⟨startLive, endLive, none, none⟩
  let (processed, r) ← if startLive = 0 then pure ([], r₀) else Recovery.scanSegments 0 files r₀
  if startLive ≠ 0 ∧ r.liveSegmentStart.isNone then throw .noFirstLiveSegment
  if startLive ≠ 0 ∧ r.liveSegmentEnd.isNone then throw .noLastLiveSegment
  let candidates := files.map fun file => Segment.ofFile file.1 file.2
  -- `remove_nonlive_segments`
  let live ← match r.liveSegmentStart, r.liveSegmentEnd with
    | none, none => pure []
    | some s, some e => pure ((candidates.drop s).take (e + 1 - s))
    | _, _ => throw .invalidLiveSegmentIndices
  -- the head segment is truncated after the live end
  let segments ← match live.getLast? with
    | none => pure []
    | some head =>
      match scanRecordEnd endLive head.records with
      | none => throw .lastLiveRecordNotFound
      | some records => pure (live.modifyLast fun seg => { seg with records, max := endLive })
  pure (⟨maxSegmentSize, startLive, endLive, segments, !segments.isEmpty⟩, processed)

end Nomt.Seglog

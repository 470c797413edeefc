import Mathlib.Data.List.Infix
import Nomt.Store.Delta
import Nomt.Store.Seglog

/-!
# The rollback log (`nomt/src/rollback/mod.rs`, `Nomt::rollback`)

Each commit of a database with rollback enabled appends the commit's delta to a segmented log
(`Seglog`) and keeps it in memory under its record ID. Every sync writes the log's live range
to the manifest (`writeout_start`) and then prunes the segmented log (`writeout_end`): the
oldest delta once the log is longer than `max_rollback_log_len`, or the records a rollback
removed. `Nomt::rollback(n)` pops the `n` newest deltas, writes back their merged priors
(`truncate`) and syncs, the truncation of the log pending until that sync.

What rollback is for is `History`: the current state and the states before each commit not
rolled back. Within one process the database implements it (`Db.Implements`): commits keep the
relation (`commit_implements`) and so do rollbacks (`rollback_implements`), which restore the
state before the last `n` commits for every `n` up to the number of deltas held.

Reopening reads the log back from the segment files and the manifest's range. After a rollback
of every delta held, the manifest's range is `(k - 1, k - 1)` for the oldest held record `k`
(`manifest_rollback_all`). When older records were pruned, record `k - 1` may still lie in a
segment file, and reopening brings its delta back.
-/

set_option linter.dupNamespace false

namespace Nomt.Rollback

open Undo Seglog

/-- `MAX_SEGMENT_SIZE` of the rollback log. -/
def MAX_SEGMENT_SIZE : Nat := 64 * 1024 * 1024

/-- `InMemory`: the deltas of the log with their record IDs, oldest first, and the live end a
pending truncation sets at the next sync. -/
structure InMemory where
  log : List (Nat × Delta)
  pendingTruncate : Option Nat

/-- `Rollback`, through its `Shared` state: the in-memory log, the segmented log and
`max_rollback_log_len`. -/
structure Rollback where
  inMemory : InMemory
  seglog : SegmentedLog
  maxRollbackLogLen : Nat

/-- The ways a rollback operation fails, and its panics. -/
inductive Error
  /-- An error of the segmented log. -/
  | seglog (e : Seglog.Error)
  /-- A record that does not decode as a delta. -/
  | decode (e : Delta.DecodeError)
  /-- "rollback: not enough logged for rolling back". -/
  | notEnoughLogged
  /-- A panic: `assert!(n > 0)` of `truncate`, or an `unwrap` of the previous record ID of nil. -/
  | panicked
deriving DecidableEq, Repr

/-- `WriteoutData`. -/
structure WriteoutData where
  rollbackStartLive : Nat
  rollbackEndLive : Nat
  pruneToNewStartLive : Option Nat
  pruneToNewEndLive : Option Nat

namespace Rollback

/-- `Rollback::commit`: the encoded delta is appended, and kept in memory under its record ID. -/
def commit (rb : Rollback) (delta : Delta) : Except Error Rollback :=
  match rb.seglog.append delta.encode with
  | .error e => .error (.seglog e)
  | .ok (seglog, recordId) =>
    .ok { rb with
      seglog
      inMemory := { rb.inMemory with log := rb.inMemory.log ++ [(recordId, delta)] } }

/-- `Rollback::truncate`. With fewer than `n` deltas held it returns `Ok(None)`. Otherwise it pops
the `n` newest deltas, merging their priors newest first so that an older delta's prior
replaces a newer one's (the traceback), and sets the pending truncation to the record before the
oldest of them. -/
def truncate (rb : Rollback) (n : Nat) :
    Except Error (Option (List (Key × Option Value) × Rollback)) :=
  if n = 0 then .error .panicked
  else if n > rb.inMemory.log.length then .ok none
  else
    let kept := rb.inMemory.log.take (rb.inMemory.log.length - n)
    let popped := (rb.inMemory.log.drop (rb.inMemory.log.length - n)).reverse
    let traceback := popped.foldl (fun t e => insertAll t e.2.priors) []
    match popped.getLast? with
    | some (earliest, _) =>
      if earliest = 0 then .error .panicked
      else .ok (some (traceback, { rb with inMemory := ⟨kept, some (earliest - 1)⟩ }))
    | none => .error .panicked

/-- `Rollback::writeout_start`: the live range for the manifest and the pruning for
`writeout_end`. A pending truncation takes precedence over everything else. -/
def writeoutStart (rb : Rollback) : WriteoutData × Rollback :=
  match rb.inMemory.pendingTruncate with
  | some pendingTruncate =>
    (⟨min rb.seglog.startLive pendingTruncate, pendingTruncate, none, some pendingTruncate⟩,
      { rb with inMemory := { rb.inMemory with pendingTruncate := none } })
  | none =>
    if rb.inMemory.log.length > rb.maxRollbackLogLen then
      match rb.inMemory.log with
      | (oldest, _) :: rest =>
        (⟨rb.seglog.startLive, rb.seglog.endLive, some (oldest + 1), none⟩,
          { rb with inMemory := { rb.inMemory with log := rest } })
      -- unreachable: the log is longer than the limit
      | [] => (⟨rb.seglog.startLive, rb.seglog.endLive, none, none⟩, rb)
    else (⟨rb.seglog.startLive, rb.seglog.endLive, none, none⟩, rb)

/-- `Rollback::writeout_end`. -/
def writeoutEnd (rb : Rollback) (newStartLive newEndLive : Option Nat) : Except Error Rollback := do
  let seglog ← match newStartLive with
    | some newStartLive => (rb.seglog.pruneOldest newStartLive).mapError .seglog
    | none => pure rb.seglog
  let seglog ← match newEndLive with
    | some newEndLive => (seglog.pruneRecent newEndLive).mapError .seglog
    | none => pure seglog
  pure { rb with seglog }

/-- `Rollback::read`: the segmented log opened at the manifest's live range, each record it passes
on decoded into the in-memory log. -/
def read (maxRollbackLogLen : Nat) (files : List (Nat × List Record)) (startLive endLive : Nat) :
    Except Error Rollback := do
  let (seglog, records) ← (openLog MAX_SEGMENT_SIZE files startLive endLive).mapError .seglog
  let log ← records.mapM fun r => ((Delta.decode r.2).mapError .decode).map (r.1, ·)
  pure ⟨⟨log, none⟩, seglog, maxRollbackLogLen⟩

/-- The priors of the deltas held, newest first. -/
def records (rb : Rollback) : List (List (Key × Option Value)) :=
  (rb.inMemory.log.map fun e => e.2.priors).reverse

end Rollback

/-- A database with rollback enabled: its key-value state, the rollback log, and the live range
the manifest holds (`rollback_start_live`, `rollback_end_live`). -/
structure Db where
  kv : Key → Option Value
  rollbackLog : Rollback
  manifest : Nat × Nat

namespace Db

/-- The rollback part of `Sync::sync`: `begin_sync` runs `writeout_start`, the manifest takes the
live range it returns, then `post_meta` runs `writeout_end`. -/
def sync (db : Db) : Except Error Db :=
  let (wd, rb) := db.rollbackLog.writeoutStart
  match rb.writeoutEnd wd.pruneToNewStartLive wd.pruneToNewEndLive with
  | .error e => .error e
  | .ok rb => .ok { db with rollbackLog := rb, manifest := (wd.rollbackStartLive, wd.rollbackEndLive) }

/-- `FinishedSession::commit` of a session that records a rollback delta: the delta is built
against the state the session read and logged, the writes are applied, and the store syncs. -/
def commit (db : Db) (tentative : List Key) (actuals : List (Key × KeyReadWrite)) :
    Except Error Db :=
  match db.rollbackLog.commit (finalize db.kv tentative actuals) with
  | .error e => .error e
  | .ok rb => sync { db with kv := write db.kv (writes actuals), rollbackLog := rb }

/-- `Nomt::rollback`: the traceback is written by a session that records no delta, then the store
syncs. -/
def rollback (db : Db) (n : Nat) : Except Error Db :=
  if n = 0 then .ok db
  else
    match db.rollbackLog.truncate n with
    | .error e => .error e
    | .ok none => .error .notEnoughLogged
    | .ok (some (traceback, rb)) =>
      sync { db with
        kv := write db.kv (writes (traceback.map fun e => (e.1, .write e.2)))
        rollbackLog := rb }

/-- Close the database and open it again: the rollback log is read back from its segment files
and the manifest's live range. -/
def reopen (db : Db) : Except Error Db :=
  match Rollback.read db.rollbackLog.maxRollbackLogLen db.rollbackLog.seglog.files
      db.manifest.1 db.manifest.2 with
  | .error e => .error e
  | .ok rb => .ok { db with rollbackLog := rb }

end Db

/-! ### What the operations do to the in-memory log -/

namespace Rollback

/-- `commit` logs the delta as the newest one. -/
theorem records_of_commit {rb rb' : Rollback} {delta : Delta} (h : rb.commit delta = .ok rb') :
    rb'.records = delta.priors :: rb.records := by
  unfold commit at h
  split at h
  · cases h
  · cases h
    simp [records]

/-- What `truncate` returns: the traceback merges the priors of the `n` newest deltas, the log
keeps the others, and a truncation is pending. -/
theorem truncate_eq_ok_some {rb rb' : Rollback} {n : Nat} {tb : List (Key × Option Value)}
    (h : rb.truncate n = .ok (some (tb, rb'))) :
    n ≤ rb.records.length ∧ tb = (rb.records.take n).foldl insertAll [] ∧
      rb'.records = rb.records.drop n ∧ rb'.inMemory.pendingTruncate.isSome := by
  unfold truncate at h
  split_ifs at h with hn hlen
  · cases h
  dsimp only at h
  split at h
  · split_ifs at h
    cases h
    have hL : (rb.inMemory.log.map fun e => e.2.priors).length = rb.inMemory.log.length :=
      List.length_map _
    refine ⟨by simpa [records] using Nat.le_of_not_lt hlen, ?_, ?_, rfl⟩
    · -- the popped deltas, newest first, are the newest `n` records
      rw [records, List.take_reverse, hL, ← List.map_drop, ← List.map_reverse, List.foldl_map]
    · rw [records, records, List.drop_reverse, hL, ← List.map_take]
  · cases h

/-- `writeout_start` either keeps the log or drops its oldest delta, and clears the pending
truncation. -/
theorem writeoutStart_records (rb : Rollback) :
    rb.writeoutStart.2.records = rb.records ∨ rb.writeoutStart.2.records = rb.records.dropLast := by
  unfold writeoutStart
  split
  · exact Or.inl rfl
  · split
    · split
      · rename_i oldest d rest hlog
        right
        simp only [records, hlog, List.map_cons, List.dropLast_reverse, List.tail_cons]
      · exact Or.inl rfl
    · exact Or.inl rfl

/-- With a truncation pending, `writeout_start` keeps the log. -/
theorem writeoutStart_records_of_pending {rb : Rollback} {p : Nat}
    (hp : rb.inMemory.pendingTruncate = some p) : rb.writeoutStart.2.records = rb.records := by
  simp [writeoutStart, hp, records]

/-- `writeout_end` only prunes the segmented log. -/
theorem inMemory_of_writeoutEnd {rb rb' : Rollback} {newStartLive newEndLive : Option Nat}
    (h : rb.writeoutEnd newStartLive newEndLive = .ok rb') : rb'.inMemory = rb.inMemory := by
  unfold writeoutEnd at h
  cases newStartLive <;> cases newEndLive <;>
    simp only [bind, Except.bind, pure, Except.pure, Except.mapError] at h <;>
    repeat' (first | cases h; rfl | split at h)
  all_goals cases h

end Rollback

namespace Db

/-- What a sync does to the log: the records are those `writeout_start` leaves, since
`writeout_end` only prunes the segmented log; the state is kept. -/
theorem sync_eq_ok_records {db db' : Db} (h : db.sync = .ok db') :
    db'.kv = db.kv ∧ db'.rollbackLog.records = db.rollbackLog.writeoutStart.2.records := by
  unfold sync at h
  generalize hws : db.rollbackLog.writeoutStart = ws at h
  obtain ⟨wd, rb⟩ := ws
  dsimp only at h
  split at h
  · cases h
  · rename_i rb' hend
    cases h
    refine ⟨rfl, ?_⟩
    rw [Rollback.records, Rollback.inMemory_of_writeoutEnd hend, ← Rollback.records]

/-- A sync keeps the state, and either keeps the log or drops its oldest delta. -/
theorem sync_eq_ok {db db' : Db} (h : db.sync = .ok db') :
    db'.kv = db.kv ∧ (db'.rollbackLog.records = db.rollbackLog.records ∨
      db'.rollbackLog.records = db.rollbackLog.records.dropLast) := by
  obtain ⟨hkv, hrecords⟩ := sync_eq_ok_records h
  rw [hrecords]
  exact ⟨hkv, Rollback.writeoutStart_records db.rollbackLog⟩

/-- A sync with a truncation pending keeps the log. -/
theorem records_of_sync_of_pending {db db' : Db} {p : Nat}
    (hp : db.rollbackLog.inMemory.pendingTruncate = some p) (h : db.sync = .ok db') :
    db'.rollbackLog.records = db.rollbackLog.records :=
  (sync_eq_ok_records h).2.trans (Rollback.writeoutStart_records_of_pending hp)

end Db

/-! ### What rollback is for -/

/-- The states a database has been through: the current one, and the one before each commit not
rolled back, newest first. -/
structure History where
  current : Key → Option Value
  older : List (Key → Option Value)

namespace History

/-- A commit moves to a new state. -/
def commit (h : History) (s : Key → Option Value) : History := ⟨s, h.current :: h.older⟩

/-- Rolling back `n` commits returns to the state before the `n`-th newest of them, when there are
as many; rolling back none changes nothing. -/
def rollback (h : History) (n : Nat) : Option History :=
  if n = 0 then some h
  else if n ≤ h.older.length then some ⟨h.older[n - 1]!, h.older.drop n⟩
  else none

end History

namespace Db

/-- The database implements a history: its state is the current one, and the deltas it holds,
written back newest first, lead back through the states before its newest commits. -/
def Implements (db : Db) (h : History) : Prop :=
  db.kv = h.current ∧ ∃ ss, Undoes db.rollbackLog.records db.kv ss ∧ ss <+: h.older

/-- A commit whose read-then-write priors are the values read keeps the database implementing the
history, moved to the committed state. -/
theorem commit_implements {db db' : Db} {h : History} (himpl : db.Implements h)
    {tentative : List Key} {actuals : List (Key × KeyReadWrite)} (hread : PriorsRead db.kv actuals)
    (hc : db.commit tentative actuals = .ok db') :
    db'.Implements (h.commit (write db.kv (writes actuals))) := by
  obtain ⟨hkv, ss, hss, hpre⟩ := himpl
  unfold commit at hc
  split at hc
  · cases hc
  · rename_i rb hrb
    obtain ⟨hkv', hrec⟩ := sync_eq_ok hc
    -- the new delta leads back to the state before the commit
    have hlogged : Undoes rb.records (write db.kv (writes actuals)) (db.kv :: ss) := by
      rw [Rollback.records_of_commit hrb]
      exact ⟨write_finalize_writes db.kv tentative hread, hss⟩
    have hpre' : db.kv :: ss <+: (h.commit (write db.kv (writes actuals))).older := by
      rw [History.commit, ← hkv]
      exact (List.prefix_cons_inj _).mpr hpre
    refine ⟨hkv', ?_⟩
    rw [hkv']
    rcases hrec with hsame | hdrop
    · exact ⟨db.kv :: ss, hsame ▸ hlogged, hpre'⟩
    · -- the sync dropped the oldest delta, and with it the oldest state
      exact ⟨(db.kv :: ss).dropLast, hdrop ▸ hlogged.dropLast, (List.dropLast_prefix _).trans hpre'⟩

/-- A rollback that succeeds keeps the database implementing the history, rolled back as far. -/
theorem rollback_implements {db db' : Db} {h : History} (himpl : db.Implements h) {n : Nat}
    (hr : db.rollback n = .ok db') : ∃ h', h.rollback n = some h' ∧ db'.Implements h' := by
  unfold rollback at hr
  split_ifs at hr with hn
  · cases hr
    exact ⟨h, if_pos hn, himpl⟩
  obtain ⟨hkv, ss, hss, hpre⟩ := himpl
  split at hr
  · cases hr
  · cases hr
  · rename_i tb rb htr
    obtain ⟨hle, htb, hrec, hpend⟩ := Rollback.truncate_eq_ok_some htr
    obtain ⟨p, hp⟩ := Option.isSome_iff_exists.mp hpend
    have hsync := records_of_sync_of_pending hp hr
    obtain ⟨hkv', -⟩ := sync_eq_ok hr
    have hlen : n - 1 < ss.length := by rw [← hss.length_eq]; omega
    obtain ⟨hback, hrest⟩ := write_merge_of_undoes hss hlen
    have hn1 : n - 1 + 1 = n := by omega
    rw [hn1] at hback hrest
    have holder : n ≤ h.older.length := le_trans (hss.length_eq ▸ hle) (List.IsPrefix.length_le hpre)
    refine ⟨⟨h.older[n - 1]!, h.older.drop n⟩, by simp [History.rollback, hn, holder], ?_, ?_⟩
    · -- the merged priors lead back `n` states
      rw [hkv', writes_map_write, htb, hback, getElem!_pos h.older (n - 1) (by omega),
        List.IsPrefix.getElem hpre hlen]
    · refine ⟨ss.drop n, ?_, List.IsPrefix.drop hpre n⟩
      rw [hsync, hrec, hkv', writes_map_write, htb, hback]
      exact hrest

/-- A rollback of more deltas than the log holds fails. -/
theorem rollback_eq_notEnoughLogged (db : Db) {n : Nat} (hn : db.rollbackLog.records.length < n) :
    db.rollback n = .error .notEnoughLogged := by
  have hn0 : n ≠ 0 := by omega
  have hlog : db.rollbackLog.inMemory.log.length < n := by simpa [Rollback.records] using hn
  simp [rollback, Rollback.truncate, hn0, hlog]

end Db

/-! ### Reopening after a rollback of every delta held -/

namespace Db

/-- The live range a sync writes to the manifest with a truncation pending. -/
theorem manifest_of_sync_of_pending {db db' : Db} {p : Nat}
    (hp : db.rollbackLog.inMemory.pendingTruncate = some p) (h : db.sync = .ok db') :
    db'.manifest = (min db.rollbackLog.seglog.startLive p, p) := by
  unfold sync at h
  simp only [Rollback.writeoutStart, hp] at h
  split at h
  · cases h
  · cases h
    rfl

/-- Rolling back every delta held, the oldest of record `k`, writes the live range
`(k - 1, k - 1)` to the manifest when the segmented log starts at `k - 1` or later: the manifest
is left empty only when `k = 1`. -/
theorem manifest_rollback_all {db db' : Db} {k : Nat} {d : Delta} {rest : List (Nat × Delta)}
    (hlog : db.rollbackLog.inMemory.log = (k, d) :: rest)
    (hstart : k - 1 ≤ db.rollbackLog.seglog.startLive)
    (hr : db.rollback (rest.length + 1) = .ok db') : db'.manifest = (k - 1, k - 1) := by
  unfold rollback at hr
  rw [if_neg (Nat.succ_ne_zero _)] at hr
  split at hr
  · cases hr
  · cases hr
  · rename_i tb rb htr
    -- all deltas are popped, so the pending truncation is set before the oldest, record `k`
    have hpend : rb.inMemory.pendingTruncate = some (k - 1) ∧ rb.seglog = db.rollbackLog.seglog := by
      unfold Rollback.truncate at htr
      simp only [hlog, List.length_cons, Nat.sub_self, List.drop_zero, List.take_zero,
        List.getLast?_reverse, List.head?_cons, Nat.succ_ne_zero, if_false, lt_irrefl] at htr
      split_ifs at htr
      cases htr
      exact ⟨rfl, rfl⟩
    rw [manifest_of_sync_of_pending hpend.1 hr]
    simp only [hpend.2, Nat.min_eq_right hstart]

end Db

/-- An `Except` that succeeds is `.ok` of its value. -/
theorem Except.eq_ok_of_toBool {ε α : Type} {x : Except ε α} (d : α) (h : x.toBool = true) :
    x = .ok (x.toOption.getD d) := by
  cases x with
  | error e => cases h
  | ok a => rfl

/-- With `max_rollback_log_len = 1`, two commits to one key: the second commit's sync prunes the
first commit's delta, and `rollback(1)` then rolls back every delta held, leaving none, so that a
second `rollback(1)` fails. The manifest holds the range `(1, 1)`, and record 1 still lies in the
segment file: after a reopen the log holds the first commit's delta again, and `rollback(1)`
succeeds, undoing the first commit as well. -/
theorem rollback_all_then_reopen_restores_pruned_delta :
    let k : Key := Vector.replicate 32 0
    let db₀ : Db := ⟨fun _ => none, ⟨⟨[], none⟩, ⟨MAX_SEGMENT_SIZE, 0, 0, [], false⟩, 1⟩, (0, 0)⟩
    ∃ db₁ db₂ db₃ db₄ db₅,
      db₀.commit [] [(k, .write (some [1]))] = .ok db₁ ∧
      db₁.commit [] [(k, .write (some [2]))] = .ok db₂ ∧
      db₂.rollbackLog.inMemory.log.map Prod.fst = [2] ∧
      db₂.rollback 1 = .ok db₃ ∧ db₃.rollbackLog.inMemory.log.map Prod.fst = [] ∧
      db₃.rollback 1 = .error .notEnoughLogged ∧
      db₃.reopen = .ok db₄ ∧ db₄.rollbackLog.inMemory.log.map Prod.fst = [1] ∧
      db₄.rollback 1 = .ok db₅ ∧ db₅.kv k = none := by
  intro k db₀
  -- each step runs to completion; the kernel evaluates it
  have h₁ := Except.eq_ok_of_toBool db₀ (x := db₀.commit [] [(k, .write (some [1]))])
    (by decide +kernel)
  set db₁ := (db₀.commit [] [(k, .write (some [1]))]).toOption.getD db₀
  have h₂ := Except.eq_ok_of_toBool db₀ (x := db₁.commit [] [(k, .write (some [2]))])
    (by decide +kernel)
  set db₂ := (db₁.commit [] [(k, .write (some [2]))]).toOption.getD db₀
  have h₃ := Except.eq_ok_of_toBool db₀ (x := db₂.rollback 1) (by decide +kernel)
  set db₃ := (db₂.rollback 1).toOption.getD db₀
  have hempty : db₃.rollbackLog.inMemory.log.map Prod.fst = [] := by decide +kernel
  have h₄ := Except.eq_ok_of_toBool db₀ (x := db₃.reopen) (by decide +kernel)
  set db₄ := db₃.reopen.toOption.getD db₀
  have h₅ := Except.eq_ok_of_toBool db₀ (x := db₄.rollback 1) (by decide +kernel)
  refine ⟨db₁, db₂, db₃, db₄, _, h₁, h₂, by decide +kernel, h₃, hempty,
    Db.rollback_eq_notEnoughLogged db₃ ?_, h₄, by decide +kernel, h₅, by decide +kernel⟩
  have hlen : db₃.rollbackLog.inMemory.log.length = 0 := by
    rw [← List.length_map, hempty, List.length_nil]
  simp [Rollback.records, hlen]

end Nomt.Rollback

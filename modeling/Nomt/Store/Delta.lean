import Nomt.Lib.ByteOrder
import Nomt.Lib.Undo

/-!
# Rollback deltas (`nomt/src/rollback/delta.rs`, `ReverseDeltaBuilder::finalize`)

A commit that records rollback builds a `Delta`: for each key the commit writes, the value the
key had before (`none` if it did not exist). `finalize` builds it from the session's actuals: a
key only read needs nothing; a key read and then written keeps the value read; a key written
blind takes the value a worker loaded from the store, either speculatively through
`tentative_preserve_prior` or after the fact. The worker reads the state the session reads, so
under the condition that every read-then-write prior is the value read, the delta records the
state before the commit for every key the commit writes (`finalize_records`,
`mem_finalize_of_write`), and writing it back undoes the commit (`write_finalize_writes`).

`Delta::encode` writes the keys to erase and then the keys to reinstate with their values, each
group after its `u32` count; `Delta::decode` reads them back, rejecting a repeated key.
-/

namespace Nomt.Rollback

open ByteOrder Undo

/-- `KeyPath = [u8; 32]`, a key of the value store. -/
abbrev Key := Vector UInt8 32

/-- `Value = Vec<u8>`. -/
abbrev Value := List UInt8

/-- `Delta`: the prior value of each key the reversed commit wrote, `none` where the key did not
exist; the `HashMap` keeps its keys distinct. -/
structure Delta where
  priors : List (Key × Option Value)
  nodup : (priors.map Prod.fst).Nodup

namespace Delta

/-- The keys that did not exist before the commit (`to_erase`). -/
def toErase (d : Delta) : List Key :=
  d.priors.filterMap fun e => if e.2.isNone then some e.1 else none

/-- The keys that had values, with their values (`to_reinstate`). -/
def toReinstate (d : Delta) : List (Key × Value) :=
  d.priors.filterMap fun e => e.2.map (e.1, ·)

/-- `Delta::encode`: each group after its `u32` count, keys as their 32 bytes, values after their
`u32` length, little-endian. -/
def encode (d : Delta) : List UInt8 :=
  leBytes d.toErase.length 4 ++ d.toErase.flatMap Vector.toList ++
    leBytes d.toReinstate.length 4 ++
      d.toReinstate.flatMap fun e => e.1.toList ++ leBytes e.2.length 4 ++ e.2

/-- The errors of `Delta::decode`. -/
inductive DecodeError
  /-- `read_exact` ran out of bytes. -/
  | unexpectedEof
  /-- "duplicate key path". -/
  | duplicateKeyPath
deriving DecidableEq, Repr

/-- `read_exact` of `n` bytes. -/
def readExact (n : Nat) (bytes : List UInt8) : Except DecodeError (List UInt8 × List UInt8) :=
  if n ≤ bytes.length then .ok (bytes.take n, bytes.drop n) else .error .unexpectedEof

/-- A little-endian `u32`. -/
def readU32 (bytes : List UInt8) : Except DecodeError (Nat × List UInt8) :=
  (readExact 4 bytes).map fun r => (ofLeBytes r.1, r.2)

/-- A 32-byte key path. -/
def readKey (bytes : List UInt8) : Except DecodeError (Key × List UInt8) :=
  if h : 32 ≤ bytes.length then
    .ok (⟨(bytes.take 32).toArray, by rw [List.size_toArray, List.length_take]; omega⟩, bytes.drop 32)
  else .error .unexpectedEof

/-- The empty delta (`HashMap::new`). -/
def empty : Delta := ⟨[], List.nodup_nil⟩

/-- `HashMap::insert` of a key not yet present. -/
def push (d : Delta) (key : Key) (prior : Option Value) (h : key ∉ d.priors.map Prod.fst) : Delta :=
  ⟨d.priors ++ [(key, prior)], by
    rw [List.map_append, List.map_singleton, List.nodup_append]
    refine ⟨d.nodup, List.nodup_singleton key, fun a ha b hb hab => h ?_⟩
    have hbk : b = key := List.mem_singleton.mp hb
    rw [← hbk, ← hab]
    exact ha⟩

/-- The loop of `decode` reading `n` keys to erase. -/
def decodeErase : Nat → Delta → List UInt8 → Except DecodeError (Delta × List UInt8)
  | 0, d, bytes => .ok (d, bytes)
  | n + 1, d, bytes =>
    match readKey bytes with
    | .error e => .error e
    | .ok (key, bytes) =>
      if h : key ∈ d.priors.map Prod.fst then .error .duplicateKeyPath
      else decodeErase n (d.push key none h) bytes

/-- The loop of `decode` reading `n` keys to reinstate, each with its value. -/
def decodeReinstate : Nat → Delta → List UInt8 → Except DecodeError (Delta × List UInt8)
  | 0, d, bytes => .ok (d, bytes)
  | n + 1, d, bytes =>
    match readKey bytes with
    | .error e => .error e
    | .ok (key, bytes) =>
      match readU32 bytes with
      | .error e => .error e
      | .ok (valueLen, bytes) =>
        match readExact valueLen bytes with
        | .error e => .error e
        | .ok (value, bytes) =>
          if h : key ∈ d.priors.map Prod.fst then .error .duplicateKeyPath
          else decodeReinstate n (d.push key (some value) h) bytes

/-- `Delta::decode`. -/
def decode (bytes : List UInt8) : Except DecodeError Delta := do
  let (toEraseLen, bytes) ← readU32 bytes
  let (d, bytes) ← decodeErase toEraseLen empty bytes
  let (toReinstateLen, bytes) ← readU32 bytes
  let (d, _) ← decodeReinstate toReinstateLen d bytes
  pure d

end Delta

/-! ### Building a delta -/

/-- `KeyReadWrite`: how a session used a key. -/
inductive KeyReadWrite
  | read (value : Option Value)
  | write (value : Option Value)
  | readThenWrite (prior value : Option Value)
deriving DecidableEq, Repr

namespace KeyReadWrite

/-- `KeyReadWrite::is_write`. -/
def isWrite : KeyReadWrite → Bool
  | .read _ => false
  | .write _ => true
  | .readThenWrite _ _ => true

/-- `KeyReadWrite::last_value`. -/
def lastValue : KeyReadWrite → Option Value
  | .read value => value
  | .write value => value
  | .readThenWrite _ value => value

end KeyReadWrite

/-- The writes a commit makes from a session's actuals: each written key with its last value. -/
def writes (actuals : List (Key × KeyReadWrite)) : List (Key × Option Value) :=
  actuals.filterMap fun a => if a.2.isWrite then some (a.1, a.2.lastValue) else none

/-- The writes of a session writing each entry of a map. -/
theorem writes_map_write (t : List (Key × Option Value)) :
    writes (t.map fun e => (e.1, .write e.2)) = t := by
  induction t with
  | nil => rfl
  | cons e t ih =>
    rw [List.map_cons, writes, List.filterMap_cons, ← writes, ih]
    rfl

/-- The state of the loop of `finalize`: the final priors, the tentative priors not yet taken,
and the keys the worker is asked to look up after the join. -/
structure FinalizeState where
  final : List (Key × Option Value)
  tentative : List (Key × Option Value)
  lookups : List Key

/-- One actual of the loop of `finalize`. -/
def finalizeStep (st : FinalizeState) (actual : Key × KeyReadWrite) : FinalizeState :=
  match actual.2 with
  | .read _ => st
  | .write _ =>
    -- `tentative_priors.remove(path)`
    match st.tentative.find? (·.1 = actual.1) with
    | some e =>
      { st with
        final := insert st.final actual.1 e.2
        tentative := st.tentative.filter (·.1 ≠ actual.1) }
    | none => { st with lookups := st.lookups ++ [actual.1] }
  | .readThenWrite prior _ => { st with final := insert st.final actual.1 prior }

/-- The priors of `ReverseDeltaBuilder::finalize`. The worker loads every prior from `lookup`, the
state the session reads: first those of the keys of `tentative_preserve_prior` calls, then those
the loop asks for, which `fresh_priors` adds to the final priors. -/
def finalizePriors (lookup : Key → Option Value) (tentative : List Key)
    (actuals : List (Key × KeyReadWrite)) : List (Key × Option Value) :=
  let st := actuals.foldl finalizeStep ⟨[], insertAll [] (tentative.map fun k => (k, lookup k)), []⟩
  insertAll st.final (st.lookups.map fun k => (k, lookup k))

theorem nodup_final_foldl_finalizeStep (actuals : List (Key × KeyReadWrite)) {st : FinalizeState}
    (h : (st.final.map Prod.fst).Nodup) :
    ((actuals.foldl finalizeStep st).final.map Prod.fst).Nodup := by
  induction actuals generalizing st with
  | nil => exact h
  | cons a actuals ih =>
    apply ih
    unfold finalizeStep
    split
    · exact h
    · split
      · exact nodup_insert h _ _
      · exact h
    · exact nodup_insert h _ _

theorem nodup_finalizePriors (lookup : Key → Option Value) (tentative : List Key)
    (actuals : List (Key × KeyReadWrite)) :
    ((finalizePriors lookup tentative actuals).map Prod.fst).Nodup :=
  nodup_insertAll (@nodup_final_foldl_finalizeStep actuals ⟨[], _, []⟩ List.nodup_nil) _

/-- `ReverseDeltaBuilder::finalize`. -/
def finalize (lookup : Key → Option Value) (tentative : List Key)
    (actuals : List (Key × KeyReadWrite)) : Delta :=
  ⟨finalizePriors lookup tentative actuals, nodup_finalizePriors lookup tentative actuals⟩

/-! ### What `finalize` records -/

section Finalize

variable {lookup : Key → Option Value}

/-- Every read-then-write prior of the actuals is the value the state `lookup` holds. -/
def PriorsRead (lookup : Key → Option Value) (actuals : List (Key × KeyReadWrite)) : Prop :=
  ∀ a ∈ actuals, ∀ prior value, a.2 = .readThenWrite prior value → prior = lookup a.1

theorem writes_append (done rest : List (Key × KeyReadWrite)) :
    writes (done ++ rest) = writes done ++ writes rest :=
  List.filterMap_append

theorem keys_writes_singleton (a : Key × KeyReadWrite) :
    (writes [a]).map Prod.fst = if a.2.isWrite then [a.1] else [] := by
  unfold writes
  split <;> simp_all

/-- The priors the loop of `finalize` holds, final or tentative, record the state read. -/
def RecordsRead (lookup : Key → Option Value) (st : FinalizeState) : Prop :=
  Records lookup st.final ∧ Records lookup st.tentative

/-- Every key the actuals `done` write is final or waits for its lookup. -/
def Covers (done : List (Key × KeyReadWrite)) (st : FinalizeState) : Prop :=
  ∀ k ∈ (writes done).map Prod.fst, k ∈ st.final.map Prod.fst ∨ k ∈ st.lookups

/-- One actual keeps the priors recording the state read. -/
theorem RecordsRead.step {st : FinalizeState} (h : RecordsRead lookup st) (a : Key × KeyReadWrite)
    (ha : ∀ prior value, a.2 = .readThenWrite prior value → prior = lookup a.1) :
    RecordsRead lookup (finalizeStep st a) := by
  obtain ⟨hfinal, htentative⟩ := h
  unfold finalizeStep
  split
  · exact ⟨hfinal, htentative⟩
  · split
    · rename_i e he
      -- the tentative prior taken is the state's value of the key
      have hek : e.1 = a.1 := by simpa using List.find?_some he
      refine ⟨hfinal.insert ?_, fun e' he' => htentative e' (List.mem_filter.mp he').1⟩
      rw [← hek]
      exact htentative e (List.mem_of_find?_eq_some he)
    · exact ⟨hfinal, htentative⟩
  · rename_i prior value hrw
    exact ⟨hfinal.insert (ha prior value hrw), htentative⟩

/-- One actual keeps every written key final or waiting, the actual's own key included. -/
theorem Covers.step {done : List (Key × KeyReadWrite)} {st : FinalizeState} (h : Covers done st)
    (a : Key × KeyReadWrite) : Covers (done ++ [a]) (finalizeStep st a) := by
  intro k hk
  rw [writes_append, List.map_append, List.mem_append, keys_writes_singleton] at hk
  rcases hk with hk | hk
  · -- an earlier key stays final or waiting
    have hold := h k hk
    unfold finalizeStep
    split
    · exact hold
    · split
      · exact hold.imp (fun h' => (mem_keys_insert _).mpr (Or.inr h')) id
      · exact hold.imp id fun h' => List.mem_append_left _ h'
    · exact hold.imp (fun h' => (mem_keys_insert _).mpr (Or.inr h')) id
  · -- the actual's own key, if written, becomes final or waiting
    unfold finalizeStep
    split
    · rename_i value hrw
      simp [hrw, KeyReadWrite.isWrite] at hk
    · have hka : k = a.1 := by
        split at hk
        · exact List.mem_singleton.mp hk
        · exact absurd hk List.not_mem_nil
      split
      · exact Or.inl ((mem_keys_insert _).mpr (Or.inl hka))
      · exact Or.inr (List.mem_append_right _ (List.mem_singleton.mpr hka))
    · have hka : k = a.1 := by
        split at hk
        · exact List.mem_singleton.mp hk
        · exact absurd hk List.not_mem_nil
      exact Or.inl ((mem_keys_insert _).mpr (Or.inl hka))

theorem RecordsRead.foldl {st : FinalizeState} (h : RecordsRead lookup st)
    {actuals : List (Key × KeyReadWrite)} (hread : PriorsRead lookup actuals) :
    RecordsRead lookup (actuals.foldl finalizeStep st) := by
  induction actuals generalizing st with
  | nil => exact h
  | cons a actuals ih =>
    exact ih (h.step a (hread a List.mem_cons_self)) fun a' ha' => hread a' (List.mem_cons_of_mem _ ha')

theorem Covers.foldl {done : List (Key × KeyReadWrite)} {st : FinalizeState} (h : Covers done st)
    (actuals : List (Key × KeyReadWrite)) : Covers (done ++ actuals) (actuals.foldl finalizeStep st) := by
  induction actuals generalizing done st with
  | nil => simpa using h
  | cons a actuals ih => simpa using ih (h.step a)

/-- The delta records the state read, when every read-then-write prior is the value read. -/
theorem finalize_records (tentative : List Key) {actuals : List (Key × KeyReadWrite)}
    (hread : PriorsRead lookup actuals) :
    Records lookup (finalize lookup tentative actuals).priors := by
  have hstart : RecordsRead lookup ⟨[], insertAll [] (tentative.map fun k => (k, lookup k)), []⟩ := by
    refine ⟨fun _ h => absurd h List.not_mem_nil, Records.insertAll (fun _ h => absurd h List.not_mem_nil) ?_⟩
    intro e he
    obtain ⟨k, -, rfl⟩ := List.mem_map.mp he
    rfl
  refine (hstart.foldl hread).1.insertAll fun e he => ?_
  obtain ⟨k, -, rfl⟩ := List.mem_map.mp he
  rfl

/-- The delta names every key the commit writes. -/
theorem mem_finalize_of_write (tentative : List Key) (actuals : List (Key × KeyReadWrite))
    {k : Key} (hk : k ∈ (writes actuals).map Prod.fst) :
    k ∈ (finalize lookup tentative actuals).priors.map Prod.fst := by
  have hcover := @Covers.foldl [] ⟨[], insertAll [] (tentative.map fun k => (k, lookup k)), []⟩
    (fun _ h => absurd h (by simp [writes])) actuals k (by simpa using hk)
  refine mem_keys_insertAll.mpr (hcover.symm.imp (fun h => ?_) id)
  rw [List.map_map]
  exact List.mem_map.mpr ⟨k, h, rfl⟩

/-- Writing the delta back undoes the commit's writes. -/
theorem write_finalize_writes (s : Key → Option Value) (tentative : List Key)
    {actuals : List (Key × KeyReadWrite)} (hread : PriorsRead s actuals) :
    write (write s (writes actuals)) (finalize s tentative actuals).priors = s :=
  write_write_of_record (fun _ hk => mem_finalize_of_write tentative actuals hk)
    (finalize_records tentative hread)

end Finalize

end Nomt.Rollback

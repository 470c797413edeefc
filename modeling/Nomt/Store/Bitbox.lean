import Nomt.Lib.Triangular

/-!
# Bitbox probing (`nomt/src/bitbox/mod.rs`, `bitbox/meta_map.rs`)

The bitbox hash table keeps one meta byte per bucket: `EMPTY`, `TOMBSTONE`, or the full bit with
the top seven bits of the hash of the page stored there. A page is looked up and placed by
triangular probing from its hash: `ProbeSequence::next` adds `0, 1, 2, …` to the bucket modulo
the number of buckets and stops at the first bucket that is empty, a tombstone, or full with a
matching hint. Its `j`-th round visits `(hash + tri j) % n` (`next_stateAt`).

Whether that loop ends rests on the number of buckets `n`, which `Options::hashtable_buckets`
takes as any `u32` and which is 64 000 by default. For `n` a power of two the first `n` rounds
visit every bucket, and `next` returns on every meta map with an empty or tombstone bucket
(`next_isSome_of_pow_two`). For any other `n` some bucket is never visited from a given hash; on a
meta map where that bucket is the only one not full with a mismatching hint, `next` never returns
(`next_eq_none_of_not_pow_two`), and neither do `allocate_bucket` and `PageLoader::probe`, which
call it.

The model's `bucket` and `step` are unbounded; the source's are `u64`, which would overflow only
after `2 ^ 64` rounds.
-/

namespace Nomt.Bitbox

open Triangular

/-- `EMPTY`. -/
def EMPTY : UInt8 := 0b0000_0000

/-- `TOMBSTONE`. -/
def TOMBSTONE : UInt8 := 0b0111_1111

/-- `FULL_MASK`. -/
def FULL_MASK : UInt8 := 0b1000_0000

/-- `full_entry`: the full bit over the top seven bits of the hash. -/
def fullEntry (hash : UInt64) : UInt8 := (hash >>> 57).toUInt8 ^^^ FULL_MASK

/-- The one option probing depends on. -/
structure Options where
  bitboxNumPages : UInt32

/-- `Options::new`: 64 000 buckets. -/
def Options.new : Options := ⟨64000⟩

/-- `Options::hashtable_buckets`: every `u32` is accepted. -/
def Options.hashtableBuckets (o : Options) (hashtableBuckets : UInt32) : Options :=
  { o with bitboxNumPages := hashtableBuckets }

/-- `MetaMap`: a meta byte for each of `buckets` buckets, in a vector padded to whole pages. -/
structure MetaMap where
  buckets : Nat
  bitvec : List UInt8
  buckets_le : buckets ≤ bitvec.length

namespace MetaMap

/-- `MetaMap::len`. -/
def len (m : MetaMap) : Nat := m.buckets

/-- `MetaMap::hint_empty`. -/
def hintEmpty (m : MetaMap) (bucket : Nat) : Bool := m.bitvec[bucket]! == EMPTY

/-- `MetaMap::hint_tombstone`. -/
def hintTombstone (m : MetaMap) (bucket : Nat) : Bool := m.bitvec[bucket]! == TOMBSTONE

/-- `MetaMap::hint_not_match`. -/
def hintNotMatch (m : MetaMap) (bucket : Nat) (rawHash : UInt64) : Bool :=
  m.bitvec[bucket]! != fullEntry rawHash

/-- `MetaMap::set_full`. -/
def setFull (m : MetaMap) (bucket : Nat) (hash : UInt64) : MetaMap :=
  ⟨m.buckets, m.bitvec.set bucket (fullEntry hash), by rw [List.length_set]; exact m.buckets_le⟩

/-- `MetaMap::set_tombstone`. -/
def setTombstone (m : MetaMap) (bucket : Nat) : MetaMap :=
  ⟨m.buckets, m.bitvec.set bucket TOMBSTONE, by rw [List.length_set]; exact m.buckets_le⟩

/-- `MetaMap::page_index`: the meta page holding a bucket's byte. -/
def pageIndex (bucket : Nat) : Nat := bucket / 4096

/-- `MetaMap::page_slice`: the bytes of one meta page. -/
def pageSlice (m : MetaMap) (pageIndex : Nat) : List UInt8 :=
  (m.bitvec.drop (pageIndex * 4096)).take 4096

end MetaMap

/-- `ProbeSequence`. -/
structure ProbeSequence where
  hash : UInt64
  bucket : Nat
  step : Nat

/-- `ProbeResult`. -/
inductive ProbeResult
  | possibleHit (bucket : Nat)
  | empty (bucket : Nat)
  | tombstone (bucket : Nat)
deriving DecidableEq, Repr

namespace ProbeSequence

/-- `ProbeSequence::new`, given the page's hash: `hash % 0` panics on a map without buckets. -/
def new (hash : UInt64) (m : MetaMap) : Option ProbeSequence :=
  if m.len = 0 then none else some ⟨hash, hash.toNat % m.len, 0⟩

/-- The first lines of the loop of `ProbeSequence::next`: triangular probing. -/
def advance (ps : ProbeSequence) (len : Nat) : ProbeSequence :=
  { ps with bucket := (ps.bucket + ps.step) % len, step := ps.step + 1 }

/-- `ProbeSequence::next`, on at most `fuel` rounds of its loop. -/
def next (m : MetaMap) : Nat → ProbeSequence → Option (ProbeResult × ProbeSequence)
  | 0, _ => none
  | fuel + 1, ps =>
    -- `bucket %= len` panics on a map without buckets
    if m.len = 0 then none
    else
      let ps := ps.advance m.len
      if m.hintEmpty ps.bucket then some (.empty ps.bucket, ps)
      else if m.hintTombstone ps.bucket then some (.tombstone ps.bucket, ps)
      else if m.hintNotMatch ps.bucket ps.hash then next m fuel ps
      else some (.possibleHit ps.bucket, ps)

/-! ### The rounds of `next` -/

/-- The sequence from `hash` over `len` buckets after `j` rounds. -/
def after (hash : UInt64) (len : Nat) : Nat → ProbeSequence
  | 0 => ⟨hash, hash.toNat % len, 0⟩
  | j + 1 => (after hash len j).advance len

variable {hash : UInt64} {len : Nat}

@[simp] theorem hash_after (j : Nat) : (after hash len j).hash = hash := by
  induction j with
  | zero => rfl
  | succ j ih => exact ih

@[simp] theorem step_after (j : Nat) : (after hash len j).step = j := by
  induction j with
  | zero => rfl
  | succ j ih => simp only [after, advance, ih]

/-- Round `j` visits `(hash + tri j) % len`. -/
theorem bucket_after_succ (j : Nat) : (after hash len (j + 1)).bucket = (hash.toNat + tri j) % len := by
  induction j with
  | zero => simp [after, advance]
  | succ j ih =>
    rw [after, advance, ih, step_after, Nat.mod_add_mod, tri_succ, Nat.add_assoc]

theorem new_eq_after {m : MetaMap} (hm : m.len ≠ 0) : new hash m = some (after hash m.len 0) := by
  simp [new, hm, after]

end ProbeSequence

/-- Whether `next` stops at `bucket`: it is empty, a tombstone, or full with `hash`'s hint. -/
def MetaMap.stops (m : MetaMap) (bucket : Nat) (hash : UInt64) : Bool :=
  m.hintEmpty bucket || m.hintTombstone bucket || !m.hintNotMatch bucket hash

namespace ProbeSequence

variable {m : MetaMap} {hash : UInt64}

/-- A round at a bucket where `next` does not stop goes on to the next round. -/
theorem next_succ_of_not_stops (hm : m.len ≠ 0) {j fuel : Nat}
    (h : m.stops ((hash.toNat + tri j) % m.len) hash = false) :
    next m (fuel + 1) (after hash m.len j) = next m fuel (after hash m.len (j + 1)) := by
  rw [← bucket_after_succ] at h
  simp only [MetaMap.stops, Bool.or_eq_false_iff, Bool.not_eq_false'] at h
  obtain ⟨⟨hempty, htomb⟩, hmatch⟩ := h
  simp only [next, hm, if_false]
  rw [show (after hash m.len j).advance m.len = after hash m.len (j + 1) from rfl, hempty, htomb,
    hash_after, hmatch]
  rfl

theorem next_succ_isSome_of_stops (hm : m.len ≠ 0) {j fuel : Nat}
    (h : m.stops ((hash.toNat + tri j) % m.len) hash = true) :
    (next m (fuel + 1) (after hash m.len j)).isSome := by
  rw [← bucket_after_succ] at h
  simp only [next, hm, if_false]
  rw [show (after hash m.len j).advance m.len = after hash m.len (j + 1) from rfl, hash_after]
  simp only [MetaMap.stops, Bool.or_eq_true, Bool.not_eq_true'] at h
  split_ifs <;> simp_all

/-- `next` does not return within `fuel` rounds when none of them stops. -/
theorem next_eq_none_of_forall (hm : m.len ≠ 0) :
    ∀ {fuel j : Nat}, (∀ i < fuel, m.stops ((hash.toNat + tri (j + i)) % m.len) hash = false) →
      next m fuel (after hash m.len j) = none
  | 0, _, _ => rfl
  | fuel + 1, j, h => by
    have h0 := h 0 (Nat.succ_pos _)
    rw [Nat.add_zero] at h0
    rw [next_succ_of_not_stops hm h0]
    exact next_eq_none_of_forall hm fun i hi => by
      rw [Nat.add_assoc, Nat.add_comm 1 i]
      exact h (i + 1) (by omega)

/-- `next` returns within `fuel` rounds when one of them stops. -/
theorem next_isSome_of_stops (hm : m.len ≠ 0) :
    ∀ {i fuel j : Nat}, i < fuel → m.stops ((hash.toNat + tri (j + i)) % m.len) hash = true →
      (next m fuel (after hash m.len j)).isSome
  | _, 0, _, hi, _ => absurd hi (Nat.not_lt_zero _)
  | i, fuel + 1, j, hi, h => by
    cases hstop : m.stops ((hash.toNat + tri j) % m.len) hash with
    | true => exact next_succ_isSome_of_stops hm hstop
    | false =>
      rw [next_succ_of_not_stops hm hstop]
      -- the stopping round is not round `j`, so it is a later one
      obtain ⟨i, rfl⟩ : ∃ i', i = i' + 1 := ⟨i - 1, by
        rcases i with _ | i
        · rw [Nat.add_zero, hstop] at h
          exact absurd h Bool.false_ne_true
        · omega⟩
      exact next_isSome_of_stops hm (show i < fuel by omega) (by rwa [Nat.add_assoc, Nat.add_comm 1 i])

/-- With `2 ^ k` buckets `next` returns within `2 ^ k` rounds from every hash, on every meta map
with an empty or tombstone bucket. -/
theorem next_isSome_of_pow_two {k b : Nat} (hlen : m.len = 2 ^ k) (hb : b < m.len)
    (hfree : m.hintEmpty b = true ∨ m.hintTombstone b = true) (hash : UInt64) :
    ∃ ps, new hash m = some ps ∧ (next m m.len ps).isSome := by
  have hm : m.len ≠ 0 := by rw [hlen]; exact Nat.pos_iff_ne_zero.mp (Nat.two_pow_pos k)
  obtain ⟨j, hj, hvisit⟩ := exists_visit_of_pow_two (h := hash.toNat) (hlen ▸ hb)
  refine ⟨after hash m.len 0, new_eq_after hm, next_isSome_of_stops hm (i := j) (by omega) ?_⟩
  rw [Nat.zero_add, hlen, hvisit]
  rcases hfree with hfree | hfree <;> simp [MetaMap.stops, hfree]

/-- With any other number of buckets, from every hash some bucket `b` is never visited: on a meta
map where every other bucket is full with a hint that does not match, `next` never returns, even
when `b` is empty. -/
theorem next_eq_none_of_not_pow_two {n : Nat} (hn : 0 < n) (hpow : ¬ ∃ k, n = 2 ^ k)
    (hash : UInt64) :
    ∃ b < n, ∀ m : MetaMap, m.len = n → (∀ b' < n, b' ≠ b → m.stops b' hash = false) →
      ∀ fuel, (new hash m).bind (next m fuel) = none := by
  obtain ⟨b, hb, hnot⟩ := exists_not_visited hn hpow hash.toNat
  refine ⟨b, hb, fun m hlen hfull fuel => ?_⟩
  have hm : m.len ≠ 0 := by omega
  rw [new_eq_after hm, Option.bind_some]
  refine next_eq_none_of_forall hm fun i _ => hfull _ ?_ (by rw [hlen]; exact hnot (0 + i))
  rw [hlen]
  exact Nat.mod_lt _ hn

end ProbeSequence

/-- The loop of `allocate_bucket` from its `i`-th attempt: it gives up at the 10 000th, and each
call of `next` runs on `fuel` rounds. -/
def allocateLoop (m : MetaMap) (fuel : Nat) (i : Nat) (ps : ProbeSequence) :
    Option (Option Nat × MetaMap) :=
  if i + 1 ≥ 10000 then some (none, m)
  else
    match ps.next m fuel with
    | none => none
    | some (.possibleHit _, ps) => allocateLoop m fuel (i + 1) ps
    | some (.tombstone bucket, ps) | some (.empty bucket, ps) =>
      some (some bucket, m.setFull bucket ps.hash)
termination_by 10000 - i

/-- `allocate_bucket` for a page whose hash is `hash`. -/
def allocateBucket (hash : UInt64) (m : MetaMap) (fuel : Nat) : Option (Option Nat × MetaMap) := do
  let ps ← ProbeSequence.new hash m
  allocateLoop m fuel 0 ps

/-! ### What `next` and `allocate_bucket` return -/

namespace ProbeSequence

variable {m : MetaMap} {ps ps' : ProbeSequence} {r : ProbeResult}

/-- `next` stops at a bucket of the map, keeps the hash, and reports the bucket as it is: empty, a
tombstone, or a possible hit. -/
theorem next_eq_some : ∀ {fuel : Nat} {ps : ProbeSequence}, next m fuel ps = some (r, ps') →
    ps'.hash = ps.hash ∧ ps'.bucket < m.len ∧
      (r = .empty ps'.bucket ∧ m.hintEmpty ps'.bucket = true ∨
        r = .tombstone ps'.bucket ∧ m.hintTombstone ps'.bucket = true ∨
        r = .possibleHit ps'.bucket)
  | 0, _, h => by cases h
  | fuel + 1, ps, h => by
    rw [next] at h
    by_cases hlen : m.len = 0
    · rw [if_pos hlen] at h
      cases h
    rw [if_neg hlen] at h
    dsimp only at h
    have hlt : (ps.advance m.len).bucket < m.len := Nat.mod_lt _ (Nat.pos_of_ne_zero hlen)
    split_ifs at h with hempty htomb
    · cases h
      exact ⟨rfl, hlt, .inl ⟨rfl, hempty⟩⟩
    · cases h
      exact ⟨rfl, hlt, .inr (.inl ⟨rfl, htomb⟩)⟩
    · -- a full bucket of another page: the next round, which keeps the hash
      obtain ⟨hhash, hlt', hr⟩ := next_eq_some h
      exact ⟨hhash, hlt', hr⟩
    · cases h
      exact ⟨rfl, hlt, .inr (.inr rfl)⟩

end ProbeSequence

/-- A bucket `allocate_bucket` can take: empty or a tombstone. -/
def MetaMap.free (m : MetaMap) (bucket : Nat) : Prop :=
  m.hintEmpty bucket = true ∨ m.hintTombstone bucket = true

/-- A bucket the allocation loop returns was free, and it is set full with the page's hash. -/
theorem allocateLoop_eq_some {m : MetaMap} {fuel : Nat} :
    ∀ {i : Nat} {ps : ProbeSequence} {bucket : Nat} {m' : MetaMap},
      allocateLoop m fuel i ps = some (some bucket, m') →
        m.free bucket ∧ bucket < m.len ∧ m' = m.setFull bucket ps.hash := by
  intro i ps
  induction i, ps using allocateLoop.induct m fuel with
  | case1 i ps hi =>
    intro bucket m' h
    rw [allocateLoop, if_pos hi] at h
    cases h
  | case2 i ps hi hnext =>
    intro bucket m' h
    rw [allocateLoop, if_neg hi, hnext] at h
    cases h
  | case3 i ps hi b ps' hnext ih =>
    intro bucket m' h
    rw [allocateLoop, if_neg hi, hnext] at h
    obtain ⟨hfree, hlt, hm'⟩ := ih h
    exact ⟨hfree, hlt, (ProbeSequence.next_eq_some hnext).1 ▸ hm'⟩
  | case4 i ps hi b ps' hnext =>
    intro bucket m' h
    rw [allocateLoop, if_neg hi, hnext] at h
    cases h
    obtain ⟨hhash, hlt, hr⟩ := ProbeSequence.next_eq_some hnext
    rcases hr with ⟨hr, -⟩ | ⟨hr, htomb⟩ | hr
    · cases hr
    · cases hr
      exact ⟨.inr htomb, hlt, by rw [hhash]⟩
    · cases hr
  | case5 i ps hi b ps' hnext =>
    intro bucket m' h
    rw [allocateLoop, if_neg hi, hnext] at h
    cases h
    obtain ⟨hhash, hlt, hr⟩ := ProbeSequence.next_eq_some hnext
    rcases hr with ⟨hr, hempty⟩ | ⟨hr, -⟩ | hr
    · cases hr
      exact ⟨.inl hempty, hlt, by rw [hhash]⟩
    · cases hr
    · cases hr

/-- `allocate_bucket` takes a free bucket and sets it full with the page's hash. -/
theorem allocateBucket_eq_some {hash : UInt64} {m : MetaMap} {fuel bucket : Nat} {m' : MetaMap}
    (h : allocateBucket hash m fuel = some (some bucket, m')) :
    m.free bucket ∧ bucket < m.len ∧ m' = m.setFull bucket hash := by
  simp only [allocateBucket, Option.bind_eq_bind] at h
  obtain ⟨ps, hnew, hloop⟩ := Option.bind_eq_some_iff.mp h
  have hhash : ps.hash = hash := by
    unfold ProbeSequence.new at hnew
    split_ifs at hnew
    cases hnew
    rfl
  exact hhash ▸ allocateLoop_eq_some hloop

/-- A full entry has its top bit set, so it is neither `EMPTY` nor `TOMBSTONE`. -/
theorem testBit_fullEntry (hash : UInt64) : (fullEntry hash).toNat.testBit 7 = true := by
  have hlow : (hash >>> 57).toUInt8.toNat < 2 ^ 7 := by
    rw [UInt64.toNat_toUInt8, UInt64.toNat_shiftRight]
    have := hash.toNat_lt
    simp only [UInt64.reduceToNat, Nat.reduceMod, Nat.shiftRight_eq_div_pow]
    omega
  rw [fullEntry, UInt8.toNat_xor, Nat.testBit_xor, Nat.testBit_lt_two_pow hlow]
  rfl

theorem fullEntry_ne_empty (hash : UInt64) : fullEntry hash ≠ EMPTY := fun h => by
  have := testBit_fullEntry hash
  rw [h] at this
  exact absurd this (by decide)

theorem fullEntry_ne_tombstone (hash : UInt64) : fullEntry hash ≠ TOMBSTONE := fun h => by
  have := testBit_fullEntry hash
  rw [h] at this
  exact absurd this (by decide)

/-! ### Meta bytes -/

namespace MetaMap

variable {m : MetaMap} {bucket j : Nat} {hash : UInt64}

theorem getElem!_set_of_ne {l : List UInt8} {a : UInt8} (hne : bucket ≠ j) :
    (l.set bucket a)[j]! = l[j]! := by
  rw [List.getElem!_eq_getElem?_getD, List.getElem?_set_ne hne, ← List.getElem!_eq_getElem?_getD]

@[simp] theorem length_setFull : (m.setFull bucket hash).bitvec.length = m.bitvec.length :=
  List.length_set

@[simp] theorem length_setTombstone : (m.setTombstone bucket).bitvec.length = m.bitvec.length :=
  List.length_set

theorem getElem!_setFull_self (hb : bucket < m.bitvec.length) :
    (m.setFull bucket hash).bitvec[bucket]! = fullEntry hash := by
  rw [setFull, List.getElem!_eq_getElem?_getD, List.getElem?_set_self hb]
  rfl

theorem setFull_setFull : (m.setFull bucket hash).setFull bucket hash = m.setFull bucket hash :=
  match m with
  | ⟨_, _, _⟩ => by simp only [setFull, List.set_set]

/-- A bucket past the meta map reads as `EMPTY`, so a bucket that is not free lies inside it. -/
theorem lt_of_not_free (h : ¬ m.free bucket) : bucket < m.bitvec.length := by
  by_contra hge
  apply h
  left
  rw [hintEmpty, List.getElem!_eq_getElem?_getD, List.getElem?_eq_none (by omega)]
  rfl

theorem not_free_of_eq_fullEntry (h : m.bitvec[bucket]! = fullEntry hash) : ¬ m.free bucket := by
  rintro (hempty | htomb)
  · rw [hintEmpty, h, beq_iff_eq] at hempty
    exact fullEntry_ne_empty hash hempty
  · rw [hintTombstone, h, beq_iff_eq] at htomb
    exact fullEntry_ne_tombstone hash htomb

theorem hintNotMatch_of_free (h : m.free bucket) : m.hintNotMatch bucket hash = true := by
  rw [hintNotMatch, bne_iff_ne]
  intro heq
  exact not_free_of_eq_fullEntry heq h

theorem hintNotMatch_eq_false (h : m.bitvec[bucket]! = fullEntry hash) :
    m.hintNotMatch bucket hash = false := by
  rw [hintNotMatch, h, bne_self_eq_false]

/-- Whether a bucket is free depends on its byte alone. -/
theorem free_congr {m' : MetaMap} (h : m'.bitvec[bucket]! = m.bitvec[bucket]!) :
    m'.free bucket ↔ m.free bucket := by
  simp only [free, hintEmpty, hintTombstone, h]

end MetaMap

/-- `PageLoader::probe` on at most `tries` calls of `next`: `some bucket` when a read of `bucket`
is submitted, `none` when the page is known to be fresh. Tombstones are skipped. -/
def probe (m : MetaMap) (fuel : Nat) : Nat → ProbeSequence → Option (Option Nat × ProbeSequence)
  | 0, _ => none
  | tries + 1, ps =>
    match ps.next m fuel with
    | none => none
    | some (.tombstone _, ps) => probe m fuel tries ps
    | some (.empty _, ps) => some (none, ps)
    | some (.possibleHit bucket, ps) => some (some bucket, ps)

/-! ### The default number of buckets -/

/-- No triangular number is 2 modulo 5, a divisor of the default 64 000 buckets. -/
theorem tri_mod_five_ne_two (j : Nat) : tri j % 5 ≠ 2 := by
  rw [← tri_mod_mod (by decide) j]
  have hlt : j % 5 < 5 := Nat.mod_lt _ (by decide)
  generalize j % 5 = r at hlt ⊢
  rcases r with _ | _ | _ | _ | _ | r
  all_goals first | decide | omega

/-- With the default 64 000 buckets, the probe sequence of hash 0 never visits bucket 2. On the meta
map whose bucket 2 is empty and whose other buckets are full with a hint other than hash 0's,
`next`, `allocate_bucket` and `PageLoader::probe` never return. -/
theorem probe_default_never_returns (fuel tries : Nat) :
    let m : MetaMap := ⟨Options.new.bitboxNumPages.toNat, (List.replicate 65536 0x81).set 2 EMPTY,
      by rw [List.length_set, List.length_replicate]; decide⟩
    (ProbeSequence.new 0 m).bind (ProbeSequence.next m fuel) = none ∧
      allocateBucket 0 m fuel = none ∧ (ProbeSequence.new 0 m).bind (probe m fuel tries) = none := by
  intro m
  have hlen : m.len = 64000 := rfl
  have hm : m.len ≠ 0 := by rw [hlen]; decide
  -- every round visits a bucket other than 2, and those hold the hint `0x81`
  have hnext : ∀ fuel, ProbeSequence.next m fuel (ProbeSequence.after 0 m.len 0) = none := by
    intro fuel
    refine ProbeSequence.next_eq_none_of_forall hm fun i _ => ?_
    rw [hlen, UInt64.toNat_zero, Nat.zero_add, Nat.zero_add]
    have hne : tri i % 64000 ≠ 2 := fun h =>
      tri_mod_five_ne_two i (by rw [← Nat.mod_mod_of_dvd (tri i) (by decide : 5 ∣ 64000), h])
    have hlt : tri i % 64000 < 65536 := Nat.lt_trans (Nat.mod_lt _ (by decide)) (by decide)
    have hbyte : m.bitvec[tri i % 64000]! = 0x81 := by
      rw [show m.bitvec = (List.replicate 65536 0x81).set 2 EMPTY from rfl,
        List.getElem!_eq_getElem?_getD, List.getElem?_set_ne (Ne.symm hne), List.getElem?_replicate,
        if_pos hlt, Option.getD_some]
    simp only [MetaMap.stops, MetaMap.hintEmpty, MetaMap.hintTombstone, MetaMap.hintNotMatch, hbyte]
    decide
  refine ⟨?_, ?_, ?_⟩
  · rw [ProbeSequence.new_eq_after hm, Option.bind_some, hnext]
  · simp only [allocateBucket, ProbeSequence.new_eq_after hm, Option.bind_eq_bind, Option.bind_some]
    rw [allocateLoop, if_neg (by decide), hnext]
  · rw [ProbeSequence.new_eq_after hm, Option.bind_some]
    cases tries with
    | zero => rfl
    | succ tries => rw [probe, hnext]

end Nomt.Bitbox

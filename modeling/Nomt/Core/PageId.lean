import Nomt.Lib.Bijective
import Nomt.Lib.ByteOrder
import Nomt.Lib.PathOrder

/-!
# Page identifiers (`core/src/page_id.rs`)

A page is named by its path of child indices from the root page, each below 64, at most
`MAX_PAGE_DEPTH = 42` of them. `PageId::encode` writes 64 times the path's number in bijective
base 64 (`Bijective.val`) as 32 big-endian bytes: below depth 10 the number is built in a `u64`,
above it in a 256-bit `Uint` whose additions and shifts wrap (`encode_eq_beBytes`).

The bitbox store hashes these 32 bytes to place a page and compares them with the bytes stored
after a page to recognise it. Up to depth 41 the scaled number stays below `2 ^ 256` and `encode`
is injective (`encode_injective_of_depth_le`). At depth 42 the page numbers reach `2 ^ 252`; the
last shift then loses the high bits, and a page at depth 42 encodes as the root page does.

`PageId::decode` peels sextets off the low end, one less each time, as the representation of the
source's module documentation has it: the page's number itself, with no factor 64. It inverts
that representation for every page (`decode_beBytes_number`), hence not `encode`
(`decode_encode_ne`).

Page IDs are ordered by their paths, lexicographically (the derived `Ord`): depth-first, as the
source's documentation says. The subtree of a page is the interval from the page to its
`max_descendant` (`le_maxDescendant_iff`).
-/

namespace Nomt

open Bijective ByteOrder

/-- `page::DEPTH`: the number of trie levels a page holds. -/
def pageDepth : Nat := 6

/-- `MAX_PAGE_DEPTH`. -/
def maxPageDepth : Nat := 42

/-- `MAX_CHILD_INDEX`: `(1 << DEPTH) - 1`. -/
def maxChildIndex : UInt8 := (1 <<< pageDepth.toUInt8) - 1

/-- `NUM_CHILDREN`: `MAX_CHILD_INDEX + 1`. -/
def numChildren : Nat := maxChildIndex.toNat + 1

/-- `ChildPageIndex`: a child index at most `MAX_CHILD_INDEX`. -/
structure ChildPageIndex where
  index : UInt8
  le_max : index ≤ maxChildIndex

/-- `ChildPageIndex::new`. -/
def ChildPageIndex.new (index : UInt8) : Option ChildPageIndex :=
  if h : index > maxChildIndex then none else some ⟨index, UInt8.not_lt.mp h⟩

theorem ChildPageIndex.new_of_le {index : UInt8} (h : index ≤ maxChildIndex) :
    ChildPageIndex.new index = some ⟨index, h⟩ :=
  dif_neg (UInt8.not_lt.mpr h)

/-- `PageId`: the child indices from the root page, each at most `MAX_CHILD_INDEX`, at most
`MAX_PAGE_DEPTH` of them. -/
@[ext] structure PageId where
  path : List UInt8
  length_le : path.length ≤ maxPageDepth
  le_max : ∀ limb ∈ path, limb ≤ maxChildIndex

/-- `ROOT_PAGE_ID`. -/
def rootPageId : PageId := ⟨[], Nat.zero_le _, fun _ h => absurd h List.not_mem_nil⟩

/-- `ChildPageIdError`. -/
inductive ChildPageIdError
  | pageIdOverflow
deriving DecidableEq, Repr

namespace PageId

/-- `PageId::depth`. -/
def depth (p : PageId) : Nat := p.path.length

/-- `PageId::child_page_id`: fails at the deepest layer. -/
def childPageId (p : PageId) (childIndex : ChildPageIndex) : Except ChildPageIdError PageId :=
  if h : p.path.length ≥ maxPageDepth then .error .pageIdOverflow
  else .ok ⟨p.path ++ [childIndex.index], by simp only [List.length_append, List.length_singleton]; omega,
    fun limb hl => by
      rcases List.mem_append.mp hl with hl | hl
      · exact p.le_max limb hl
      · rw [List.mem_singleton.mp hl]
        exact childIndex.le_max⟩

/-- Above the deepest layer `child_page_id` appends the child index. -/
theorem childPageId_of_lt {p : PageId} (h : p.depth < maxPageDepth) (c : ChildPageIndex) :
    ∃ q, p.childPageId c = .ok q ∧ q.path = p.path ++ [c.index] :=
  ⟨_, dif_neg (Nat.not_le.mpr h), rfl⟩

/-- The pages `child_page_id` builds from the root page. -/
inductive Reachable : PageId → Prop
  | root : Reachable rootPageId
  | child {p q : PageId} {c : ChildPageIndex} : Reachable p → p.childPageId c = .ok q → Reachable q

/-- Every `PageId` is built from the root page by `child_page_id`, one child index of its path at a
time: the structure's bounds are exactly what `child_page_id` keeps. -/
theorem reachable (p : PageId) : Reachable p := by
  obtain ⟨path, hlen, hle⟩ := p
  induction path using List.reverseRecOn with
  | nil => exact Reachable.root
  | append_singleton path limb ih =>
    have hlen' : path.length < maxPageDepth := by
      simp only [List.length_append, List.length_singleton] at hlen
      omega
    have hparent := ih (by omega) fun x hx => hle x (List.mem_append_left _ hx)
    refine Reachable.child (c := ⟨limb, hle limb (by simp)⟩) hparent ?_
    rw [childPageId, dif_neg (by simpa using hlen')]

/-- `PageId::encode`. Neither `(limb + 1)` on a `u8` nor the `u64` sum can overflow: the limbs
are at most 63, and a page below depth 10 needs at most 61 bits. -/
def encode (p : PageId) : List UInt8 :=
  if p.path.length < 10 then
    let word : UInt64 := p.path.foldl (fun word limb => (word + (limb + 1).toUInt64) <<< 6) 0
    List.replicate 24 0 ++ beBytes word.toNat 8
  else
    let uint : BitVec 256 :=
      p.path.foldl (fun uint limb => (uint + BitVec.ofNat 256 (limb + 1).toNat) <<< 6) 0
    beBytes uint.toNat 32

/-! ### What `encode` computes -/

/-- The page's number in bijective base 64. -/
def number (p : PageId) : Nat := val 64 (p.path.map UInt8.toNat)

theorem maxChildIndex_eq : maxChildIndex = 63 := by decide

theorem toNat_lt_of_mem (p : PageId) {limb : UInt8} (h : limb ∈ p.path) : limb.toNat < 64 := by
  have hle := p.le_max limb h
  rw [maxChildIndex_eq, UInt8.le_iff_toNat_le] at hle
  exact Nat.lt_succ_of_le hle

theorem digit_lt (p : PageId) : ∀ d ∈ p.path.map UInt8.toNat, d < 64 := by
  intro d hd
  obtain ⟨limb, hl, rfl⟩ := List.mem_map.mp hd
  exact p.toNat_lt_of_mem hl

/-- A page of depth `k` has a number with `63 * number + 64 ≤ 64 ^ (k + 1)`. -/
theorem number_bound (p : PageId) : 63 * p.number + 64 ≤ 64 ^ (p.depth + 1) := by
  have := pred_mul_val_add_le p.digit_lt
  rwa [List.length_map] at this

/-- The `u64` word of `encode` holds 64 times the page's number, modulo `2 ^ 64`. -/
theorem toNat_encodeWord (p : PageId) :
    (p.path.foldl (fun (word : UInt64) limb => (word + (limb + 1).toUInt64) <<< 6) 0).toNat =
      64 * p.number % 2 ^ 64 := by
  have hlimb : ∀ (word : UInt64), ∀ limb ∈ p.path,
      (word + (limb + 1).toUInt64) <<< 6 = (word + UInt64.ofNat (limb.toNat + 1)) <<< 6 := by
    intro word limb hl
    have hlt := p.toNat_lt_of_mem hl
    congr 2
    rw [← UInt64.toNat_inj, UInt8.toNat_toUInt64, UInt64.toNat_ofNat', UInt8.toNat_add]
    simp only [UInt8.reduceToNat]
    omega
  rw [List.foldl_ext _ _ _ hlimb,
    ← List.foldl_map (f := UInt8.toNat) (g := fun word d => (word + UInt64.ofNat (d + 1)) <<< 6)]
  refine foldl_hom_val UInt64.toNat _ rfl (fun word d => ?_) _
  rw [UInt64.toNat_shiftLeft, UInt64.toNat_add, UInt64.toNat_ofNat', Nat.shiftLeft_eq]
  simp only [UInt64.reduceToNat, Nat.reduceMod]
  rw [Nat.add_mod_mod, Nat.mod_mul_mod]

/-- The 256-bit integer of `encode` holds 64 times the page's number, modulo `2 ^ 256`. -/
theorem toNat_encodeUint (p : PageId) :
    (p.path.foldl (fun (uint : BitVec 256) limb => (uint + BitVec.ofNat 256 (limb + 1).toNat) <<< 6)
      0).toNat = 64 * p.number % 2 ^ 256 := by
  have hlimb : ∀ (uint : BitVec 256), ∀ limb ∈ p.path,
      (uint + BitVec.ofNat 256 (limb + 1).toNat) <<< 6 =
        (uint + BitVec.ofNat 256 (limb.toNat + 1)) <<< 6 := by
    intro uint limb hl
    have hlt := p.toNat_lt_of_mem hl
    rw [UInt8.toNat_add]
    simp only [UInt8.reduceToNat]
    rw [Nat.mod_eq_of_lt (by omega)]
  rw [List.foldl_ext _ _ _ hlimb,
    ← List.foldl_map (f := UInt8.toNat) (g := fun uint d => (uint + BitVec.ofNat 256 (d + 1)) <<< 6)]
  exact toNat_foldl_shiftLeft 256 6 _

/-- `encode` writes the low 32 bytes of 64 times the page's number. -/
theorem encode_eq_beBytes (p : PageId) : p.encode = beBytes (64 * p.number) 32 := by
  unfold encode
  split_ifs with hshort <;> dsimp only
  · -- below depth 10 the word does not wrap, and the 24 bytes above it are zero
    have hbound := p.number_bound
    have hpow : 64 ^ (p.depth + 1) ≤ 64 ^ 10 := Nat.pow_le_pow_right (by omega) hshort
    have hlt : 64 * p.number < 2 ^ 64 := by
      have : (64 : Nat) ^ 10 = 2 ^ 60 := by norm_num
      omega
    rw [toNat_encodeWord, Nat.mod_eq_of_lt hlt, ← beBytes_zero,
      show (0 : Nat) = 64 * p.number / 256 ^ 8 from (Nat.div_eq_of_lt (by omega)).symm,
      ← beBytes_add]
  · rw [toNat_encodeUint, show 2 ^ 256 = 256 ^ 32 by norm_num, beBytes_mod]

@[simp] theorem length_encode (p : PageId) : p.encode.length = 32 := by
  rw [encode_eq_beBytes, length_beBytes]

/-- Up to depth 41, 64 times a page's number stays below `2 ^ 256`. -/
theorem number_lt_of_depth_le {p : PageId} (hp : p.depth ≤ 41) : 64 * p.number < 256 ^ 32 := by
  have hbound := p.number_bound
  have hpow : 64 ^ (p.depth + 1) ≤ 64 ^ 42 := Nat.pow_le_pow_right (by omega) (by omega)
  have h64 : (64 : Nat) ^ 42 = 2 ^ 252 := by norm_num
  have h256 : (256 : Nat) ^ 32 = 2 ^ 256 := by norm_num
  omega

/-- Up to depth 41 no two pages share an encoding: the encoding gives back the page's number,
and distinct paths have distinct numbers in bijective base 64. -/
theorem encode_injective_of_depth_le {p q : PageId} (hp : p.depth ≤ 41) (hq : q.depth ≤ 41)
    (h : p.encode = q.encode) : p = q := by
  rw [encode_eq_beBytes, encode_eq_beBytes, beBytes_eq_beBytes_iff,
    Nat.mod_eq_of_lt (number_lt_of_depth_le hp), Nat.mod_eq_of_lt (number_lt_of_depth_le hq)] at h
  have hdigits := val_injective p.digit_lt q.digit_lt (by unfold number at h; omega)
  exact PageId.ext (List.map_injective_iff.mpr (fun _ _ => UInt8.toNat_inj.mp) hdigits)

/-- The bound on the limbs, checked limb by limb. -/
theorem le_max_of_all {path : List UInt8} (h : path.all (· ≤ maxChildIndex) = true) :
    ∀ limb ∈ path, limb ≤ maxChildIndex :=
  fun limb hl => of_decide_eq_true (List.all_eq_true.mp h limb hl)

/-- The root page and the page at depth 42 with path `[14, 62, …, 62, 63]`, whose number is
`2 ^ 250`, have the same encoding: 64 times that number is `2 ^ 256`. -/
theorem encode_rootPageId_eq_depth_42 :
    rootPageId.encode =
      (⟨14 :: List.replicate 40 62 ++ [63], by decide, le_max_of_all (by decide)⟩ : PageId).encode := by
  rw [encode_eq_beBytes, encode_eq_beBytes, beBytes_eq_beBytes_iff]
  decide

/-! ### `decode` -/

/-- `HIGHEST_ENCODED_42`: the number of the highest page at depth 42, whose 42 limbs are 63. -/
def highestEncoded42 : Nat :=
  ofBeBytes [16, 65, 4, 16, 65, 4, 16, 65, 4, 16, 65, 4, 16, 65, 4, 16, 65, 4, 16, 65, 4, 16, 65,
    4, 16, 65, 4, 16, 65, 4, 16, 64]

/-- `InvalidPageIdBytes`. -/
structure InvalidPageIdBytes where
deriving DecidableEq, Repr

/-- `Uint::<256, 4>::leading_zeros`. -/
def leadingZeros (uint : BitVec 256) : Nat :=
  if uint.toNat = 0 then 256 else 255 - uint.toNat.log2

/-- `ArrayVec::<u8, MAX_PAGE_DEPTH>::push`, which panics when the vector is full. -/
def pushLimb (path : List UInt8) (limb : UInt8) : Option (List UInt8) :=
  if path.length < maxPageDepth then some (path ++ [limb]) else none

/-- The `for _ in 0..sextets - 1` loop of `decode`: take one away, push the low sextet and shift
it out. -/
def decodeLoop : Nat → BitVec 256 → List UInt8 → Option (BitVec 256 × List UInt8)
  | 0, uint, path => some (uint, path)
  | n + 1, uint, path => do
    let uint := uint - 1
    let x := uint &&& 0b111111
    let path ← pushLimb path (UInt8.ofNat x.toNat)
    decodeLoop n (uint >>> pageDepth) path

/-- `PageId::decode`, with the path of the page it returns; `none` where a push past
`MAX_PAGE_DEPTH` limbs panics. -/
def decode (bytes : List UInt8) : Option (Except InvalidPageIdBytes (List UInt8)) := do
  let uint : BitVec 256 := BitVec.ofNat 256 (ofBeBytes bytes)
  if uint.toNat > highestEncoded42 then return .error ⟨⟩
  let bitCount := 256 - leadingZeros uint
  let sextets := (bitCount + 5) / 6
  if bitCount = 0 then return .ok []
  let (uint, path) ← decodeLoop (sextets - 1) uint []
  -- `uint.byte(0)`, the low byte of what the loop leaves
  let path ← if uint.toNat % 256 ≠ 0 then pushLimb path (UInt8.ofNat ((uint - 1).toNat % 256))
    else some path
  return .ok path.reverse

section Decode

theorem toNat_sub_one {uint : BitVec 256} (h : 1 ≤ uint.toNat) : (uint - 1).toNat = uint.toNat - 1 := by
  have hone : (1 : BitVec 256).toNat = 1 := rfl
  have := uint.isLt
  rw [BitVec.toNat_sub, hone]
  omega

theorem toNat_and_sextet (uint : BitVec 256) : (uint &&& 0b111111).toNat = uint.toNat % 64 := by
  have hmask : (0b111111 : BitVec 256).toNat = 2 ^ 6 - 1 := rfl
  rw [BitVec.toNat_and, hmask, Nat.and_two_pow_sub_one_eq_mod]

theorem toNat_shiftRight_pageDepth (uint : BitVec 256) :
    (uint >>> pageDepth).toNat = uint.toNat / 64 := by
  rw [BitVec.toNat_ushiftRight, Nat.shiftRight_eq_div_pow]
  rfl

/-- The loop run `k` times on a number at least the string of `k` lowest digits, with room for `k`
more limbs: it pushes `k` limbs below 64, least significant first, and leaves the number's
leading digits, so that the number is `rest * 64 ^ k` plus the value of the limbs. -/
theorem decodeLoop_eq : ∀ (k : Nat) (uint : BitVec 256) (path : List UInt8),
    val 64 (List.replicate k 0) ≤ uint.toNat → path.length + k ≤ maxPageDepth →
    ∃ rest limbs, decodeLoop k uint path = some (rest, path ++ limbs) ∧ limbs.length = k ∧
      (∀ limb ∈ limbs, limb.toNat < 64) ∧
      uint.toNat = rest.toNat * 64 ^ k + val 64 (limbs.reverse.map UInt8.toNat)
  | 0, uint, path, _, _ => ⟨uint, [], by simp [decodeLoop], rfl, by simp, by simp⟩
  | k + 1, uint, path, hlow, hlen => by
    have hrep : val 64 (List.replicate (k + 1) 0) = val 64 (List.replicate k 0) * 64 + 1 := by
      rw [List.replicate_succ', val_append_singleton]
    -- the number is not zero, so taking one away does not wrap
    have hsub : (uint - 1).toNat = uint.toNat - 1 := toNat_sub_one (by omega)
    have hlimb : (UInt8.ofNat ((uint - 1) &&& 0b111111).toNat).toNat = (uint.toNat - 1) % 64 := by
      rw [toNat_and_sextet, hsub, UInt8.toNat_ofNat']
      omega
    have hshift : ((uint - 1) >>> pageDepth).toNat = (uint.toNat - 1) / 64 := by
      rw [toNat_shiftRight_pageDepth, hsub]
    obtain ⟨rest, limbs, hrun, hlimbs, hlt, hnum⟩ := decodeLoop_eq k ((uint - 1) >>> pageDepth)
      (path ++ [UInt8.ofNat ((uint - 1) &&& 0b111111).toNat]) (by rw [hshift]; omega)
      (by simp only [List.length_append, List.length_singleton]; omega)
    refine ⟨rest, UInt8.ofNat ((uint - 1) &&& 0b111111).toNat :: limbs, ?_, by simp [hlimbs],
      ?_, ?_⟩
    · simp only [decodeLoop, pushLimb, if_pos (show path.length < maxPageDepth by omega),
        Option.bind_eq_bind, Option.bind_some, hrun, List.append_assoc, List.singleton_append]
    · intro limb hmem
      rcases List.mem_cons.mp hmem with rfl | hmem
      · rw [hlimb]
        omega
      · exact hlt limb hmem
    · -- one more digit below the rest: `n = ((n - 1) / 64) * 64 + (n - 1) % 64 + 1`
      rw [List.reverse_cons, List.map_append, List.map_singleton, val_append_singleton, hlimb,
        Nat.pow_succ, ← Nat.mul_assoc]
      rw [hshift] at hnum
      generalize rest.toNat * 64 ^ k = high at hnum ⊢
      omega

/-- `HIGHEST_ENCODED_42` is the number of 42 limbs of 63: `63 * it + 64 = 64 ^ 43`. -/
theorem highestEncoded42_eq : 63 * highestEncoded42 + 64 = 64 ^ 43 := by decide

theorem highestEncoded42_lt : highestEncoded42 < 2 ^ 253 := by decide

variable {bytes : List UInt8}

theorem ofBeBytes_lt_of_length (hlen : bytes.length = 32) : ofBeBytes bytes < 2 ^ 256 := by
  have := ofBeBytes_lt bytes
  rwa [hlen] at this

/-- Above `HIGHEST_ENCODED_42`, `decode` fails. -/
theorem decode_of_lt (h : highestEncoded42 < ofBeBytes bytes) (hlen : bytes.length = 32) :
    decode bytes = some (.error ⟨⟩) := by
  simp only [decode, BitVec.toNat_ofNat, Nat.mod_eq_of_lt (ofBeBytes_lt_of_length hlen), gt_iff_lt,
    if_pos h]
  rfl

/-- A nonzero number has `log2 n + 1` bits, so `log2 n / 6` whole sextets below its leading one:
`64 ^ (log2 n / 6) ≤ n < 64 ^ (log2 n / 6 + 1)`. -/
theorem pow_log2_div_six_le {n : Nat} (h0 : n ≠ 0) :
    64 ^ (n.log2 / 6) ≤ n ∧ n < 64 ^ (n.log2 / 6) * 64 := by
  constructor
  · calc 64 ^ (n.log2 / 6) = 2 ^ (6 * (n.log2 / 6)) := by rw [Nat.pow_mul]
      _ ≤ 2 ^ n.log2 := Nat.pow_le_pow_right (by decide) (by omega)
      _ ≤ n := Nat.log2_self_le h0
  · calc n < 2 ^ (n.log2 + 1) := Nat.lt_log2_self
      _ ≤ 2 ^ (6 * (n.log2 / 6 + 1)) := Nat.pow_le_pow_right (by decide) (by omega)
      _ = 64 ^ (n.log2 / 6) * 64 := by rw [Nat.pow_mul, Nat.pow_succ]

/-- Below `HIGHEST_ENCODED_42`, 42 digits leave nothing above them. -/
theorem eq_zero_of_le_highestEncoded42 {rest : Nat} {ds : List Nat} (hds : ds.length = 42)
    (h : rest * 64 ^ 42 + val 64 ds ≤ highestEncoded42) : rest = 0 := by
  have hlow := val_replicate_zero_le (b := 64) ds
  have hrep := pred_mul_val_replicate_zero (b := 64) (by decide) 42
  have hH := highestEncoded42_eq
  have h43 : (64 : Nat) ^ 43 = 64 ^ 42 * 64 := Nat.pow_succ ..
  rw [hds] at hlow
  refine Nat.eq_zero_of_not_pos fun hpos => ?_
  have hge : 64 ^ 42 ≤ rest * 64 ^ 42 := Nat.le_mul_of_pos_left _ hpos
  omega

/-- Up to `HIGHEST_ENCODED_42`, `decode` reads the bytes' number in bijective base 64: it returns
at most `MAX_PAGE_DEPTH` limbs below 64 whose number that is. -/
theorem decode_of_le (h : ofBeBytes bytes ≤ highestEncoded42) (hlen : bytes.length = 32) :
    ∃ path, decode bytes = some (.ok path) ∧ val 64 (path.map UInt8.toNat) = ofBeBytes bytes ∧
      path.length ≤ maxPageDepth ∧ ∀ limb ∈ path, limb.toNat < 64 := by
  have hlt := ofBeBytes_lt_of_length hlen
  have hH' := highestEncoded42_lt
  set n := ofBeBytes bytes with hn
  simp only [decode, ← hn, BitVec.toNat_ofNat, Nat.mod_eq_of_lt hlt, gt_iff_lt, Nat.not_lt.mpr h,
    if_false, leadingZeros]
  by_cases h0 : n = 0
  · -- no bit is set: the root page
    refine ⟨[], ?_, by simp [h0], by simp [maxPageDepth], by simp⟩
    simp only [h0, if_true]
    rfl
  -- `log2 n + 1` bits, so `log2 n / 6` rounds of the loop, which never reach zero
  have hlog : n.log2 < 253 := (Nat.log2_lt h0).mpr (by omega)
  have hbits : 256 - (255 - n.log2) = n.log2 + 1 := by omega
  have hrounds : (n.log2 + 1 + 5) / 6 - 1 = n.log2 / 6 := by omega
  simp only [h0, if_false, hbits, hrounds, Nat.add_one_ne_zero]
  obtain ⟨hpowL, hpowL1⟩ := pow_log2_div_six_le h0
  set L := n.log2 / 6 with hL
  have hrep := pred_mul_val_replicate_zero (b := 64) (by decide) L
  obtain ⟨rest, limbs, hrun, hlimbs, hsmall, hnum⟩ := decodeLoop_eq L (BitVec.ofNat 256 n) []
    (by rw [BitVec.toNat_ofNat, Nat.mod_eq_of_lt hlt]; omega)
    (by simp only [List.length_nil, maxPageDepth]; omega)
  rw [BitVec.toNat_ofNat, Nat.mod_eq_of_lt hlt] at hnum
  have hrest : rest.toNat < 64 := by
    refine Nat.lt_of_mul_lt_mul_right (a := 64 ^ L) ?_
    rw [Nat.mul_comm 64]
    omega
  simp only [hrun, List.nil_append, Option.bind_eq_bind, Option.bind_some]
  by_cases hr : rest.toNat = 0
  · -- the loop took every digit
    refine ⟨limbs.reverse, ?_, ?_, ?_, ?_⟩
    · simp only [hr, Nat.zero_mod, ne_eq, not_true_eq_false, if_false]
      rfl
    · rw [hnum, hr, Nat.zero_mul, Nat.zero_add, List.map_reverse]
    · simp only [List.length_reverse, hlimbs, maxPageDepth]
      omega
    · intro limb hmem
      exact hsmall limb (List.mem_reverse.mp hmem)
  -- the leading digit is what the loop leaves, less one; there is room for it, since 42 limbs
  -- below a leading digit exceed `HIGHEST_ENCODED_42`
  have hroom : limbs.length < maxPageDepth := by
    rw [hlimbs]
    refine Nat.lt_of_le_of_ne (by simp only [maxPageDepth]; omega) fun hL42 => hr ?_
    rw [hL42] at hnum
    exact eq_zero_of_le_highestEncoded42 (by simp [hlimbs, hL42, maxPageDepth]) (hnum ▸ h)
  have hlead : (UInt8.ofNat ((rest - 1).toNat % 256)).toNat = rest.toNat - 1 := by
    rw [toNat_sub_one (by omega), UInt8.toNat_ofNat']
    omega
  refine ⟨(limbs ++ [UInt8.ofNat ((rest - 1).toNat % 256)]).reverse, ?_, ?_, ?_, ?_⟩
  · simp only [show rest.toNat % 256 ≠ 0 by omega, ne_eq, not_false_eq_true, if_true, pushLimb,
      if_pos hroom, Option.bind_some]
    rfl
  · rw [List.reverse_append, List.map_append, val_append, List.length_map, List.length_reverse,
      hlimbs, List.reverse_singleton, List.map_singleton, hlead, hnum]
    simp only [val, List.foldl_cons, List.foldl_nil, Nat.zero_mul, Nat.zero_add]
    rw [Nat.sub_add_cancel (by omega)]
  · simp only [List.length_reverse, List.length_append, List.length_singleton]
    omega
  · intro limb hmem
    rcases List.mem_append.mp (List.mem_reverse.mp hmem) with hmem | hmem
    · exact hsmall limb hmem
    · rw [List.mem_singleton.mp hmem, hlead]
      omega

/-- No positive number below `2 ^ 253` is its own 64-fold modulo `2 ^ 256`. -/
theorem ne_sixtyFour_mul_mod {n : Nat} (hpos : 0 < n) (hn : n < 2 ^ 253) :
    n ≠ 64 * n % 256 ^ 32 := by
  intro hval
  -- `63 * n` is a multiple of `256 ^ 32`, which is coprime to `63`; the modulus is kept out of
  -- `omega`'s sight, which does not finish on literals of this size
  have hdvd : 256 ^ 32 ∣ 63 * n := by
    have hmod := Nat.mod_add_div (64 * n) (256 ^ 32)
    rw [← hval] at hmod
    clear hval hn
    generalize 256 ^ 32 = M at hmod ⊢
    exact ⟨64 * n / M, by omega⟩
  have hcop : Nat.Coprime (256 ^ 32) 63 := by decide
  have hle := Nat.le_of_dvd hpos (hcop.dvd_of_dvd_mul_left hdvd)
  have hlt : (2 : Nat) ^ 253 < 256 ^ 32 := by decide
  exact absurd (hn.trans hlt) (Nat.not_lt.mpr hle)

theorem number_le_highestEncoded42 (p : PageId) : p.number ≤ highestEncoded42 := by
  have hbound := p.number_bound
  have hdepth : p.depth ≤ 42 := p.length_le
  have hpow : 64 ^ (p.depth + 1) ≤ 64 ^ 43 := Nat.pow_le_pow_right (by decide) (by omega)
  have hH := highestEncoded42_eq
  omega

/-- `decode` inverts the representation the module documentation describes: the page's number in
bijective base 64, as 32 big-endian bytes. -/
theorem decode_beBytes_number (p : PageId) : decode (beBytes p.number 32) = some (.ok p.path) := by
  have hlt : p.number < 256 ^ 32 := by
    have := p.number_le_highestEncoded42
    have := highestEncoded42_lt
    omega
  obtain ⟨path, hdec, hval, -, hsmall⟩ := decode_of_le
    (by rw [ofBeBytes_beBytes, Nat.mod_eq_of_lt hlt]; exact p.number_le_highestEncoded42)
    (length_beBytes _)
  rw [ofBeBytes_beBytes, Nat.mod_eq_of_lt hlt] at hval
  -- two digit strings of one number are one string
  have hdigits : path.map UInt8.toNat = p.path.map UInt8.toNat := by
    refine val_injective (fun d hd => ?_) p.digit_lt hval
    obtain ⟨limb, hl, rfl⟩ := List.mem_map.mp hd
    exact hsmall limb hl
  rw [hdec, List.map_injective_iff.mpr (fun _ _ => UInt8.toNat_inj.mp) hdigits]

/-- `encode` writes 64 times the page's number (`encode_eq_beBytes`), so `decode` gives back no
page but the root. -/
theorem decode_encode_ne (p : PageId) (hp : p.path ≠ []) : decode p.encode ≠ some (.ok p.path) := by
  intro h
  rw [encode_eq_beBytes] at h
  have hpos : 0 < p.number := val_pos_of_ne_nil (by simpa using hp)
  have hle := p.number_le_highestEncoded42
  have hH := highestEncoded42_lt
  by_cases hm : highestEncoded42 < ofBeBytes (beBytes (64 * p.number) 32)
  · rw [decode_of_lt hm (length_beBytes _)] at h
    cases h
  · obtain ⟨path, hdec, hval, -, -⟩ := decode_of_le (Nat.le_of_not_lt hm) (length_beBytes _)
    rw [hdec] at h
    cases h
    -- the page's number would be 64 times itself modulo `2 ^ 256`
    rw [ofBeBytes_beBytes] at hval
    exact ne_sixtyFour_mul_mod hpos (hle.trans_lt hH) hval


/-- The first child of the root: `encode` writes `64`, the number of the page `[63]`, which
`decode` reads back. -/
theorem decode_encode_child_zero :
    decode (⟨[0], by decide, le_max_of_all (by decide)⟩ : PageId).encode = some (.ok [63]) := by
  rw [encode_eq_beBytes]
  exact decode_beBytes_number ⟨[63], by decide, le_max_of_all (by decide)⟩

end Decode

/-! ### Tree navigation and the depth-first order -/

/-- The derived `Ord` of `PageId`: the paths, compared lexicographically. It is a linear order. -/
instance : LinearOrder PageId where
  le p q := p.path ≤ q.path
  lt p q := p.path < q.path
  le_refl p := List.le_refl p.path
  le_trans _ _ _ := List.le_trans
  lt_iff_le_not_ge _ _ := ⟨fun h => ⟨List.le_of_lt h, fun h' => h' h⟩,
    fun ⟨_, h⟩ => Classical.not_not.mp h⟩
  le_antisymm _ _ h h' := PageId.ext (List.le_antisymm h h')
  le_total p q := List.le_total p.path q.path
  toDecidableLE p q := inferInstanceAs (Decidable (p.path ≤ q.path))
  toDecidableLT p q := inferInstanceAs (Decidable (p.path < q.path))
  toDecidableEq p q := decidable_of_iff (p.path = q.path) PageId.ext_iff.symm

theorem lt_def {p q : PageId} : p < q ↔ p.path < q.path := Iff.rfl

theorem le_def {p q : PageId} : p ≤ q ↔ p.path ≤ q.path := Iff.rfl

/-- A path is bounded by `MAX_PAGE_DEPTH` and `MAX_CHILD_INDEX`. -/
theorem bounded (p : PageId) : PathOrder.Bounded maxPageDepth maxChildIndex p.path :=
  ⟨p.length_le, p.le_max⟩

/-- `PageId::child_index_at_level`: panics below the page's depth. -/
def childIndexAtLevel (p : PageId) (depth : Nat) : Option ChildPageIndex :=
  if h : depth < p.path.length then some ⟨p.path[depth], p.le_max _ (List.getElem_mem h)⟩
  else none

/-- `PageId::parent_page_id`: the root is its own parent. -/
def parentPageId (p : PageId) : PageId :=
  if p = rootPageId then rootPageId
  else ⟨p.path.dropLast, Nat.le_trans (List.dropLast_prefix _).length_le p.length_le,
    fun limb h => p.le_max limb ((List.dropLast_prefix _).subset h)⟩

/-- `PageId::is_descendant_of`: `self.path.starts_with(&other.path)`, so a page is a descendant
of itself. -/
def isDescendantOf (p other : PageId) : Bool := other.path.isPrefixOf p.path

/-- `PageId::max_descendant`: the loop pushes `MAX_CHILD_INDEX` until the path has
`MAX_PAGE_DEPTH` limbs. -/
def maxDescendant (p : PageId) : PageId :=
  ⟨PathOrder.maxExt maxPageDepth maxChildIndex p.path, (p.bounded.maxExt).1, (p.bounded.maxExt).2⟩

theorem isDescendantOf_iff {p other : PageId} : p.isDescendantOf other ↔ other.path <+: p.path :=
  List.isPrefixOf_iff_prefix

theorem parentPageId_path {p : PageId} (hp : p ≠ rootPageId) :
    p.parentPageId.path = p.path.dropLast := by
  rw [parentPageId, if_neg hp]

theorem path_ne_nil {p : PageId} (hp : p ≠ rootPageId) : p.path ≠ [] :=
  fun h => hp (PageId.ext h)

/-- Every page but the root has a child index at level 0. -/
theorem childIndexAtLevel_zero_isSome {p : PageId} (hp : p ≠ rootPageId) :
    (p.childIndexAtLevel 0).isSome :=
  by rw [childIndexAtLevel, dif_pos (List.length_pos_of_ne_nil (path_ne_nil hp))]; rfl

/-- The pages of the subtree of `p` are those from `p` to its `max_descendant`. -/
theorem le_maxDescendant_iff {p q : PageId} :
    (p ≤ q ∧ q ≤ p.maxDescendant) ↔ p.path <+: q.path := by
  constructor
  · rintro ⟨hpq, hq⟩
    exact PathOrder.prefix_of_le_maxExt hpq hq
  · intro h
    exact ⟨h.le, PathOrder.le_maxExt_of_prefix h q.bounded⟩

end PageId

end Nomt

import Nomt.Core.MultiProof
import Nomt.Core.PathProofCorrect

/-!
# Multi-proofs of honest path proofs

The honest path proofs of distinct terminal positions of a map, in ascending order of their
terminal paths, merge (`from_path_proofs`) into a multi-proof with one path per proof at the
proof's depth; the multi-proof verifies against the map's root using all its siblings, and the
verified multi-proof finds every key below a path at that path and answers for it what the path's
terminal says (`fromPathProofs_complete`).

The loop of `from_path_proofs` and the recursion of `verify_range` walk the same bisections. A range
of the loop is honest (`HonestRange`) when its positions lie below a prefix as long as its bit
index. What an honest range comes to (`RangeComplete`) is proved by induction on its size
(`rangeComplete_of_honest`):

* a range of one proof emits the proof's siblings below the prefix, and these hash its terminal up
  to the canonical node at the prefix (`rangeComplete_single`);
* a range of two or more takes the siblings its two ends share, a round a bit, and is bisected where
  the ends part into two honest ranges; `verify_range` finds the same bisection and consumes the
  shared siblings and the two halves' siblings in the order the loop emits them
  (`rangeComplete_bisect`).
-/

namespace Nomt

open BitString

variable {N V : Type}

/-- The multi-path proof of the terminal position `p`: its honest terminal, at the depth of `p`. -/
def TrieMap.multiPathAt (M : TrieMap V) (p : List Bool) : MultiPathProof V :=
  ⟨M.terminalAt p, p.length⟩

@[simp] theorem TrieMap.terminal_multiPathAt (M : TrieMap V) (p : List Bool) :
    (M.multiPathAt p).terminal = M.terminalAt p := rfl

@[simp] theorem TrieMap.depth_multiPathAt (M : TrieMap V) (p : List Bool) :
    (M.multiPathAt p).depth = p.length := rfl

/-! ## Positions parting left to right -/

section Parting

variable {a b e : List Bool} {rest : List (List Bool)}
  (hsorted : (a :: b :: rest).Pairwise Before)
  (he : (b :: rest).getLast (List.cons_ne_nil _ _) = e)
include hsorted he

theorem before_getLast : Before a e := by
  subst he
  exact List.rel_of_pairwise_cons hsorted (List.getLast_mem _)

/-- Positions parting left to right agree with the first one up to where the two ends part, and
all go on past it. -/
theorem take_commonPrefixLen_getLast {x : List Bool} (hx : x ∈ a :: b :: rest) :
    x.take (commonPrefixLen a e) = a.take (commonPrefixLen a e) ∧
      commonPrefixLen a e < x.length := by
  have hae := before_getLast hsorted he
  have hlast : (a :: b :: rest).getLast? = some e := by
    rw [List.getLast?_eq_some_getLast (List.cons_ne_nil _ _),
      List.getLast_cons (List.cons_ne_nil _ _), he]
  have htake : x.take (commonPrefixLen a e) = a.take (commonPrefixLen a e) := by
    exact take_eq_of_between (rel_or_eq_of_head? hsorted rfl hx)
      (rel_or_eq_of_getLast? hsorted hlast hx) (Nat.le_refl _)
  refine ⟨htake, Nat.lt_of_not_le fun hle => ?_⟩
  -- a position ending by then would lie above the first one
  have hxa : x <+: a := by
    rw [← List.take_of_length_le hle, htake]
    exact List.take_prefix _ a
  rcases rel_or_eq_of_head? hsorted rfl hx with h | rfl
  · exact h.not_isPrefix_symm hxa
  · exact absurd hae.lt_length_left (Nat.not_lt.mpr hle)

end Parting

namespace TrieMap

variable {M : TrieMap V} {p : List Bool}

theorem IsTerminal.take_path_terminalAt (hp : M.IsTerminal p) {m : Nat} (hm : m ≤ p.length) :
    (M.terminalAt p).path.take m = p.take m := by
  obtain ⟨s, hs⟩ := hp.isPrefix_path_terminalAt
  rw [← hs, List.take_append_of_le_length hm]

theorem IsTerminal.getElem?_path_terminalAt (hp : M.IsTerminal p) {j : Nat} (hj : j < p.length) :
    (M.terminalAt p).path[j]? = p[j]? := by
  obtain ⟨s, hs⟩ := hp.isPrefix_path_terminalAt
  rw [← hs, List.getElem?_append_left hj]

/-- Terminal positions parting left to right have their terminals' paths in ascending order. -/
theorem IsTerminal.lt_path_terminalAt {q : List Bool} (hp : M.IsTerminal p) (hq : M.IsTerminal q)
    (h : Before p q) : (M.terminalAt p).path < (M.terminalAt q).path :=
  (h.extend hp.isPrefix_path_terminalAt hq.isPrefix_path_terminalAt).lt

end TrieMap

namespace MultiProof

/-! ## Ranges of honest proofs -/

section Slices

variable {α : Type} {ps : List α} {lower upper : Nat}

theorem length_slice (hu : upper ≤ ps.length) :
    ((ps.take upper).drop lower).length = upper - lower := by
  simp only [List.length_drop, List.length_take]
  omega

theorem head?_slice (h : lower < upper) : ((ps.take upper).drop lower).head? = ps[lower]? := by
  rw [List.head?_drop, List.getElem?_take_of_lt h]

theorem getLast?_slice (h : lower < upper) (hu : upper ≤ ps.length) :
    ((ps.take upper).drop lower).getLast? = ps[upper - 1]? := by
  rw [List.getLast?_eq_getElem?, length_slice hu, List.getElem?_drop,
    List.getElem?_take_of_lt (by omega), show lower + (upper - lower - 1) = upper - 1 by omega]

theorem take_slice {i : Nat} (h : lower + i ≤ upper) :
    ((ps.take upper).drop lower).take i = (ps.take (lower + i)).drop lower := by
  rw [List.take_drop, List.take_take, Nat.min_eq_left h]

end Slices

/-- A range of the loop of `from_path_proofs` over the honest proofs of the positions `ps`: not
empty, within the proofs, and its positions all lie below a prefix `q` as long as the bit
index. -/
structure HonestRange (ps : List (List Bool)) (q : List Bool) (r : PathProofRange) : Prop where
  lower_lt : r.lower < r.upper
  upper_le : r.upper ≤ ps.length
  length_eq : q.length = r.pathBitIndex
  isPrefix : ∀ p ∈ (ps.take r.upper).drop r.lower, q <+: p

/-- What a range of honest proofs comes to: within a bounded number of rounds the loop emits the
multi-path proofs of its positions and some siblings `S`, and `verify_range` on those paths, with
`S` followed by anything, uses exactly `S` and returns the canonical node at `q`, pushing each
path's terminal at the depth of its position. -/
def RangeComplete [Zero N] (H : NodeHasher N V) (M : TrieMap V) (ps : List (List Bool))
    (q : List Bool) (r : PathProofRange) : Prop :=
  ∃ (rounds : Nat) (S : List N), rounds ≤ 258 * (2 * (r.upper - r.lower) - 1) ∧
    (∀ paths siblings stack fuel,
      fromPathProofsLoop (ps.map (M.pathProofAt H)) (rounds + fuel)
          ⟨paths, siblings, r, [], stack⟩ =
        resume (ps.map (M.pathProofAt H))
          (paths ++ ((ps.take r.upper).drop r.lower).map M.multiPathAt) (siblings ++ S) stack
          fuel) ∧
    ∀ extra off, ∃ out,
      verifyRange H r.pathBitIndex (((ps.take r.upper).drop r.lower).map M.multiPathAt)
          (S ++ extra) off = some out ∧
        out.node = subtrieRoot H (M.below q) q.length ∧ out.siblingsUsed = S.length ∧
        out.paths.map (fun w => (w.terminal, w.depth)) =
          ((ps.take r.upper).drop r.lower).map fun p => (M.terminalAt p, p.length)

/-! ## Parted ranges -/

/-- The positions `a :: b :: rest` of a range of two or more, `e` the last, whose ends part at bit
`C`: every position is terminal, parts from the next left to right, agrees with `a` before `C` and
goes on past it, and lies below the prefix `q` as long as the bit index. -/
structure Parted (M : TrieMap V) (ps : List (List Bool)) (q : List Bool) (lower upper pbi : Nat)
    (a b e : List Bool) (rest : List (List Bool)) (C : Nat) : Prop where
  slice : (ps.take upper).drop lower = a :: b :: rest
  upper_le : upper ≤ ps.length
  last : (b :: rest).getLast (List.cons_ne_nil _ _) = e
  terminal : ∀ x ∈ a :: b :: rest, M.IsTerminal x
  sorted : (a :: b :: rest).Pairwise Before
  part : commonPrefixLen a e = C
  agree : ∀ x ∈ a :: b :: rest, x.take C = a.take C ∧ C < x.length
  isPrefix : ∀ x ∈ a :: b :: rest, q <+: x
  length_prefix : q.length = pbi

/-- An honest range of two or more terminal positions parting left to right is parted, at the bit
where its first and last positions part. -/
theorem HonestRange.parted {M : TrieMap V} {ps : List (List Bool)}
    (hterm : ∀ p ∈ ps, M.IsTerminal p) (hbefore : ps.Pairwise Before) {q : List Bool}
    {lower upper pbi : Nat} (hr : HonestRange ps q ⟨lower, upper, pbi⟩) (h2 : lower + 1 < upper) :
    ∃ a b e rest C, Parted M ps q lower upper pbi a b e rest C := by
  obtain ⟨-, hup, hq, hqp⟩ := hr
  dsimp only at hup hq hqp
  obtain ⟨sl, hsl⟩ : ∃ sl, (ps.take upper).drop lower = sl := ⟨_, rfl⟩
  have hslLen : sl.length = upper - lower := hsl ▸ length_slice hup
  -- a range of two or more holds two positions at least
  rcases sl with _ | ⟨a, _ | ⟨b, rest⟩⟩
  · simp at hslLen
    omega
  · simp at hslLen
    omega
  rw [hsl] at hqp
  have hsub : List.Sublist (a :: b :: rest) ps :=
    hsl ▸ (List.drop_sublist _ _).trans (List.take_sublist _ _)
  have hsorted : (a :: b :: rest).Pairwise Before := hbefore.sublist hsub
  exact ⟨a, b, _, rest, _, hsl, hup, rfl, fun x hx => hterm x (hsub.subset hx), hsorted, rfl,
    fun x hx => take_commonPrefixLen_getLast hsorted rfl hx, hqp, hq⟩

namespace Parted

variable {M : TrieMap V} {ps : List (List Bool)} {q : List Bool} {lower upper pbi : Nat}
  {a b e : List Bool} {rest : List (List Bool)} {C : Nat}
  (P : Parted M ps q lower upper pbi a b e rest C)
include P

theorem last_mem : e ∈ a :: b :: rest :=
  List.mem_cons_of_mem _ (P.last ▸ List.getLast_mem _)

theorem before : Before a e :=
  before_getLast P.sorted P.last

theorem length_positions : (a :: b :: rest).length = upper - lower :=
  P.slice ▸ length_slice P.upper_le

theorem pbi_le : pbi ≤ C := by
  have hqa := P.isPrefix a (List.mem_cons_self ..)
  have hqe := P.isPrefix e P.last_mem
  rw [← P.part, ← P.length_prefix]
  refine le_commonPrefixLen_iff.mpr ⟨hqa.length_le, hqe.length_le, ?_⟩
  rw [← List.prefix_iff_eq_take.mp hqa, ← List.prefix_iff_eq_take.mp hqe]

theorem part_lt : C < 256 :=
  Nat.lt_of_lt_of_le (P.agree a (List.mem_cons_self ..)).2
    (P.terminal a (List.mem_cons_self ..)).length_le

theorem getElem?_path_terminalAt {x : List Bool} (hx : x ∈ a :: b :: rest) :
    (M.terminalAt x).path[C]? = x[C]? :=
  (P.terminal x hx).getElem?_path_terminalAt (P.agree x hx).2

theorem first_bit : (M.terminalAt a).path[C]? = some false := by
  rw [P.getElem?_path_terminalAt (List.mem_cons_self ..), ← P.part]
  exact P.before.1

theorem last_bit : (M.terminalAt e).path[C]? = some true := by
  rw [P.getElem?_path_terminalAt P.last_mem, ← P.part]
  exact P.before.2

/-- Before `C` the two ends' terminals carry the same bits. -/
theorem getElem?_terminalAt_agree {j : Nat} (hj : j < C) :
    ∃ bit, (M.terminalAt a).path[j]? = some bit ∧ (M.terminalAt e).path[j]? = some bit := by
  have hja : j < a.length := Nat.lt_trans hj (P.agree a (List.mem_cons_self ..)).2
  refine ⟨a[j], ?_, ?_⟩
  · rw [(P.terminal a (List.mem_cons_self ..)).getElem?_path_terminalAt hja,
      List.getElem?_eq_getElem hja]
  · rw [(P.terminal e P.last_mem).getElem?_path_terminalAt
        (Nat.lt_trans hj (P.agree e P.last_mem).2),
      ← getElem?_eq_of_lt_commonPrefixLen (by rw [P.part]; exact hj), List.getElem?_eq_getElem hja]

/-- Bit `C` of a position's terminal names the half of the range the position lies below. -/
theorem child_isPrefix {x : List Bool} (hx : x ∈ a :: b :: rest) {bit : Bool}
    (hb : (M.terminalAt x).path[C]? = some bit) : a.take C ++ [bit] <+: x := by
  rw [P.getElem?_path_terminalAt hx] at hb
  have hx1 : x.take (C + 1) = a.take C ++ [bit] := by
    rw [List.take_add_one, hb, (P.agree x hx).1]
    rfl
  rw [← hx1]
  exact List.take_prefix _ x

theorem length_child (bit : Bool) : (a.take C ++ [bit]).length = C + 1 := by
  have := (P.agree a (List.mem_cons_self ..)).2
  simp only [List.length_append, List.length_take, List.length_singleton]
  omega

/-- The search on bit `C` of the positions' terminals splits the range where bit `C` turns to
`true`, into two honest ranges below `a.take C ++ [false]` and `a.take C ++ [true]`. -/
theorem exists_bisection : ∃ i, RustSlice.binarySearchByOption (a :: b :: rest)
      (fun x => (M.terminalAt x).path[C]?.map fun bit => if !bit then .lt else .gt) =
        some (.error i) ∧ 0 < i ∧ i < upper - lower ∧
      HonestRange ps (a.take C ++ [false]) ⟨lower, lower + i, C + 1⟩ ∧
      HonestRange ps (a.take C ++ [true]) ⟨lower + i, upper, C + 1⟩ := by
  have hup := P.upper_le
  have hsortedT : (a :: b :: rest).Pairwise
      (fun x y => (M.terminalAt x).path < (M.terminalAt y).path) :=
    P.sorted.imp_of_mem fun hx hy h => (P.terminal _ hx).lt_path_terminalAt (P.terminal _ hy) h
  have hsharedT : ∀ x ∈ a :: b :: rest, (M.terminalAt x).path.take C = a.take C := fun x hx => by
    rw [(P.terminal x hx).take_path_terminalAt (Nat.le_of_lt (P.agree x hx).2), (P.agree x hx).1]
  have hlenT : ∀ x ∈ a :: b :: rest, C < (M.terminalAt x).path.length := fun x hx =>
    Nat.lt_of_lt_of_le (P.agree x hx).2 (P.terminal x hx).isPrefix_path_terminalAt.length_le
  obtain ⟨i, hsearch, -, hfalse, htrue⟩ := bitSearch_spec hsortedT hsharedT hlenT
  -- `a` lies left of the split and `e` right of it, so neither half is empty
  have hi0 : 0 < i := by
    refine Nat.pos_of_ne_zero fun h0 => ?_
    have := htrue a (by rw [h0, List.drop_zero]; exact List.mem_cons_self ..)
    rw [P.first_bit] at this
    cases this
  have hil : i < upper - lower := by
    refine Nat.lt_of_not_le fun hle => ?_
    have := hfalse e (by
      rw [List.take_of_length_le (by rw [P.length_positions]; exact hle)]
      exact P.last_mem)
    rw [P.last_bit] at this
    cases this
  have hleft : HonestRange ps (a.take C ++ [false]) ⟨lower, lower + i, C + 1⟩ := by
    refine ⟨by dsimp only; omega, by dsimp only; omega, P.length_child false, fun x hx => ?_⟩
    dsimp only at hx
    rw [← take_slice (by omega : lower + i ≤ upper), P.slice] at hx
    exact P.child_isPrefix (List.mem_of_mem_take hx) (hfalse x hx)
  have hright : HonestRange ps (a.take C ++ [true]) ⟨lower + i, upper, C + 1⟩ := by
    refine ⟨by dsimp only; omega, by dsimp only; omega, P.length_child true, fun x hx => ?_⟩
    dsimp only at hx
    rw [← List.drop_drop, P.slice] at hx
    exact P.child_isPrefix (List.mem_of_mem_drop hx) (htrue x hx)
  exact ⟨i, hsearch, hi0, hil, hleft, hright⟩

section Siblings

variable [Zero N] (H : NodeHasher N V)

theorem length_shared : (((M.siblingsAt H a).drop pbi).take (C - pbi)).length = C - pbi := by
  have := (P.agree a (List.mem_cons_self ..)).2
  simp only [List.length_take, List.length_drop, TrieMap.length_siblingsAt]
  omega

/-- The loop on a parted range: `C - pbi` rounds take the siblings the ends share, one bisects the
range at `i`, then the two halves run in turn. -/
theorem fromPathProofsLoop_eq (h2 : lower + 1 < upper) {i rL rR : Nat} {SL SR : List N}
    (hsearch : RustSlice.binarySearchByOption (a :: b :: rest)
      (fun x => (M.terminalAt x).path[C]?.map fun bit => if !bit then .lt else .gt) =
        some (.error i))
    (hloopL : ∀ paths siblings stack fuel,
      fromPathProofsLoop (ps.map (M.pathProofAt H)) (rL + fuel)
          ⟨paths, siblings, ⟨lower, lower + i, C + 1⟩, [], stack⟩ =
        resume (ps.map (M.pathProofAt H))
          (paths ++ ((a :: b :: rest).take i).map M.multiPathAt) (siblings ++ SL) stack fuel)
    (hloopR : ∀ paths siblings stack fuel,
      fromPathProofsLoop (ps.map (M.pathProofAt H)) (rR + fuel)
          ⟨paths, siblings, ⟨lower + i, upper, C + 1⟩, [], stack⟩ =
        resume (ps.map (M.pathProofAt H))
          (paths ++ ((a :: b :: rest).drop i).map M.multiPathAt) (siblings ++ SR) stack fuel) :
    ∀ paths siblings stack fuel,
      fromPathProofsLoop (ps.map (M.pathProofAt H)) (C - pbi + 1 + rL + rR + fuel)
          ⟨paths, siblings, ⟨lower, upper, pbi⟩, [], stack⟩ =
        resume (ps.map (M.pathProofAt H)) (paths ++ (a :: b :: rest).map M.multiPathAt)
          (siblings ++ (((M.siblingsAt H a).drop pbi).take (C - pbi) ++ SL ++ SR)) stack fuel := by
  intro paths siblings stack fuel
  have hup := P.upper_le
  have hpbiC := P.pbi_le
  have hlower : (ps.map (M.pathProofAt H))[lower]? = some (M.pathProofAt H a) := by
    rw [List.getElem?_map, ← head?_slice (by omega : lower < upper), P.slice]
    rfl
  have hupper : (ps.map (M.pathProofAt H))[upper - 1]? = some (M.pathProofAt H e) := by
    rw [List.getElem?_map, ← getLast?_slice (by omega : lower < upper) hup, P.slice,
      List.getLast?_eq_some_getLast (List.cons_ne_nil _ _),
      List.getLast_cons (List.cons_ne_nil _ _), P.last]
    rfl
  have hsib : pbi + (C - pbi) ≤ (M.pathProofAt H a).siblings.length := by
    have := (P.agree a (List.mem_cons_self ..)).2
    simp only [TrieMap.pathProofAt, TrieMap.length_siblingsAt]
    omega
  have hsearchPP : RustSlice.binarySearchByOption
      (((ps.map (M.pathProofAt H)).take upper).drop lower)
      (fun pathProof => pathProof.terminal.path[C]?.map fun bit => if !bit then .lt else .gt) =
        some (.error i) := by
    rw [← List.map_take, ← List.map_drop, P.slice, RustSlice.binarySearchByOption_map]
    exact hsearch
  rw [show C - pbi + 1 + rL + rR + fuel = (C - pbi) + ((rL + (rR + fuel)) + 1) by omega,
    fromPathProofsLoop_advance h2 hlower hupper (C - pbi) pbi [] _
      (fun j _ hj => P.getElem?_terminalAt_agree (by omega)) hsib,
    show pbi + (C - pbi) = C by omega,
    fromPathProofsLoop_succ_of_step (fromPathProofsStep_bisect h2 hlower hupper
      (by rw [List.length_map]; exact hup) P.first_bit P.last_bit (by decide) hsearchPP),
    hloopL, resume, hloopR]
  have hP : paths ++ ((a :: b :: rest).take i).map M.multiPathAt ++
      ((a :: b :: rest).drop i).map M.multiPathAt = paths ++ (a :: b :: rest).map M.multiPathAt := by
    rw [List.append_assoc, ← List.map_append, List.take_append_drop]
  have hS : siblings ++ ([] ++ ((M.pathProofAt H a).siblings.drop pbi).take (C - pbi)) ++ SL ++
      SR = siblings ++ (((M.siblingsAt H a).drop pbi).take (C - pbi) ++ SL ++ SR) := by
    simp only [List.nil_append, TrieMap.pathProofAt, List.append_assoc]
  rw [hP, hS]

/-- Past the prefix, the ends' terminals share the `C - pbi` bits up to where the ends part. -/
theorem sharedBits_drop : sharedBits ((M.multiPathAt a).terminal.path.drop pbi)
    ((M.multiPathAt e).terminal.path.drop pbi) = C - pbi := by
  have ha := P.terminal a (List.mem_cons_self ..)
  have he := P.terminal e P.last_mem
  have hqa := P.isPrefix a (List.mem_cons_self ..)
  have hqe := P.isPrefix e P.last_mem
  have hCa := (P.agree a (List.mem_cons_self ..)).2
  have hCe := (P.agree e P.last_mem).2
  have hpbiC := P.pbi_le
  have htake : (M.terminalAt a).path.take pbi = (M.terminalAt e).path.take pbi := by
    rw [ha.take_path_terminalAt (by omega), he.take_path_terminalAt (by omega), ← P.length_prefix,
      ← List.prefix_iff_eq_take.mp hqa, ← List.prefix_iff_eq_take.mp hqe]
  have hpbiA : pbi ≤ (M.terminalAt a).path.length := by
    have := ha.isPrefix_path_terminalAt.length_le
    omega
  simp only [TrieMap.terminal_multiPathAt]
  rw [sharedBits_eq_commonPrefixLen, commonPrefixLen_drop htake hpbiA,
    P.before.commonPrefixLen_extend ha.isPrefix_path_terminalAt he.isPrefix_path_terminalAt, P.part]

/-- The bisection's internal node over the canonical nodes of the two halves, hashed up from `C`
to `pbi` with the siblings the ends share, is the canonical node at `q`. -/
theorem hashPath_bisect (more : List N) :
    hashPath H (H.hashInternal
        ⟨subtrieRoot H (M.below (a.take C ++ [false])) (a.take C ++ [false]).length,
          subtrieRoot H (M.below (a.take C ++ [true])) (a.take C ++ [true]).length⟩)
      (((M.terminalAt a).path.take C).drop pbi)
      ((((M.siblingsAt H a).drop pbi).take (C - pbi) ++ more).take (C - pbi)).reverse =
      subtrieRoot H (M.below q) q.length := by
  have ha := P.terminal a (List.mem_cons_self ..)
  have hCa := (P.agree a (List.mem_cons_self ..)).2
  have hpbiC := P.pbi_le
  have hqa := P.isPrefix a (List.mem_cons_self ..)
  have hP : (a.take C).length = C := by
    simp only [List.length_take]
    omega
  have h2P : 2 ≤ (M.below (a.take C)).length :=
    ha.two_le_of_isPrefix M (List.take_prefix C a) fun h => by
      have := congrArg List.length h
      omega
  -- every position from `pbi` on to `a.take C` is internal, with two entries or more below
  have hint : ∀ q', q' <+: a.take C → q' ≠ a.take C → pbi ≤ q'.length →
      2 ≤ (M.below q').length := fun q' hq' _ _ =>
    ha.two_le_of_isPrefix M (hq'.trans (List.take_prefix C a)) fun h => by
      have := h ▸ hq'.length_le
      omega
  have hinner : H.hashInternal
      ⟨subtrieRoot H (M.below (a.take C ++ [false])) (a.take C ++ [false]).length,
        subtrieRoot H (M.below (a.take C ++ [true])) (a.take C ++ [true]).length⟩ =
      subtrieRoot H (M.below (a.take C)) (a.take C).length := by
    rw [TrieMap.subtrieRoot_below_split H M h2P]
    simp only [List.length_append, List.length_singleton]
  rw [hinner, ha.take_path_terminalAt (Nat.le_of_lt hCa), List.take_left' (P.length_shared H),
    ← List.drop_take, ← TrieMap.siblingsAt_take,
    TrieMap.hashPath_siblingsAt_drop H M (a.take C) pbi (by omega) hint, List.take_take,
    Nat.min_eq_left hpbiC, ← P.length_prefix, ← List.prefix_iff_eq_take.mp hqa]

/-- `verify_range` on a parted range finds the bisection the loop made, consumes the shared
siblings and then the two halves' siblings, and returns the canonical node at `q`. -/
theorem verifyRange_eq_some {i : Nat} {SL SR : List N}
    (hsearch : RustSlice.binarySearchByOption (a :: b :: rest)
      (fun x => (M.terminalAt x).path[C]?.map fun bit => if !bit then .lt else .gt) =
        some (.error i))
    (hverL : ∀ extra off, ∃ out,
      verifyRange H (C + 1) (((a :: b :: rest).take i).map M.multiPathAt) (SL ++ extra) off =
          some out ∧
        out.node = subtrieRoot H (M.below (a.take C ++ [false])) (a.take C ++ [false]).length ∧
        out.siblingsUsed = SL.length ∧
        out.paths.map (fun w => (w.terminal, w.depth)) =
          ((a :: b :: rest).take i).map fun p => (M.terminalAt p, p.length))
    (hverR : ∀ extra off, ∃ out,
      verifyRange H (C + 1) (((a :: b :: rest).drop i).map M.multiPathAt) (SR ++ extra) off =
          some out ∧
        out.node = subtrieRoot H (M.below (a.take C ++ [true])) (a.take C ++ [true]).length ∧
        out.siblingsUsed = SR.length ∧
        out.paths.map (fun w => (w.terminal, w.depth)) =
          ((a :: b :: rest).drop i).map fun p => (M.terminalAt p, p.length)) :
    ∀ extra off, ∃ out,
      verifyRange H pbi ((a :: b :: rest).map M.multiPathAt)
          (((M.siblingsAt H a).drop pbi).take (C - pbi) ++ SL ++ SR ++ extra) off = some out ∧
        out.node = subtrieRoot H (M.below q) q.length ∧
        out.siblingsUsed = (((M.siblingsAt H a).drop pbi).take (C - pbi) ++ SL ++ SR).length ∧
        out.paths.map (fun w => (w.terminal, w.depth)) =
          (a :: b :: rest).map fun p => (M.terminalAt p, p.length) := by
  intro extra off
  have ha := P.terminal a (List.mem_cons_self ..)
  have he := P.terminal e P.last_mem
  have hCa := (P.agree a (List.mem_cons_self ..)).2
  have hCe := (P.agree e P.last_mem).2
  have hpbiC := P.pbi_le
  have hcsLen := P.length_shared H
  have hpbiA : pbi ≤ (M.multiPathAt a).terminal.path.length := by
    have := ha.isPrefix_path_terminalAt.length_le
    simp only [TrieMap.terminal_multiPathAt]
    omega
  have hpbiE : pbi ≤ (M.multiPathAt e).terminal.path.length := by
    have := he.isPrefix_path_terminalAt.length_le
    simp only [TrieMap.terminal_multiPathAt]
    omega
  have hlast : (M.multiPathAt b :: rest.map M.multiPathAt).getLast (List.cons_ne_nil _ _) =
      M.multiPathAt e :=
    (List.getLast_map (f := M.multiPathAt) (l := b :: rest) (List.cons_ne_nil _ _)).trans
      (congrArg _ P.last)
  have hbis : bisectIndex (M.multiPathAt a :: M.multiPathAt b :: rest.map M.multiPathAt) C =
      some i := by
    have h' : RustSlice.binarySearchByOption
        (M.multiPathAt a :: M.multiPathAt b :: rest.map M.multiPathAt)
        (fun item => item.terminal.path[C]?.map fun b => if !b then .lt else .gt) =
          some (.error i) := by
      rw [← List.map_cons, ← List.map_cons, RustSlice.binarySearchByOption_map]
      exact hsearch
    unfold bisectIndex
    rw [h']
  -- the halves, the left one followed by the right one's siblings
  obtain ⟨left, hleft, hlN, hlU, hlP⟩ := hverL (SR ++ extra) (off + (C - pbi))
  obtain ⟨right, hright, hrN, hrU, hrP⟩ := hverR extra (off + (C - pbi) + SL.length)
  simp only [List.map_take, List.map_drop, List.map_cons] at hleft hright
  have hsd : pbi + (C - pbi) = C := by omega
  rw [List.map_cons, List.map_cons]
  refine ⟨_, (verifyRange_cons_cons_eq_some H hlast P.sharedBits_drop).mpr ⟨hpbiA, hpbiE, ?_, i,
    left, right, by rw [hsd]; exact hbis, ?_, ?_, ?_, rfl⟩, ?_, ?_, ?_⟩
  · simp only [List.length_append]
    omega
  · simp only [hsd, List.append_assoc]
    rw [List.drop_left' hcsLen]
    exact hleft
  · simp only [List.length_append, hlU]
    omega
  · simp only [hsd, hlU, List.append_assoc]
    rw [← List.append_assoc _ SL, List.drop_left' (by rw [List.length_append, hcsLen])]
    exact hright
  · dsimp only
    rw [hlN, hrN, hsd]
    simp only [List.append_assoc]
    exact P.hashPath_bisect H (SL ++ (SR ++ extra))
  · simp only [hlU, hrU, List.length_append]
    omega
  · simp only [List.map_append, hlP, hrP]
    rw [← List.map_append, List.take_append_drop]

end Siblings

end Parted

section Complete

variable [Zero N] (H : NodeHasher N V) (M : TrieMap V) {ps : List (List Bool)}

/-- A range of one honest proof: one round emits its terminal and its siblings below the prefix,
which hash its terminal up to the prefix. -/
theorem rangeComplete_single (hterm : ∀ p ∈ ps, M.IsTerminal p) {q : List Bool}
    {lower pbi : Nat} (hr : HonestRange ps q ⟨lower, lower + 1, pbi⟩) :
    RangeComplete H M ps q ⟨lower, lower + 1, pbi⟩ := by
  obtain ⟨-, hup, hq, hqp⟩ := hr
  dsimp only at hup hq hqp
  have hlt : lower < ps.length := by omega
  -- the range holds the one position `p`
  have hsl : (ps.take (lower + 1)).drop lower = [ps[lower]] := by
    rw [List.drop_take, List.drop_eq_getElem_cons hlt, Nat.add_sub_cancel_left, List.take_succ_cons,
      List.take_zero]
  have hp : M.IsTerminal ps[lower] := hterm _ (List.getElem_mem hlt)
  have hqp' : q <+: ps[lower] := hqp _ (by rw [hsl]; exact List.mem_singleton_self _)
  have hpbi : pbi ≤ ps[lower].length := hq ▸ hqp'.length_le
  refine ⟨1, (M.siblingsAt H ps[lower]).drop pbi, by dsimp only; omega,
    fun paths siblings stack fuel => ?_,
    fun extra off => ?_⟩
  · have hproof : (ps.map (M.pathProofAt H))[lower]? = some (M.pathProofAt H ps[lower]) := by
      rw [List.getElem?_map, List.getElem?_eq_getElem hlt, Option.map_some]
    rw [Nat.add_comm, fromPathProofsLoop_unique rfl hproof, hsl]
    simp [TrieMap.pathProofAt, TrieMap.multiPathAt, Nat.add_sub_cancel' hpbi]
  · have hS : ((M.siblingsAt H ps[lower]).drop pbi).length = ps[lower].length - pbi := by simp
    dsimp only
    rw [hsl, List.map_singleton]
    refine ⟨_, (verifyRange_singleton_eq_some H).mpr
      ⟨hpbi, hp.isPrefix_path_terminalAt.length_le, by simp, rfl⟩, ?_, hS.symm, rfl⟩
    -- the terminal hashed up with the siblings below `pbi` is the canonical node at `q`
    show hashPath H ((M.terminalAt ps[lower]).node H)
        (((M.terminalAt ps[lower]).path.take ps[lower].length).drop pbi)
        (((M.siblingsAt H ps[lower]).drop pbi ++ extra).take (ps[lower].length - pbi)).reverse =
      subtrieRoot H (M.below q) q.length
    rw [hp.take_path_terminalAt (Nat.le_refl _), List.take_length, List.take_left' hS,
      TrieMap.node_terminalAt H M hp.1, TrieMap.hashPath_siblingsAt_drop H M _ pbi hpbi
        fun q' hq' hne _ => hp.two_le_of_isPrefix M hq' hne,
      ← hq, ← List.prefix_iff_eq_take.mp hqp']

/-- A range of two or more honest proofs: rounds take the siblings its two ends share, one a bit,
up to the bit where the ends part; a round bisects it there into two honest ranges, which the loop
then runs through in turn; `verify_range` finds the same bisection and consumes the shared siblings
and the two halves' siblings in that order. -/
theorem rangeComplete_bisect (hterm : ∀ p ∈ ps, M.IsTerminal p) (hbefore : ps.Pairwise Before)
    {q : List Bool} {lower upper pbi : Nat} (hr : HonestRange ps q ⟨lower, upper, pbi⟩)
    (h2 : lower + 1 < upper)
    (ih : ∀ q' r', r'.upper - r'.lower < upper - lower → HonestRange ps q' r' →
      RangeComplete H M ps q' r') :
    RangeComplete H M ps q ⟨lower, upper, pbi⟩ := by
  obtain ⟨a, b, e, rest, C, P⟩ := hr.parted hterm hbefore h2
  obtain ⟨i, hsearch, hi0, hil, hleft, hright⟩ := P.exists_bisection
  -- the two halves, by the induction on the range's size
  obtain ⟨rL, SL, hrL, hloopL, hverL⟩ := ih _ _ (by dsimp only; omega) hleft
  obtain ⟨rR, SR, hrR, hloopR, hverR⟩ := ih _ _ (by dsimp only; omega) hright
  dsimp only at hrL hloopL hverL hrR hloopR hverR
  rw [← take_slice (by omega : lower + i ≤ upper), P.slice] at hloopL hverL
  rw [← List.drop_drop, P.slice] at hloopR hverR
  have hC := P.part_lt
  refine ⟨(C - pbi) + 1 + rL + rR, ((M.siblingsAt H a).drop pbi).take (C - pbi) ++ SL ++ SR,
    by dsimp only at hrL hrR ⊢; omega, ?_, ?_⟩
  · dsimp only
    rw [P.slice]
    exact P.fromPathProofsLoop_eq H h2 hsearch hloopL hloopR
  · dsimp only
    rw [P.slice]
    exact P.verifyRange_eq_some H hsearch hverL hverR

/-- Every honest range comes to what `RangeComplete` says, by induction on its size. -/
theorem rangeComplete_of_honest (hterm : ∀ p ∈ ps, M.IsTerminal p)
    (hbefore : ps.Pairwise Before) :
    ∀ (n : Nat) (q : List Bool) (r : PathProofRange), r.upper - r.lower ≤ n →
      HonestRange ps q r → RangeComplete H M ps q r := by
  intro n
  induction n with
  | zero =>
    intro q r hn hr
    have := hr.lower_lt
    omega
  | succ n ih =>
    rintro q ⟨lower, upper, pbi⟩ hn hr
    have hlu := hr.lower_lt
    dsimp only at hn hlu
    rcases Nat.lt_or_ge (lower + 1) upper with h2 | h1
    · exact rangeComplete_bisect H M hterm hbefore hr h2 fun q' r' hlt hr' =>
        ih q' r' (by omega) hr'
    · obtain rfl : upper = lower + 1 := by omega
      exact rangeComplete_single H M hterm hr

/-- On the honest proofs of terminal positions parting left to right, `from_path_proofs` returns
the positions' multi-path proofs with some siblings, on which `verify_range` returns the map's root
using every sibling. -/
theorem fromPathProofs_honest (hterm : ∀ p ∈ ps, M.IsTerminal p) (hbefore : ps.Pairwise Before)
    (hne : ps ≠ []) :
    ∃ siblings, fromPathProofs (ps.map (M.pathProofAt H)) =
        some ⟨ps.map M.multiPathAt, siblings⟩ ∧
      ∃ out, verifyRange H 0 (ps.map M.multiPathAt) siblings 0 = some out ∧
        out.node = M.root H ∧ out.siblingsUsed = siblings.length ∧
        out.paths.map (fun w => (w.terminal, w.depth)) =
          ps.map fun p => (M.terminalAt p, p.length) := by
  obtain ⟨rounds, S, hrounds, hloop, hver⟩ := rangeComplete_of_honest H M hterm hbefore
    ps.length [] ⟨0, ps.length, 0⟩ (Nat.sub_le _ _)
    ⟨List.length_pos_of_ne_nil hne, Nat.le_refl _, rfl, fun _ _ => List.nil_prefix⟩
  dsimp only at hrounds hloop hver
  rw [List.take_length, List.drop_zero] at hloop hver
  refine ⟨S, ?_, ?_⟩
  · -- the whole run fits in the loop's fuel
    unfold fromPathProofs
    rw [if_neg (by simpa using hne), List.length_map,
      show 2 * 258 * ps.length = rounds + (2 * 258 * ps.length - rounds) by omega, hloop]
    rfl
  · obtain ⟨out, hout, hnode, hused, hpaths⟩ := hver [] 0
    rw [List.append_nil] at hout
    exact ⟨out, hout, by simp [hnode, TrieMap.root], hused, hpaths⟩

end Complete

end MultiProof

/-- Distinct terminal positions whose terminals' paths ascend part left to right. -/
theorem TrieMap.pairwise_before_of_terminalAt {M : TrieMap V} {ps : List (List Bool)}
    (hterm : ∀ p ∈ ps, M.IsTerminal p) (hnodup : ps.Nodup)
    (hsorted : ps.Pairwise fun p q => (M.terminalAt p).path < (M.terminalAt q).path) :
    ps.Pairwise Before := by
  refine (hsorted.and hnodup).imp_of_mem fun {p q} hp hq ⟨hlt, hne⟩ => ?_
  have hp' := hterm p hp
  have hq' := hterm q hq
  -- distinct terminal positions are never one above the other, so they part one way
  rcases before_or_before_of_not_isPrefix (fun h => hne (hp'.eq_of_isPrefix hq' h))
      (fun h => hne (hq'.eq_of_isPrefix hp' h).symm) with h | h
  · exact h
  · exact absurd hlt (BitString.lt_asymm (hq'.lt_path_terminalAt hp' h))

/-! ## Queries on the verified paths of positions -/

namespace VerifiedMultiProof

section Positions

variable {v : VerifiedMultiProof N V} {M : TrieMap V} {ps : List (List Bool)}
  (hterm : ∀ p ∈ ps, M.IsTerminal p)
  (hpaths : v.inner.map (fun w => (w.terminal, w.depth)) =
    ps.map fun p => (M.terminalAt p, p.length))
include hpaths

theorem length_inner_of_positions : v.inner.length = ps.length := by
  simpa using congrArg List.length hpaths

theorem getElem_inner_of_positions {j : Nat} (hj : j < v.inner.length) (hj' : j < ps.length) :
    v.inner[j].terminal = M.terminalAt ps[j] ∧ v.inner[j].depth = ps[j].length := by
  have h := List.getElem_of_eq hpaths (by simpa using hj)
  simp only [List.getElem_map] at h
  exact Prod.mk.inj h

include hterm

/-- A verified path of a terminal position has the position as its scope. -/
theorem scopeOrder_of_positions (keyPath : KeyPath) {j : Nat} (hj : j < v.inner.length)
    (hj' : j < ps.length) :
    scopeOrder keyPath v.inner[j] = compareBits ps[j] (keyPath.bits.take ps[j].length) := by
  obtain ⟨ht, hd⟩ := getElem_inner_of_positions hpaths hj hj'
  unfold scopeOrder
  rw [ht, hd, (hterm _ (List.getElem_mem hj')).take_path_terminalAt (Nat.le_refl _),
    List.take_length]

/-- On the verified paths of terminal positions parting left to right, `find_index_for` finds a
key below the position at `i` at `i`. -/
theorem findIndexFor_of_positions (hbefore : ps.Pairwise Before) {i : Nat} (hi : i < ps.length)
    {keyPath : KeyPath} (hkey : ps[i] <+: keyPath.bits) :
    v.findIndexFor keyPath = some (.ok i) := by
  have hlen := length_inner_of_positions hpaths
  have hdepth : ∀ w ∈ v.inner, w.depth ≤ w.terminal.path.length := by
    intro w hw
    obtain ⟨j, hj, rfl⟩ := List.getElem_of_mem hw
    have hj' : j < ps.length := by omega
    rw [(getElem_inner_of_positions hpaths hj hj').1, (getElem_inner_of_positions hpaths hj hj').2]
    exact (hterm _ (List.getElem_mem hj')).isPrefix_path_terminalAt.length_le
  refine findIndexFor_eq_ok_of_scope hdepth (by omega) (fun j hj hji => ?_) ?_ (fun j hj hij => ?_)
  · -- a position before `ps[i]` parts from the key to the left
    have hj' : j < ps.length := by omega
    rw [scopeOrder_of_positions hterm hpaths keyPath hj hj']
    have hk := (List.pairwise_iff_getElem.mp hbefore j i hj' hi hji).extend (List.prefix_refl _)
      hkey
    exact compareBits_eq_lt (hk.take_right hk.lt_length_left).lt
  · rw [scopeOrder_of_positions hterm hpaths keyPath (by omega) hi, compareBits_eq_eq]
    exact List.prefix_iff_eq_take.mp hkey
  · -- a position after `ps[i]` parts from the key to the right
    have hj' : j < ps.length := by omega
    rw [scopeOrder_of_positions hterm hpaths keyPath hj hj']
    have hk := (List.pairwise_iff_getElem.mp hbefore i j hi hj' hij).extend hkey
      (List.prefix_refl _)
    exact compareBits_eq_gt (hk.take_left hk.lt_length_right).lt

end Positions

end VerifiedMultiProof

/-- The honest path proofs of distinct terminal positions of a map, in ascending order of their
terminal paths, merge into a multi-proof with one path per proof at the proof's depth, which
verifies against the map's root using every sibling; the verified multi-proof finds a key that
starts with a proof's terminal path up to its depth at that proof, and answers `confirm_value` and
`confirm_nonexistence` for the key as the proof's terminal does. -/
theorem fromPathProofs_complete [Zero N] [DecidableEq N] [DecidableEq V] (H : NodeHasher N V)
    (M : TrieMap V) (ps : List (List Bool)) (pathProofs : List (PathProof N V))
    (hhonest : pathProofs = ps.map (M.pathProofAt H)) (hterm : ∀ p ∈ ps, M.IsTerminal p)
    (hnodup : ps.Nodup) (hne : pathProofs ≠ [])
    (hsorted : pathProofs.Pairwise fun x y => x.terminal.path < y.terminal.path) :
    ∃ multiProof v, MultiProof.fromPathProofs pathProofs = some multiProof ∧
      multiProof.paths = pathProofs.map (fun pp => ⟨pp.terminal, pp.siblings.length⟩) ∧
      MultiProof.verify H multiProof (M.root H) = some (.ok v) ∧
      (∃ out, MultiProof.verifyRange H 0 multiProof.paths multiProof.siblings 0 = some out ∧
        out.siblingsUsed = multiProof.siblings.length) ∧
      ∀ (i : Nat) (hi : i < pathProofs.length) (keyPath : KeyPath),
        keyPath.bits.take pathProofs[i].siblings.length =
            pathProofs[i].terminal.path.take pathProofs[i].siblings.length →
          v.findIndexFor keyPath = some (.ok i) ∧
          (∀ expectedLeaf : LeafData V, expectedLeaf.keyPath = keyPath →
            v.confirmValue expectedLeaf =
              some (.ok (decide (pathProofs[i].terminal.asLeafOption = some expectedLeaf)))) ∧
          v.confirmNonexistence keyPath = some (.ok
            ((pathProofs[i].terminal.asLeafOption.map fun d => decide (d.keyPath ≠ keyPath)).getD
              true)) := by
  subst hhonest
  have hne' : ps ≠ [] := by
    rintro rfl
    exact hne rfl
  have hsortedP : ps.Pairwise fun p q => (M.terminalAt p).path < (M.terminalAt q).path :=
    (List.pairwise_map (f := M.pathProofAt H)).mp hsorted
  have hbefore : ps.Pairwise Before := TrieMap.pairwise_before_of_terminalAt hterm hnodup hsortedP
  obtain ⟨S, hfrom, out, hout, hnode, hused, hpaths⟩ :=
    MultiProof.fromPathProofs_honest H M hterm hbefore hne'
  have hmp : ps.map M.multiPathAt =
      (ps.map (M.pathProofAt H)).map (fun pp => ⟨pp.terminal, pp.siblings.length⟩) := by
    simp [TrieMap.multiPathAt, TrieMap.pathProofAt]
  have hverify : MultiProof.verify H ⟨ps.map M.multiPathAt, S⟩ (M.root H) =
      some (.ok ⟨out.paths, out.bisections, S, M.root H⟩) :=
    (MultiProof.verify_eq_some_ok H).mpr
      ⟨(List.pairwise_map (f := M.multiPathAt)).mpr hsortedP, out, hout, hnode, hused, rfl⟩
  refine ⟨_, _, hfrom, hmp, hverify, ⟨out, hout, hused⟩, fun i hi keyPath hkey => ?_⟩
  -- the proof at `i` is the honest proof of `ps[i]`: the key lies below `ps[i]`
  have hi' : i < ps.length := by simpa using hi
  simp only [List.getElem_map, TrieMap.pathProofAt, TrieMap.length_siblingsAt] at hkey ⊢
  rw [(hterm _ (List.getElem_mem hi')).take_path_terminalAt (Nat.le_refl _), List.take_length]
    at hkey
  have hfind : VerifiedMultiProof.findIndexFor ⟨out.paths, out.bisections, S, M.root H⟩ keyPath =
      some (.ok i) :=
    VerifiedMultiProof.findIndexFor_of_positions hterm hpaths hbefore hi' (hkey ▸ List.take_prefix _ _)
  have hin : i < out.paths.length := by
    rw [VerifiedMultiProof.length_inner_of_positions (v := ⟨out.paths, out.bisections, S, M.root H⟩)
      hpaths]
    exact hi'
  have hti := (VerifiedMultiProof.getElem_inner_of_positions
    (v := ⟨out.paths, out.bisections, S, M.root H⟩) hpaths hin hi').1
  refine ⟨hfind, fun expectedLeaf hL => ?_, ?_⟩
  · subst hL
    rw [VerifiedMultiProof.confirmValue_of_findIndexFor hfind hin]
    simp only [hti]
  · rw [VerifiedMultiProof.confirmNonexistence_of_findIndexFor hfind hin]
    simp only [hti]

/-- The honest proofs of both leaves of `twoLeafMap` merge into a multi-proof that verifies and
answers for keys below either leaf's position. -/
theorem fromPathProofs_complete_two_leaves :
    ∃ multiProof v, MultiProof.fromPathProofs
        ([[false], [true]].map (twoLeafMap.pathProofAt freeHasher)) = some multiProof ∧
      multiProof.paths = ([[false], [true]].map (twoLeafMap.pathProofAt freeHasher)).map
        (fun pp => ⟨pp.terminal, pp.siblings.length⟩) ∧
      MultiProof.verify freeHasher multiProof (twoLeafMap.root freeHasher) = some (.ok v) ∧
      (∃ out, MultiProof.verifyRange freeHasher 0 multiProof.paths multiProof.siblings 0 =
          some out ∧ out.siblingsUsed = multiProof.siblings.length) ∧
      ∀ (i : Nat) (hi : i < ([[false], [true]].map (twoLeafMap.pathProofAt freeHasher)).length)
        (keyPath : KeyPath),
        keyPath.bits.take ([[false], [true]].map (twoLeafMap.pathProofAt freeHasher))[i].siblings.length =
            ([[false], [true]].map (twoLeafMap.pathProofAt freeHasher))[i].terminal.path.take
              ([[false], [true]].map (twoLeafMap.pathProofAt freeHasher))[i].siblings.length →
          v.findIndexFor keyPath = some (.ok i) ∧
          (∀ expectedLeaf : LeafData Nat, expectedLeaf.keyPath = keyPath →
            v.confirmValue expectedLeaf = some (.ok (decide
              (([[false], [true]].map (twoLeafMap.pathProofAt freeHasher))[i].terminal.asLeafOption =
                some expectedLeaf)))) ∧
          v.confirmNonexistence keyPath = some (.ok
            ((([[false], [true]].map (twoLeafMap.pathProofAt freeHasher))[i].terminal.asLeafOption.map
              fun d => decide (d.keyPath ≠ keyPath)).getD true)) :=
  fromPathProofs_complete freeHasher twoLeafMap [[false], [true]] _ rfl (by decide) (by decide)
    (List.cons_ne_nil _ _) (by decide)

end Nomt

import Nomt.Core.PathProof

/-!
# Multi-proofs (`core/src/proof/multi_proof.rs`)

A multi-proof merges sorted path proofs: the terminals with their depths, and only the siblings
the verifier cannot recompute from other paths. The prover `from_path_proofs` walks ranges of
path proofs with an explicit stack: a range whose first and last paths agree on the next bit takes
the first path's sibling there as a shared sibling, a range whose ends differ is bisected at the
first path with that bit set, and a range of one path emits its remaining siblings. The verifier
`verify_range` re-derives the same bisections recursively from the terminal paths, consuming the
siblings in the same order, and `find_index_for` locates the path proving a key by binary search.

A panic (an out-of-range slice or index, an integer underflow, a failed `assert!` or `unwrap_err`)
is `none`. The mutable vectors `verify_range` pushes to are its outputs, in push order. The loop of
`from_path_proofs` runs on fuel: the source's loop makes at most `2n - 1` non-empty ranges of `n`
proofs and steps each at most 257 times (its bit index grows and indexing a path panics past 256
bits), and a range that comes out empty always ends in a panic, so the fuel `2 * 258 * n` is
never what stops a run that the source completes.
-/

namespace Nomt

variable {N V : Type}

theorem PathProofTerminal.length_path_le (t : PathProofTerminal V) : t.path.length ≤ 256 := by
  cases t with
  | leaf leafData => simp [path, leafData.keyPath.length_bits]
  | terminator pos =>
    simp only [path, TriePos.TriePosition.path, List.length_take, pos.rawPath.length_bits]
    exact Nat.min_le_right _ _

/-- `MultiPathProof`: a terminal node and its depth. -/
structure MultiPathProof (V : Type) where
  terminal : PathProofTerminal V
  depth : Nat

/-- `MultiProof`: the terminals in ascending order of their paths, and the siblings the verifier
cannot recompute, in the order of a depth-first walk of the bisections. -/
structure MultiProof (N V : Type) where
  paths : List (MultiPathProof V)
  siblings : List N

/-! ## Construction -/

/-- `PathProofRange`: the path proofs `lower..upper`, whose terminal paths agree on the bits
before `pathBitIndex`. -/
structure PathProofRange where
  lower : Nat
  upper : Nat
  pathBitIndex : Nat

/-- `PathProofRangeStep`. -/
inductive PathProofRangeStep (N : Type)
  | bisect (left right : PathProofRange)
  | advance (sibling : N)

namespace PathProofRange

/-- `PathProofRange::prove_unique_path_remainder`: for a range of one path proof, the multi-path
proof of its terminal and its siblings from the bit index on. The outer `Option` is a panic. -/
def proveUniquePathRemainder (r : PathProofRange) (pathProofs : List (PathProof N V)) :
    Option (Option (MultiPathProof V × List N)) :=
  -- `self.upper - 1` underflows on an empty range at `0`
  if r.upper = 0 then none
  else if r.lower ≠ r.upper - 1 then some none
  else
    pathProofs[r.lower]?.map fun pathProof =>
      let uniqueSiblings := pathProof.siblings.drop r.pathBitIndex
      some (⟨pathProof.terminal, r.pathBitIndex + uniqueSiblings.length⟩, uniqueSiblings)

/-- `PathProofRange::step`, with the range as `&mut self` leaves it. -/
def step (r : PathProofRange) (pathProofs : List (PathProof N V)) :
    Option (PathProofRangeStep N × PathProofRange) :=
  -- `self.upper - 1` underflows on an empty range at `0`
  if r.upper = 0 then none
  else do
    let lowerProof ← pathProofs[r.lower]?
    let upperProof ← pathProofs[r.upper - 1]?
    let lowerBit ← lowerProof.terminal.path[r.pathBitIndex]?
    let upperBit ← upperProof.terminal.path[r.pathBitIndex]?
    if lowerBit ≠ upperBit then
      let range ← RustSlice.range pathProofs r.lower r.upper
      let search ← RustSlice.binarySearchByOption range fun pathProof =>
        pathProof.terminal.path[r.pathBitIndex]?.map fun bit => if !bit then .lt else .gt
      match search with
      | .error i =>
        let mid := r.lower + i
        some (.bisect ⟨r.lower, mid, r.pathBitIndex + 1⟩ ⟨mid, r.upper, r.pathBitIndex + 1⟩, r)
      -- `unwrap_err` on `Ok`
      | .ok _ => none
    else
      let sibling ← lowerProof.siblings[r.pathBitIndex]?
      some (.advance sibling, { r with pathBitIndex := r.pathBitIndex + 1 })

end PathProofRange

namespace MultiProof

/-- The variables of the loop of `from_path_proofs`; the stack of ranges still to visit has its
top first. -/
structure FromPathProofsState (N V : Type) where
  paths : List (MultiPathProof V)
  siblings : List N
  proofRange : PathProofRange
  commonSiblings : List N
  stack : List PathProofRange

/-- One round of the loop of `from_path_proofs`: `none` is a panic, `.inl` the state of the next
round and `.inr` the proof the loop breaks out with. -/
def fromPathProofsStep (pathProofs : List (PathProof N V)) (st : FromPathProofsState N V) :
    Option (FromPathProofsState N V ⊕ MultiProof N V) := do
  match ← st.proofRange.proveUniquePathRemainder pathProofs with
  | some (subPathProof, uniqueSiblings) =>
    let paths := st.paths ++ [subPathProof]
    let siblings := st.siblings ++ uniqueSiblings
    -- `assert!(common_siblings.is_empty())`
    if st.commonSiblings.isEmpty then
      match st.stack with
      | [] => some (.inr ⟨paths, siblings⟩)
      | proofRange :: stack => some (.inl ⟨paths, siblings, proofRange, st.commonSiblings, stack⟩)
    else none
  | none =>
    match ← st.proofRange.step pathProofs with
    | (.bisect left right, _) =>
      some (.inl ⟨st.paths, st.siblings ++ st.commonSiblings, left, [], right :: st.stack⟩)
    | (.advance sibling, proofRange) =>
      some (.inl ⟨st.paths, st.siblings, proofRange, st.commonSiblings ++ [sibling], st.stack⟩)

/-- The loop of `from_path_proofs`, for at most `fuel` rounds. -/
def fromPathProofsLoop (pathProofs : List (PathProof N V)) :
    Nat → FromPathProofsState N V → Option (MultiProof N V)
  | 0, _ => none
  | fuel + 1, st =>
    match fromPathProofsStep pathProofs st with
    | some (.inl st) => fromPathProofsLoop pathProofs fuel st
    | some (.inr multiProof) => some multiProof
    | none => none

/-- `MultiProof::from_path_proofs`. -/
def fromPathProofs (pathProofs : List (PathProof N V)) : Option (MultiProof N V) :=
  if pathProofs.isEmpty then some ⟨[], []⟩
  else
    fromPathProofsLoop pathProofs (2 * 258 * pathProofs.length)
      ⟨[], [], ⟨0, pathProofs.length, 0⟩, [], []⟩

/-! ### Rounds of the loop -/

/-- Where the loop goes once the range it is on is done: out with the proof when the stack is
empty, on to the range on top of the stack otherwise. -/
def resume (pathProofs : List (PathProof N V)) (paths : List (MultiPathProof V))
    (siblings : List N) : List PathProofRange → Nat → Option (MultiProof N V)
  | [], _ => some ⟨paths, siblings⟩
  | proofRange :: stack, fuel =>
    fromPathProofsLoop pathProofs fuel ⟨paths, siblings, proofRange, [], stack⟩

section Rounds

variable {pathProofs : List (PathProof N V)} {lower upper pbi : Nat}
  {paths : List (MultiPathProof V)} {siblings commonSiblings : List N}
  {stack : List PathProofRange}

theorem fromPathProofsLoop_succ_of_step {st st' : FromPathProofsState N V}
    (h : fromPathProofsStep pathProofs st = some (.inl st')) (fuel : Nat) :
    fromPathProofsLoop pathProofs (fuel + 1) st = fromPathProofsLoop pathProofs fuel st' := by
  rw [fromPathProofsLoop, h]

/-- A round on a range of one path proof, with no shared siblings pending, emits the proof's
terminal and its siblings from the bit index on. -/
theorem fromPathProofsLoop_unique {pathProof : PathProof N V} (hr : lower + 1 = upper)
    (hp : pathProofs[lower]? = some pathProof) (fuel : Nat) :
    fromPathProofsLoop pathProofs (fuel + 1) ⟨paths, siblings, ⟨lower, upper, pbi⟩, [], stack⟩ =
      resume pathProofs
        (paths ++ [⟨pathProof.terminal, pbi + (pathProof.siblings.drop pbi).length⟩])
        (siblings ++ pathProof.siblings.drop pbi) stack fuel := by
  have hu : PathProofRange.proveUniquePathRemainder ⟨lower, upper, pbi⟩ pathProofs =
      some (some (⟨pathProof.terminal, pbi + (pathProof.siblings.drop pbi).length⟩,
        pathProof.siblings.drop pbi)) := by
    simp only [PathProofRange.proveUniquePathRemainder, hp]
    rw [if_neg (by omega), if_neg (by omega)]
    rfl
  cases stack <;> simp [fromPathProofsLoop, fromPathProofsStep, hu, resume]

/-- On a range of two or more, `prove_unique_path_remainder` has nothing to emit. -/
theorem proveUniquePathRemainder_of_lt (hr : lower + 1 < upper) :
    PathProofRange.proveUniquePathRemainder ⟨lower, upper, pbi⟩ pathProofs = some none := by
  simp only [PathProofRange.proveUniquePathRemainder]
  rw [if_neg (by omega), if_pos (by omega)]

section TwoOrMore

variable {lowerProof upperProof : PathProof N V} (hr : lower + 1 < upper)
  (hlower : pathProofs[lower]? = some lowerProof) (hupper : pathProofs[upper - 1]? = some upperProof)
include hr hlower hupper

/-- A round on a range of two or more whose ends agree on the bit index takes the lower end's
sibling there as a shared sibling. -/
theorem fromPathProofsStep_advance {b : Bool} {s : N}
    (hlb : lowerProof.terminal.path[pbi]? = some b) (hub : upperProof.terminal.path[pbi]? = some b)
    (hs : lowerProof.siblings[pbi]? = some s) :
    fromPathProofsStep pathProofs ⟨paths, siblings, ⟨lower, upper, pbi⟩, commonSiblings, stack⟩ =
      some (.inl ⟨paths, siblings, ⟨lower, upper, pbi + 1⟩, commonSiblings ++ [s], stack⟩) := by
  have hstep : PathProofRange.step ⟨lower, upper, pbi⟩ pathProofs =
      some (.advance s, ⟨lower, upper, pbi + 1⟩) := by
    simp only [PathProofRange.step]
    rw [if_neg (by omega)]
    simp [hlower, hupper, hlb, hub, hs]
  simp [fromPathProofsStep, proveUniquePathRemainder_of_lt hr, hstep]

/-- A round on a range of two or more whose ends part at the bit index bisects it where the
search on that bit ends, and flushes the shared siblings. -/
theorem fromPathProofsStep_bisect {lb ub : Bool} {i : Nat} (hle : upper ≤ pathProofs.length)
    (hlb : lowerProof.terminal.path[pbi]? = some lb) (hub : upperProof.terminal.path[pbi]? = some ub)
    (hne : lb ≠ ub)
    (hsearch : RustSlice.binarySearchByOption ((pathProofs.take upper).drop lower)
      (fun pathProof => pathProof.terminal.path[pbi]?.map fun bit => if !bit then .lt else .gt) =
        some (.error i)) :
    fromPathProofsStep pathProofs ⟨paths, siblings, ⟨lower, upper, pbi⟩, commonSiblings, stack⟩ =
      some (.inl ⟨paths, siblings ++ commonSiblings, ⟨lower, lower + i, pbi + 1⟩, [],
        ⟨lower + i, upper, pbi + 1⟩ :: stack⟩) := by
  have hstep : PathProofRange.step ⟨lower, upper, pbi⟩ pathProofs =
      some (.bisect ⟨lower, lower + i, pbi + 1⟩ ⟨lower + i, upper, pbi + 1⟩,
        ⟨lower, upper, pbi⟩) := by
    simp only [PathProofRange.step]
    rw [if_neg (by omega)]
    simp only [hlower, hupper, hlb, hub, Option.bind_eq_bind, Option.bind_some]
    rw [if_pos hne, RustSlice.range_of_le (by omega) hle, Option.bind_some, hsearch,
      Option.bind_some]
  simp [fromPathProofsStep, proveUniquePathRemainder_of_lt hr, hstep]

/-- Rounds on a range of two or more whose ends agree on the `c` bits from the bit index on take
the lower end's siblings at those bits, one a round. -/
theorem fromPathProofsLoop_advance : ∀ (c pbi : Nat) (commonSiblings : List N) (fuel : Nat),
    (∀ j, pbi ≤ j → j < pbi + c →
      ∃ b, lowerProof.terminal.path[j]? = some b ∧ upperProof.terminal.path[j]? = some b) →
    pbi + c ≤ lowerProof.siblings.length →
    fromPathProofsLoop pathProofs (c + fuel)
        ⟨paths, siblings, ⟨lower, upper, pbi⟩, commonSiblings, stack⟩ =
      fromPathProofsLoop pathProofs fuel ⟨paths, siblings, ⟨lower, upper, pbi + c⟩,
        commonSiblings ++ (lowerProof.siblings.drop pbi).take c, stack⟩
  | 0, pbi, commonSiblings, fuel, _, _ => by simp
  | c + 1, pbi, commonSiblings, fuel, hbits, hsib => by
    obtain ⟨b, hlb, hub⟩ := hbits pbi (Nat.le_refl _) (by omega)
    have hs : lowerProof.siblings[pbi]? = some lowerProof.siblings[pbi] :=
      List.getElem?_eq_getElem (by omega)
    rw [show c + 1 + fuel = (c + fuel) + 1 by omega, fromPathProofsLoop_succ_of_step
      (fromPathProofsStep_advance hr hlower hupper hlb hub hs),
      fromPathProofsLoop_advance c (pbi + 1) _ fuel
        (fun j hj hj' => hbits j (by omega) (by omega)) (by omega)]
    -- the sibling taken this round heads the ones taken after it
    have hdrop : (lowerProof.siblings.drop pbi).take (c + 1) =
        lowerProof.siblings[pbi] :: (lowerProof.siblings.drop (pbi + 1)).take c := by
      rw [List.drop_eq_getElem_cons (by omega), List.take_succ_cons]
    rw [hdrop, show pbi + 1 + c = pbi + (c + 1) by omega]
    simp

end TwoOrMore

end Rounds

end MultiProof

/-! ## Verification -/

/-- `MultiProofVerificationError`. -/
inductive MultiProofVerificationError
  | rootMismatch
  | pathsOutOfOrder
  | tooManySiblings
deriving DecidableEq, Repr

/-- `VerifiedMultiPath`; `uniqueSiblings` is the range `start..end` of the proof's siblings that
belong to this path alone. -/
structure VerifiedMultiPath (V : Type) where
  terminal : PathProofTerminal V
  depth : Nat
  uniqueSiblings : Nat × Nat

/-- `VerifiedBisection`: a bisection starting at `startDepth`, and the range of the proof's
siblings its paths share. -/
structure VerifiedBisection where
  startDepth : Nat
  commonSiblings : Nat × Nat

/-- `VerifiedMultiProof`. -/
structure VerifiedMultiProof (N V : Type) where
  inner : List (VerifiedMultiPath V)
  bisections : List VerifiedBisection
  siblings : List N
  root : N

/-- What one call of `verify_range` returns and pushes: the node of its range, the number of
siblings it used, and the verified paths and bisections it pushed, in order. -/
structure RangeOutput (N V : Type) where
  node : N
  siblingsUsed : Nat
  paths : List (VerifiedMultiPath V)
  bisections : List VerifiedBisection

namespace MultiProof

/-- The bisection point of `verify_range`: the first path with bit `bit` set, by
`binary_search_by` (indexing a path past its end panics); `unwrap_err` panics on `Ok`. -/
def bisectIndex (paths : List (MultiPathProof V)) (bit : Nat) : Option Nat :=
  match RustSlice.binarySearchByOption paths fun item =>
      item.terminal.path[bit]?.map fun b => if !b then .lt else .gt with
  | some (.error i) => some i
  | _ => none

-- the bound `h` on the start depth is read by the termination proof only
set_option linter.unusedVariables false in
/-- `verify_range`: the node at `startDepth` above the paths, hashed from the terminals and the
siblings, with the number of siblings used. -/
def verifyRange [Zero N] (H : NodeHasher N V) (startDepth : Nat) (paths : List (MultiPathProof V))
    (siblings : List N) (siblingOffset : Nat) : Option (RangeOutput N V) :=
  match paths with
  | [] => some ⟨terminator, 0, [⟨.terminator TriePos.TriePosition.new, 0, (0, 0)⟩], []⟩
  | [terminalPath] =>
    -- `terminal_path.depth - start_depth` underflows above the start depth
    if terminalPath.depth < startDepth then none
    else do
      let uniqueLen := terminalPath.depth - startDepth
      let bits ← RustSlice.range terminalPath.terminal.path startDepth (startDepth + uniqueLen)
      let uniqueSiblings ← RustSlice.rangeTo siblings uniqueLen
      let node := hashPath H (terminalPath.terminal.node H) bits uniqueSiblings.reverse
      some ⟨node, uniqueLen,
        [⟨terminalPath.terminal, terminalPath.depth, (siblingOffset, siblingOffset + uniqueLen)⟩],
        []⟩
  | startPath :: next :: rest =>
    let endPath := (next :: rest).getLast (List.cons_ne_nil _ _)
    -- `&path()[start_depth..]` panics past the end of either path
    if h : startDepth ≤ startPath.terminal.path.length ∧
        startDepth ≤ endPath.terminal.path.length then
      let commonBits := sharedBits (startPath.terminal.path.drop startDepth)
        (endPath.terminal.path.drop startDepth)
      let commonLen := startDepth + commonBits
      let uncommonStartLen := commonLen + 1
      match bisectIndex (startPath :: next :: rest) (uncommonStartLen - 1) with
      | none => none
      | some bisectIdx => do
        let leftSiblings ← RustSlice.rangeFrom siblings commonBits
        let left ← verifyRange H uncommonStartLen ((startPath :: next :: rest).take bisectIdx)
          leftSiblings (siblingOffset + commonBits)
        let rightSiblings ← RustSlice.rangeFrom siblings (commonBits + left.siblingsUsed)
        let right ← verifyRange H uncommonStartLen ((startPath :: next :: rest).drop bisectIdx)
          rightSiblings (siblingOffset + commonBits + left.siblingsUsed)
        let bits ← RustSlice.range startPath.terminal.path startDepth commonLen
        let commonSiblings ← RustSlice.rangeTo siblings commonBits
        let node := hashPath H (H.hashInternal ⟨left.node, right.node⟩) bits commonSiblings.reverse
        -- the bisection is pushed before the recursion, when its paths share siblings
        let bisections : List VerifiedBisection :=
          if commonBits > 0 then [⟨startDepth, (siblingOffset, siblingOffset + commonBits)⟩]
          else []
        some ⟨node, commonBits + left.siblingsUsed + right.siblingsUsed,
          left.paths ++ right.paths, bisections ++ left.bisections ++ right.bisections⟩
    else none
termination_by 257 - startDepth
decreasing_by
  all_goals
    have hlen := startPath.terminal.length_path_le
    have hshared := sharedBits_le_length_left (startPath.terminal.path.drop startDepth)
      (endPath.terminal.path.drop startDepth)
    simp only [List.length_drop] at hshared
    omega

/-! ### What `verify_range` computes -/

section VerifyRange

variable [Zero N] (H : NodeHasher N V) {sd off : Nat} {siblings : List N} {out : RangeOutput N V}

theorem verifyRange_singleton_eq_some {t : MultiPathProof V} :
    verifyRange H sd [t] siblings off = some out ↔
      sd ≤ t.depth ∧ t.depth ≤ t.terminal.path.length ∧ t.depth - sd ≤ siblings.length ∧
      out = ⟨hashPath H (t.terminal.node H) ((t.terminal.path.take t.depth).drop sd)
          (siblings.take (t.depth - sd)).reverse, t.depth - sd,
        [⟨t.terminal, t.depth, (off, off + (t.depth - sd))⟩], []⟩ := by
  rw [verifyRange.eq_2]
  by_cases hsd : t.depth < sd
  · simp only [hsd, if_true, reduceCtorEq, false_iff]
    omega
  · simp only [hsd, if_false]
    have hadd : sd + (t.depth - sd) = t.depth := by omega
    simp only [hadd, Option.bind_eq_bind, Option.bind_eq_some_iff, RustSlice.range_eq_some_iff,
      RustSlice.rangeTo_eq_some_iff, Option.some.injEq]
    constructor
    · rintro ⟨bits, ⟨-, hlen, rfl⟩, sibs, ⟨hs, rfl⟩, rfl⟩
      exact ⟨by omega, hlen, hs, rfl⟩
    · rintro ⟨-, hlen, hs, rfl⟩
      exact ⟨_, ⟨by omega, hlen, rfl⟩, _, ⟨hs, rfl⟩, rfl⟩

/-- A range of two or more paths: both ends reach the start depth, the paths are bisected after
the `c` bits the ends share, the two halves are verified one after the other, and their nodes are
hashed up along the shared bits. -/
theorem verifyRange_cons_cons_eq_some {a b e : MultiPathProof V} {rest : List (MultiPathProof V)}
    {c : Nat} (he : (b :: rest).getLast (List.cons_ne_nil _ _) = e)
    (hc : sharedBits (a.terminal.path.drop sd) (e.terminal.path.drop sd) = c) :
    verifyRange H sd (a :: b :: rest) siblings off = some out ↔
      sd ≤ a.terminal.path.length ∧ sd ≤ e.terminal.path.length ∧ c ≤ siblings.length ∧
      ∃ bisectIdx left right, bisectIndex (a :: b :: rest) (sd + c) = some bisectIdx ∧
        verifyRange H (sd + c + 1) ((a :: b :: rest).take bisectIdx) (siblings.drop c)
          (off + c) = some left ∧
        c + left.siblingsUsed ≤ siblings.length ∧
        verifyRange H (sd + c + 1) ((a :: b :: rest).drop bisectIdx)
          (siblings.drop (c + left.siblingsUsed)) (off + c + left.siblingsUsed) = some right ∧
        out = ⟨hashPath H (H.hashInternal ⟨left.node, right.node⟩)
            ((a.terminal.path.take (sd + c)).drop sd) (siblings.take c).reverse,
          c + left.siblingsUsed + right.siblingsUsed, left.paths ++ right.paths,
          (if c > 0 then [⟨sd, (off, off + c)⟩] else []) ++ left.bisections ++ right.bisections⟩ := by
  subst he hc
  rw [verifyRange.eq_3]
  by_cases h : sd ≤ a.terminal.path.length ∧
      sd ≤ ((b :: rest).getLast (List.cons_ne_nil _ _)).terminal.path.length
  · rw [dif_pos h]
    simp only [Nat.add_sub_cancel]
    have hc := sharedBits_le_length_left (a.terminal.path.drop sd)
      (((b :: rest).getLast (List.cons_ne_nil _ _)).terminal.path.drop sd)
    rw [List.length_drop] at hc
    cases hbis : bisectIndex (a :: b :: rest) _ with
    | none => simp [h]
    | some bisectIdx =>
      simp only [Option.bind_eq_bind, Option.bind_eq_some_iff, RustSlice.rangeFrom_eq_some_iff,
        RustSlice.range_eq_some_iff, RustSlice.rangeTo_eq_some_iff, Option.some.injEq]
      constructor
      · rintro ⟨_, ⟨hcs, rfl⟩, left, hleft, _, ⟨hls, rfl⟩, right, hright, _, ⟨-, -, rfl⟩,
          _, ⟨-, rfl⟩, rfl⟩
        refine ⟨h.1, h.2, hcs, bisectIdx, left, right, rfl, hleft, ?_, hright, rfl⟩
        simpa using hls
      · rintro ⟨-, -, hcs, bisectIdx', left, right, hb, hleft, hls, hright, rfl⟩
        cases hb
        refine ⟨_, ⟨hcs, rfl⟩, left, hleft, _, ⟨by simpa using hls, rfl⟩, right, hright, _,
          ⟨by omega, by omega, rfl⟩, _, ⟨hcs, rfl⟩, rfl⟩
  · rw [dif_neg h]
    simp only [reduceCtorEq, false_iff]
    rintro ⟨h1, h2, -⟩
    exact h ⟨h1, h2⟩

/-- A lower bound by the start depth that every singleton range that verifies puts on its path
holds of every path of any range that verifies: the halves of a bisected range start deeper. -/
theorem verifyRange_le_of_singleton (f : MultiPathProof V → Nat)
    (hsingle : ∀ {sd : Nat} {t : MultiPathProof V} {siblings : List N} {off : Nat}
      {out : RangeOutput N V}, verifyRange H sd [t] siblings off = some out → sd ≤ f t) :
    ∀ {sd : Nat} {paths : List (MultiPathProof V)} {siblings : List N} {off : Nat}
      {out : RangeOutput N V}, verifyRange H sd paths siblings off = some out → ∀ x ∈ paths, sd ≤ f x
  | _, [], _, _, _, _ => by simp
  | sd, [t], siblings, off, out, h => by
    simpa using hsingle h
  | sd, a :: b :: rest, siblings, off, out, h => by
    obtain ⟨h1, -, -, i, left, right, -, hleft, -, hright, -⟩ :=
      (verifyRange_cons_cons_eq_some H rfl rfl).mp h
    have hsd : sd ≤ 256 := Nat.le_trans h1 a.terminal.length_path_le
    intro x hx
    rw [← List.take_append_drop i (a :: b :: rest), List.mem_append] at hx
    rcases hx with hx | hx
    · have := verifyRange_le_of_singleton f hsingle hleft x hx
      omega
    · have := verifyRange_le_of_singleton f hsingle hright x hx
      omega
termination_by sd => 257 - sd

/-- Every path of a range that verifies reaches the range's start depth. -/
theorem verifyRange_length_le : ∀ {sd : Nat} {paths : List (MultiPathProof V)}
    {siblings : List N} {off : Nat} {out : RangeOutput N V},
    verifyRange H sd paths siblings off = some out → ∀ x ∈ paths, sd ≤ x.terminal.path.length :=
  verifyRange_le_of_singleton H (fun x => x.terminal.path.length) fun h => by
    obtain ⟨h1, h2, -⟩ := (verifyRange_singleton_eq_some H).mp h
    omega

/-- Every path a range that verifies pushes ends within its terminal's path. -/
theorem verifyRange_depth_le : ∀ {sd : Nat} {paths : List (MultiPathProof V)}
    {siblings : List N} {off : Nat} {out : RangeOutput N V},
    verifyRange H sd paths siblings off = some out →
      ∀ w ∈ out.paths, w.depth ≤ w.terminal.path.length
  | sd, [], siblings, off, out, h => by
    rw [verifyRange.eq_1, Option.some.injEq] at h
    subst h
    simp
  | sd, [t], siblings, off, out, h => by
    obtain ⟨-, h2, -, rfl⟩ := (verifyRange_singleton_eq_some H).mp h
    simpa using h2
  | sd, a :: b :: rest, siblings, off, out, h => by
    obtain ⟨h1, -, -, i, left, right, -, hleft, -, hright, rfl⟩ :=
      (verifyRange_cons_cons_eq_some H rfl rfl).mp h
    have hsd : sd ≤ 256 := Nat.le_trans h1 a.terminal.length_path_le
    intro w hw
    rcases List.mem_append.mp hw with hw | hw
    · exact verifyRange_depth_le hleft w hw
    · exact verifyRange_depth_le hright w hw
termination_by sd => 257 - sd

/-- Every path of a range that verifies is declared at or below the range's start depth: a
singleton range subtracts the start depth from its path's declared depth. -/
theorem verifyRange_start_le_depth : ∀ {sd : Nat} {paths : List (MultiPathProof V)}
    {siblings : List N} {off : Nat} {out : RangeOutput N V},
    verifyRange H sd paths siblings off = some out → ∀ x ∈ paths, sd ≤ x.depth :=
  verifyRange_le_of_singleton H MultiPathProof.depth fun h =>
    ((verifyRange_singleton_eq_some H).mp h).1

/-- A range of two or more paths is bisected below its start depth, so each of its paths must be
declared strictly below it. -/
theorem verifyRange_lt_depth {a b : MultiPathProof V} {rest : List (MultiPathProof V)}
    (h : verifyRange H sd (a :: b :: rest) siblings off = some out) :
    ∀ x ∈ a :: b :: rest, sd < x.depth := by
  obtain ⟨-, -, -, i, left, right, -, hleft, -, hright, -⟩ :=
    (verifyRange_cons_cons_eq_some H rfl rfl).mp h
  intro x hx
  rw [← List.take_append_drop i (a :: b :: rest), List.mem_append] at hx
  rcases hx with hx | hx
  · have := verifyRange_start_le_depth H hleft x hx
    omega
  · have := verifyRange_start_le_depth H hright x hx
    omega

end VerifyRange

/-! ### The bisection point

`step` and `verify_range` both bisect a range with a binary search on one bit of the terminal
paths. On paths in ascending order that agree before that bit and all reach it, the search ends at
the first path with the bit set (`bitSearch_spec`). -/

section BitSearch

variable {α : Type} (path : α → List Bool)

/-- The comparator of the bisection searches, made total by reading a bit past the end of a path
as unset. -/
def bitOrder (bit : Nat) (x : α) : Ordering :=
  if (path x).getD bit false then .gt else .lt

variable {path}

theorem bitOrder_of_lt {L : Nat} {x : α} (h : L < (path x).length) :
    bitOrder path L x = if (path x)[L] then .gt else .lt := by
  rw [bitOrder, List.getD_eq_getElem?_getD, List.getElem?_eq_getElem h, Option.getD_some]

variable {l : List α} {L : Nat} {p : List Bool}
  (hsorted : l.Pairwise (fun x y => path x < path y)) (hshared : ∀ x ∈ l, (path x).take L = p)
  (hlen : ∀ x ∈ l, L < (path x).length)
include hsorted hshared hlen

/-- On paths in ascending order that agree on their first `L` bits and all go on past them, the
bisection comparator is monotone: a path with bit `L` set is above one without. -/
theorem bitOrder_monotone : RustSlice.Monotone l (bitOrder path L) := by
  intro i j hi hj hij
  rcases Nat.lt_or_eq_of_le hij with hlt | rfl
  · have hxy := List.pairwise_iff_getElem.mp hsorted i j hi hj hlt
    have hli := hlen _ (List.getElem_mem hi)
    have hlj := hlen _ (List.getElem_mem hj)
    rw [bitOrder_of_lt hli, bitOrder_of_lt hlj]
    cases hbi : (path l[i])[L] <;> cases hbj : (path l[j])[L]
    · exact Nat.le_refl _
    · decide
    · -- bit `L` set on the lower path only would put the upper path below it
      exfalso
      have htake : (path l[j]).take L = (path l[i]).take L := by
        rw [hshared _ (List.getElem_mem hi), hshared _ (List.getElem_mem hj)]
      have hbefore : BitString.Before (path l[j]) (path l[i]) := by
        have hcpl := BitString.commonPrefixLen_eq_of_take_eq hlj hli htake
          (by rw [hbi, hbj]; decide)
        unfold BitString.Before
        rw [hcpl, List.getElem?_eq_getElem hlj, List.getElem?_eq_getElem hli, hbi, hbj]
        exact ⟨rfl, rfl⟩
      exact BitString.lt_asymm hxy hbefore.lt
    · exact Nat.le_refl _
  · exact Nat.le_refl _

/-- The bisection search on bit `L` ends in `Err` at the first path with bit `L` set. -/
theorem bitSearch_spec :
    ∃ i, RustSlice.binarySearchByOption l
        (fun x => (path x)[L]?.map fun b => if !b then .lt else .gt) = some (.error i) ∧
      i ≤ l.length ∧ (∀ x ∈ l.take i, (path x)[L]? = some false) ∧
      ∀ x ∈ l.drop i, (path x)[L]? = some true := by
  have htotal : ∀ x ∈ l, ((path x)[L]?.map fun b => if !b then Ordering.lt else .gt) =
      some (bitOrder path L x) := by
    intro x hx
    have hL := hlen x hx
    rw [List.getElem?_eq_getElem hL, bitOrder_of_lt hL]
    cases (path x)[L] <;> rfl
  have hspec := RustSlice.binarySearchBy_spec (bitOrder_monotone hsorted hshared hlen)
  -- the comparator never answers `Equal`, so the search ends in `Err`
  cases hsearch : RustSlice.binarySearchBy l (bitOrder path L) with
  | ok i =>
    obtain ⟨hi, heq⟩ := hspec.1 i hsearch
    unfold bitOrder at heq
    split_ifs at heq
  | error i =>
    obtain ⟨hle, hlt, hgt⟩ := hspec.2 i hsearch
    have hbit : ∀ j (hj : j < l.length), (path l[j])[L]? = some (bitOrder path L l[j] == .gt) := by
      intro j hj
      have hL := hlen _ (List.getElem_mem hj)
      rw [List.getElem?_eq_getElem hL, bitOrder_of_lt hL]
      cases (path l[j])[L] <;> rfl
    refine ⟨i, ?_, hle, fun x hx => ?_, fun x hx => ?_⟩
    · rw [RustSlice.binarySearchByOption_of_total htotal, hsearch]
    · obtain ⟨j, hj, rfl⟩ := List.getElem_of_mem hx
      rw [List.getElem_take]
      have hji : j < i := by simp at hj; omega
      rw [hbit j (by simp at hj; omega), hlt j (by simp at hj; omega) hji]
      rfl
    · obtain ⟨j, hj, rfl⟩ := List.getElem_of_mem hx
      rw [List.getElem_drop]
      rw [hbit (i + j) (by simp at hj; omega), hgt (i + j) (by simp at hj; omega) (by omega)]
      rfl

end BitSearch

/-- On paths in ascending order that agree on their first `L` bits and all go on past them,
`bisectIndex` splits them at the first path with bit `L` set. -/
theorem bisectIndex_spec {paths : List (MultiPathProof V)} {L : Nat} {p : List Bool}
    (hsorted : paths.Pairwise (fun x y => x.terminal.path < y.terminal.path))
    (hshared : ∀ x ∈ paths, x.terminal.path.take L = p)
    (hlen : ∀ x ∈ paths, L < x.terminal.path.length) :
    ∃ i, bisectIndex paths L = some i ∧ i ≤ paths.length ∧
      (∀ x ∈ paths.take i, x.terminal.path[L]? = some false) ∧
      ∀ x ∈ paths.drop i, x.terminal.path[L]? = some true := by
  obtain ⟨i, hsearch, hrest⟩ := bitSearch_spec hsorted hshared hlen
  refine ⟨i, ?_, hrest⟩
  unfold bisectIndex
  rw [hsearch]

/-- `multi_proof::verify`: the paths must be in strictly ascending order (`path <= previous` on
bit slices is `¬ previous < path`), and hash up to `root` using every sibling. -/
def verify [Zero N] [DecidableEq N] (H : NodeHasher N V) (multiProof : MultiProof N V) (root : N) :
    Option (Except MultiProofVerificationError (VerifiedMultiProof N V)) :=
  if (multiProof.paths.zip multiProof.paths.tail).any fun (previous, path) =>
      !decide (previous.terminal.path < path.terminal.path) then
    some (.error .pathsOutOfOrder)
  else do
    let out ← verifyRange H 0 multiProof.paths multiProof.siblings 0
    if root ≠ out.node then some (.error .rootMismatch)
    else if out.siblingsUsed ≠ multiProof.siblings.length then some (.error .tooManySiblings)
    else some (.ok ⟨out.paths, out.bisections, multiProof.siblings, root⟩)

/-- A list whose consecutive elements are related by a transitive relation is related pairwise;
`verify` checks the order of the paths on consecutive ones. -/
theorem pairwise_of_forall_zip_tail {α : Type} {R : α → α → Prop}
    (htrans : ∀ a b c, R a b → R b c → R a c) :
    ∀ {l : List α}, (∀ q ∈ l.zip l.tail, R q.1 q.2) → l.Pairwise R
  | [], _ => List.Pairwise.nil
  | [a], _ => List.pairwise_singleton R a
  | a :: b :: rest, h => by
    have hab : R a b := h (a, b) (by simp)
    have hrest : (b :: rest).Pairwise R :=
      pairwise_of_forall_zip_tail htrans fun q hq => h q (by
        simp only [List.tail_cons, List.zip_cons_cons, List.mem_cons] at hq ⊢
        exact Or.inr hq)
    refine List.Pairwise.cons (fun x hx => ?_) hrest
    rcases List.mem_cons.mp hx with rfl | hx
    · exact hab
    · exact htrans a b x hab (List.rel_of_pairwise_cons hrest hx)

theorem forall_zip_tail_of_pairwise {α : Type} {R : α → α → Prop} :
    ∀ {l : List α}, l.Pairwise R → ∀ q ∈ l.zip l.tail, R q.1 q.2
  | [], _, q, hq => by simp at hq
  | [a], _, q, hq => by simp at hq
  | a :: b :: rest, h, q, hq => by
    simp only [List.tail_cons, List.zip_cons_cons, List.mem_cons] at hq
    rcases hq with rfl | hq
    · exact List.rel_of_pairwise_cons h (List.mem_cons_self ..)
    · exact forall_zip_tail_of_pairwise (List.Pairwise.of_cons h) q hq

/-- What `verify` accepts: paths in ascending order whose range verifies to `root` using every
sibling; the verified proof holds what `verify_range` pushed. -/
theorem verify_eq_some_ok [Zero N] [DecidableEq N] (H : NodeHasher N V) {multiProof : MultiProof N V}
    {root : N} {v : VerifiedMultiProof N V} :
    verify H multiProof root = some (.ok v) ↔
      multiProof.paths.Pairwise (fun x y => x.terminal.path < y.terminal.path) ∧
      ∃ out, verifyRange H 0 multiProof.paths multiProof.siblings 0 = some out ∧
        out.node = root ∧ out.siblingsUsed = multiProof.siblings.length ∧
        v = ⟨out.paths, out.bisections, multiProof.siblings, root⟩ := by
  unfold verify
  by_cases hord : (multiProof.paths.zip multiProof.paths.tail).any (fun (previous, path) =>
      !decide (previous.terminal.path < path.terminal.path)) = true
  · rw [if_pos hord]
    simp only [Option.some.injEq, reduceCtorEq, false_iff, not_and]
    intro hsorted
    obtain ⟨q, hq, hbad⟩ := List.any_eq_true.mp hord
    have := forall_zip_tail_of_pairwise hsorted q hq
    simp_all
  · rw [if_neg hord]
    have hsorted : multiProof.paths.Pairwise (fun x y => x.terminal.path < y.terminal.path) := by
      refine pairwise_of_forall_zip_tail
        (R := fun x y : MultiPathProof V => x.terminal.path < y.terminal.path)
        (fun _ _ _ => BitString.lt_trans) fun q hq => ?_
      have := List.any_eq_false.mp (Bool.eq_false_iff.mpr hord) q hq
      simpa using this
    simp only [hsorted, true_and, Option.bind_eq_bind, Option.bind_eq_some_iff]
    constructor
    · rintro ⟨out, hout, hv⟩
      by_cases hroot : root = out.node
      · subst hroot
        by_cases hused : out.siblingsUsed = multiProof.siblings.length
        · simp only [hused, ne_eq, not_true_eq_false, if_false, Option.some.injEq,
            Except.ok.injEq] at hv
          exact ⟨out, hout, rfl, hused, hv.symm⟩
        · simp [hused] at hv
      · simp [hroot] at hv
    · rintro ⟨out, hout, rfl, hused, rfl⟩
      exact ⟨out, hout, by simp [hused]⟩

/-- `verify` panics on a proof of two or more paths in ascending order when one of them is
declared at depth 0: the range at the root is bisected, and `terminal_path.depth - start_depth`
underflows for that path below the bisection. -/
theorem verify_eq_none_of_depth_eq_zero [Zero N] [DecidableEq N] (H : NodeHasher N V)
    {multiProof : MultiProof N V} {root : N} {a b x : MultiPathProof V}
    {rest : List (MultiPathProof V)} (hpaths : multiProof.paths = a :: b :: rest)
    (hsorted : multiProof.paths.Pairwise (fun x y => x.terminal.path < y.terminal.path))
    (hx : x ∈ multiProof.paths) (hdepth : x.depth = 0) : verify H multiProof root = none := by
  have hord : (multiProof.paths.zip multiProof.paths.tail).any (fun (previous, path) =>
      !decide (previous.terminal.path < path.terminal.path)) = false := by
    refine List.any_eq_false.mpr fun q hq => ?_
    simpa using forall_zip_tail_of_pairwise hsorted q hq
  have hrange : verifyRange H 0 multiProof.paths multiProof.siblings 0 = none := by
    cases hout : verifyRange H 0 multiProof.paths multiProof.siblings 0 with
    | none => rfl
    | some out =>
      rw [hpaths] at hout hx
      have := verifyRange_lt_depth H hout x hx
      omega
  unfold verify
  rw [if_neg (by simp [hord]), hrange, Option.bind_eq_bind, Option.bind_none]

/-- Two terminators parting at the first bit, the first declared at depth 0. -/
theorem verify_depth_underflow [Zero N] [DecidableEq N] (H : NodeHasher N V) (root : N) :
    verify H ⟨[⟨.terminator ⟨KeyPath.ofPrefix [false], 1, 0, by decide⟩, 0⟩,
      ⟨.terminator ⟨KeyPath.ofPrefix [true], 1, 1, by decide⟩, 0⟩], []⟩ root = none :=
  verify_eq_none_of_depth_eq_zero H rfl (List.pairwise_pair.mpr (by decide : [false] < [true]))
    (List.mem_cons_self ..) rfl

end MultiProof

namespace VerifiedMultiProof

/-- The order of `BitSlice`: lexicographic, a prefix before its extensions. -/
def compareBits (a b : List Bool) : Ordering := compareOfLessAndEq a b

/-- `VerifiedMultiProof::find_index_for`: the index of a path whose first `depth` bits are those
of the key, by binary search. -/
def findIndexFor (v : VerifiedMultiProof N V) (keyPath : KeyPath) :
    Option (Except KeyOutOfScope Nat) := do
  let search ← RustSlice.binarySearchByOption v.inner fun path => do
    let terminalBits ← RustSlice.rangeTo path.terminal.path path.depth
    let keyBits ← RustSlice.rangeTo keyPath.bits path.depth
    some (compareBits terminalBits keyBits)
  some (match search with
    | .ok index => .ok index
    | .error _ => .error ⟨⟩)

/-- `VerifiedMultiProof::confirm_nonexistence_inner`. -/
def confirmNonexistenceInner (v : VerifiedMultiProof N V) (keyPath : KeyPath) (index : Nat) :
    Option Bool :=
  v.inner[index]?.map fun path =>
    match path.terminal with
    | .terminator _ => true
    | .leaf leafData => decide (leafData.keyPath ≠ keyPath)

/-- `VerifiedMultiProof::confirm_value_inner`. -/
def confirmValueInner [DecidableEq V] (v : VerifiedMultiProof N V) (expectedLeaf : LeafData V)
    (index : Nat) : Option Bool :=
  v.inner[index]?.map fun path =>
    match path.terminal with
    | .terminator _ => false
    | .leaf leafData => decide (leafData = expectedLeaf)

/-- `VerifiedMultiProof::confirm_nonexistence`. -/
def confirmNonexistence (v : VerifiedMultiProof N V) (keyPath : KeyPath) :
    Option (Except KeyOutOfScope Bool) := do
  match ← v.findIndexFor keyPath with
  | .ok index => (v.confirmNonexistenceInner keyPath index).map .ok
  | .error e => some (.error e)

/-- `VerifiedMultiProof::confirm_value`. -/
def confirmValue [DecidableEq V] (v : VerifiedMultiProof N V) (expectedLeaf : LeafData V) :
    Option (Except KeyOutOfScope Bool) := do
  match ← v.findIndexFor expectedLeaf.keyPath with
  | .ok index => (v.confirmValueInner expectedLeaf index).map .ok
  | .error e => some (.error e)

/-- Whether the key starts with the first `depth` bits of the path at `index`, as the
`confirm_*_with_index` functions check it. -/
def inScopeAt (v : VerifiedMultiProof N V) (keyPath : KeyPath) (index : Nat) : Option Bool := do
  let path ← v.inner[index]?
  let terminalBits ← RustSlice.rangeTo path.terminal.path path.depth
  let keyBits ← RustSlice.rangeTo keyPath.bits path.depth
  some (decide (terminalBits = keyBits))

/-- `VerifiedMultiProof::confirm_nonexistence_with_index`. -/
def confirmNonexistenceWithIndex (v : VerifiedMultiProof N V) (keyPath : KeyPath) (index : Nat) :
    Option (Except KeyOutOfScope Bool) := do
  if ← v.inScopeAt keyPath index then (v.confirmNonexistenceInner keyPath index).map .ok
  else some (.error ⟨⟩)

/-- `VerifiedMultiProof::confirm_value_with_index`. -/
def confirmValueWithIndex [DecidableEq V] (v : VerifiedMultiProof N V) (expectedLeaf : LeafData V)
    (index : Nat) : Option (Except KeyOutOfScope Bool) := do
  if ← v.inScopeAt expectedLeaf.keyPath index then
    (v.confirmValueInner expectedLeaf index).map .ok
  else some (.error ⟨⟩)

/-! ### What the queries answer -/

theorem compareBits_eq_eq {a b : List Bool} : compareBits a b = .eq ↔ a = b := by
  unfold compareBits compareOfLessAndEq
  split_ifs with hlt heq
  · simp only [false_iff]
    rintro rfl
    exact BitString.lt_irrefl a hlt
  · simp [heq]
  · simp [heq]

theorem compareBits_eq_lt {a b : List Bool} (h : a < b) : compareBits a b = .lt := by
  unfold compareBits compareOfLessAndEq
  rw [if_pos h]

theorem compareBits_eq_gt {a b : List Bool} (h : b < a) : compareBits a b = .gt := by
  unfold compareBits compareOfLessAndEq
  rw [if_neg (BitString.lt_asymm h), if_neg]
  rintro rfl
  exact BitString.lt_irrefl a h

/-- The comparator of `find_index_for`, made total by cutting the paths without a panic. -/
def scopeOrder (keyPath : KeyPath) (path : VerifiedMultiPath V) : Ordering :=
  compareBits (path.terminal.path.take path.depth) (keyPath.bits.take path.depth)

variable {v : VerifiedMultiProof N V} {keyPath : KeyPath}

theorem findIndexFor_eq_search :
    v.findIndexFor keyPath = (RustSlice.binarySearchByOption v.inner fun path => do
      let terminalBits ← RustSlice.rangeTo path.terminal.path path.depth
      let keyBits ← RustSlice.rangeTo keyPath.bits path.depth
      some (compareBits terminalBits keyBits)).map fun search =>
        match search with
        | .ok index => .ok index
        | .error _ => .error ⟨⟩ := by
  unfold findIndexFor
  cases RustSlice.binarySearchByOption v.inner _ <;> rfl

/-- `find_index_for` answers only with a path whose first `depth` bits are the key's. -/
theorem findIndexFor_eq_ok {i : Nat} (h : v.findIndexFor keyPath = some (.ok i)) :
    ∃ hi : i < v.inner.length, v.inner[i].terminal.path.take v.inner[i].depth =
      keyPath.bits.take v.inner[i].depth := by
  rw [findIndexFor_eq_search] at h
  obtain ⟨search, hsearch, hi⟩ := Option.map_eq_some_iff.mp h
  -- where the comparator does not panic it is `scopeOrder`
  have hagree : ∀ path ∈ v.inner, ∀ c ∈ (do
      let terminalBits ← RustSlice.rangeTo path.terminal.path path.depth
      let keyBits ← RustSlice.rangeTo keyPath.bits path.depth
      some (compareBits terminalBits keyBits) : Option Ordering), c = scopeOrder keyPath path := by
    intro path _ c hc
    simp only [Option.mem_def, Option.bind_eq_bind, Option.bind_eq_some_iff,
      RustSlice.rangeTo_eq_some_iff, Option.some.injEq] at hc
    obtain ⟨_, ⟨-, rfl⟩, _, ⟨-, rfl⟩, rfl⟩ := hc
    rfl
  rw [RustSlice.binarySearchByOption_of_agree hagree search hsearch] at hi
  cases hres : RustSlice.binarySearchBy v.inner (scopeOrder keyPath) with
  | ok j =>
    rw [hres] at hi
    cases hi
    obtain ⟨hj, heq⟩ := RustSlice.binarySearchBy_eq_ok hres
    exact ⟨hj, compareBits_eq_eq.mp heq⟩
  | error j =>
    rw [hres] at hi
    cases hi

/-- On a proof whose paths end within their terminals' paths, `find_index_for` is the search with
`scopeOrder`, and never panics. -/
theorem findIndexFor_eq_of_depth_le (hdepth : ∀ w ∈ v.inner, w.depth ≤ w.terminal.path.length) :
    v.findIndexFor keyPath = some (match RustSlice.binarySearchBy v.inner (scopeOrder keyPath) with
      | .ok index => .ok index
      | .error _ => .error ⟨⟩) := by
  have htotal : ∀ path ∈ v.inner, (do
      let terminalBits ← RustSlice.rangeTo path.terminal.path path.depth
      let keyBits ← RustSlice.rangeTo keyPath.bits path.depth
      some (compareBits terminalBits keyBits) : Option Ordering) = some (scopeOrder keyPath path) := by
    intro path hpath
    have hd := hdepth path hpath
    have hk : path.depth ≤ keyPath.bits.length := by
      rw [keyPath.length_bits]
      exact Nat.le_trans hd path.terminal.length_path_le
    simp only [RustSlice.rangeTo_of_le hd, RustSlice.rangeTo_of_le hk, Option.bind_eq_bind,
      Option.bind_some]
    rfl
  rw [findIndexFor_eq_search, RustSlice.binarySearchByOption_of_total htotal]
  rfl

theorem findIndexFor_isSome (hdepth : ∀ w ∈ v.inner, w.depth ≤ w.terminal.path.length)
    (keyPath : KeyPath) : (v.findIndexFor keyPath).isSome := by
  rw [findIndexFor_eq_of_depth_le hdepth]
  rfl

/-- `find_index_for` finds the path at `i` when the paths before it compare below the key, the
path at `i` has the key in scope, and the paths after it compare above the key. -/
theorem findIndexFor_eq_ok_of_scope (hdepth : ∀ w ∈ v.inner, w.depth ≤ w.terminal.path.length)
    {i : Nat} (hi : i < v.inner.length)
    (hlt : ∀ j (hj : j < v.inner.length), j < i → scopeOrder keyPath v.inner[j] = .lt)
    (heq : scopeOrder keyPath v.inner[i] = .eq)
    (hgt : ∀ j (hj : j < v.inner.length), i < j → scopeOrder keyPath v.inner[j] = .gt) :
    v.findIndexFor keyPath = some (.ok i) := by
  -- the comparator is `Less`, then `Equal` at `i` alone, then `Greater`
  have hrank : ∀ j (hj : j < v.inner.length), (scopeOrder keyPath v.inner[j]).ctorIdx =
      if j < i then 0 else if j = i then 1 else 2 := by
    intro j hj
    rcases Nat.lt_trichotomy j i with h | rfl | h
    · rw [hlt j hj h, if_pos h]
      rfl
    · rw [heq, if_neg (Nat.lt_irrefl _), if_pos rfl]
      rfl
    · rw [hgt j hj h, if_neg (by omega), if_neg (by omega)]
      rfl
  have hmono : RustSlice.Monotone v.inner (scopeOrder keyPath) := by
    intro j k hj hk hjk
    rw [hrank j hj, hrank k hk]
    split_ifs <;> omega
  have hspec := RustSlice.binarySearchBy_spec hmono
  rw [findIndexFor_eq_of_depth_le hdepth]
  cases hsearch : RustSlice.binarySearchBy v.inner (scopeOrder keyPath) with
  | ok j =>
    obtain ⟨hj, hjeq⟩ := hspec.1 j hsearch
    -- only the path at `i` compares `Equal`
    have hji : j = i := by
      rcases Nat.lt_trichotomy j i with h | h | h
      · rw [hlt j hj h] at hjeq
        cases hjeq
      · exact h
      · rw [hgt j hj h] at hjeq
        cases hjeq
    rw [hji]
  | error j =>
    obtain ⟨-, hbelow, habove⟩ := hspec.2 j hsearch
    rcases Nat.lt_or_ge i j with h | h
    · rw [hbelow i hi h] at heq
      cases heq
    · rw [habove i hi h] at heq
      cases heq

theorem confirmValue_eq_some_ok [DecidableEq V] {expectedLeaf : LeafData V} {b : Bool}
    (h : v.confirmValue expectedLeaf = some (.ok b)) :
    ∃ i, v.findIndexFor expectedLeaf.keyPath = some (.ok i) ∧ ∃ hi : i < v.inner.length,
      b = decide (v.inner[i].terminal.asLeafOption = some expectedLeaf) := by
  unfold confirmValue at h
  obtain ⟨r, hr, h⟩ := Option.bind_eq_some_iff.mp h
  cases r with
  | error e => cases h
  | ok i =>
    refine ⟨i, hr, ?_⟩
    obtain ⟨c, hc, hcb⟩ := Option.map_eq_some_iff.mp h
    obtain ⟨w, hw, rfl⟩ := Option.map_eq_some_iff.mp hc
    obtain ⟨hi, rfl⟩ := List.getElem?_eq_some_iff.mp hw
    cases hcb
    refine ⟨hi, ?_⟩
    cases v.inner[i].terminal <;> simp [PathProofTerminal.asLeafOption]

theorem confirmNonexistence_eq_some_ok {b : Bool}
    (h : v.confirmNonexistence keyPath = some (.ok b)) :
    ∃ i, v.findIndexFor keyPath = some (.ok i) ∧ ∃ hi : i < v.inner.length,
      b = (v.inner[i].terminal.asLeafOption.map fun d => decide (d.keyPath ≠ keyPath)).getD true := by
  unfold confirmNonexistence at h
  obtain ⟨r, hr, h⟩ := Option.bind_eq_some_iff.mp h
  cases r with
  | error e => cases h
  | ok i =>
    refine ⟨i, hr, ?_⟩
    obtain ⟨c, hc, hcb⟩ := Option.map_eq_some_iff.mp h
    obtain ⟨w, hw, rfl⟩ := Option.map_eq_some_iff.mp hc
    obtain ⟨hi, rfl⟩ := List.getElem?_eq_some_iff.mp hw
    cases hcb
    refine ⟨hi, ?_⟩
    cases v.inner[i].terminal <;> simp [PathProofTerminal.asLeafOption]

/-- Where `find_index_for` finds the path at `i`, `confirm_value` answers whether that path's
terminal is the expected leaf. -/
theorem confirmValue_of_findIndexFor [DecidableEq V] {expectedLeaf : LeafData V} {i : Nat}
    (h : v.findIndexFor expectedLeaf.keyPath = some (.ok i)) (hi : i < v.inner.length) :
    v.confirmValue expectedLeaf =
      some (.ok (decide (v.inner[i].terminal.asLeafOption = some expectedLeaf))) := by
  unfold confirmValue
  rw [h, Option.bind_eq_bind, Option.bind_some]
  simp only [confirmValueInner, List.getElem?_eq_getElem hi, Option.map_some]
  cases v.inner[i].terminal <;> simp [PathProofTerminal.asLeafOption]

/-- Where `find_index_for` finds the path at `i`, `confirm_nonexistence` answers whether that
path's terminal holds no leaf of the key. -/
theorem confirmNonexistence_of_findIndexFor {i : Nat} (h : v.findIndexFor keyPath = some (.ok i))
    (hi : i < v.inner.length) :
    v.confirmNonexistence keyPath = some (.ok
      ((v.inner[i].terminal.asLeafOption.map fun d => decide (d.keyPath ≠ keyPath)).getD true)) := by
  unfold confirmNonexistence
  rw [h, Option.bind_eq_bind, Option.bind_some]
  simp only [confirmNonexistenceInner, List.getElem?_eq_getElem hi, Option.map_some]
  cases v.inner[i].terminal <;> simp [PathProofTerminal.asLeafOption]

/-- On a proof whose paths end within their terminals' paths, `confirm_value` never panics. -/
theorem confirmValue_isSome [DecidableEq V] (hdepth : ∀ w ∈ v.inner, w.depth ≤ w.terminal.path.length)
    (expectedLeaf : LeafData V) : (v.confirmValue expectedLeaf).isSome := by
  obtain ⟨r, hr⟩ := Option.isSome_iff_exists.mp (findIndexFor_isSome hdepth expectedLeaf.keyPath)
  unfold confirmValue
  rw [hr, Option.bind_eq_bind, Option.bind_some]
  cases r with
  | error e => rfl
  | ok i =>
    obtain ⟨hi, -⟩ := findIndexFor_eq_ok hr
    simp [confirmValueInner, List.getElem?_eq_getElem hi]

/-- On a proof whose paths end within their terminals' paths, `confirm_nonexistence` never
panics. -/
theorem confirmNonexistence_isSome (hdepth : ∀ w ∈ v.inner, w.depth ≤ w.terminal.path.length) :
    (v.confirmNonexistence keyPath).isSome := by
  obtain ⟨r, hr⟩ := Option.isSome_iff_exists.mp (findIndexFor_isSome hdepth keyPath)
  unfold confirmNonexistence
  rw [hr, Option.bind_eq_bind, Option.bind_some]
  cases r with
  | error e => rfl
  | ok i =>
    obtain ⟨hi, -⟩ := findIndexFor_eq_ok hr
    simp [confirmNonexistenceInner, List.getElem?_eq_getElem hi]

end VerifiedMultiProof

end Nomt

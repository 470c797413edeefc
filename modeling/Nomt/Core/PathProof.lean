import Nomt.Core.TriePos
import Nomt.Lib.Frontier

/-!
# Path proofs (`core/src/proof/path_proof.rs`)

`PathProof::verify` with `hash_path`, the checks of a `VerifiedPathProof`, and `verify_update`,
which recomputes the root after updates below a sorted list of verified paths. Errors are `Except`
values over the source's error enums; a panic (an integer underflow, a failed `build_trie`) is
`none`.

The hash-up loop of `verify_update` is `Frontier.hashUp` at `hashOrCompact`, the loop body of the
source: a node and its sibling are hashed together unless one of them is `TERMINATOR`, in which
case a leaf or `TERMINATOR` moves up unchanged.
-/

namespace Nomt

variable {N V : Type}

/-- `PathProofTerminal`. -/
inductive PathProofTerminal (V : Type)
  | leaf (leafData : LeafData V)
  | terminator (pos : TriePos.TriePosition)

namespace PathProofTerminal

/-- `PathProofTerminal::path`. -/
def path : PathProofTerminal V → List Bool
  | .leaf leafData => leafData.keyPath.bits
  | .terminator pos => pos.path

/-- `PathProofTerminal::node`. -/
def node [Zero N] (H : NodeHasher N V) : PathProofTerminal V → N
  | .leaf leafData => H.hashLeaf leafData
  | .terminator _ => Nomt.terminator

/-- `PathProofTerminal::as_leaf_option`. -/
def asLeafOption : PathProofTerminal V → Option (LeafData V)
  | .leaf leafData => some leafData
  | .terminator _ => none

end PathProofTerminal

/-- `PathProof`: the terminal node and the siblings of its path, in ascending order by depth. -/
structure PathProof (N V : Type) where
  terminal : PathProofTerminal V
  siblings : List N

/-- `hash_path`: hash `node` up along the last `siblings.len()` bits of `path`, the siblings
ordered from the last bit up. -/
def hashPath (H : NodeHasher N V) (node : N) (path : List Bool) (siblings : List N) : N :=
  (path.reverse.zip siblings).foldl
    (fun node (bit, sibling) => H.hashInternal (if bit then ⟨sibling, node⟩ else ⟨node, sibling⟩))
    node

/-- `PathProofVerificationError`. -/
inductive PathProofVerificationError
  | tooManySiblings
  | rootMismatch
deriving DecidableEq, Repr

/-- `KeyOutOfScope`. -/
structure KeyOutOfScope where
deriving DecidableEq, Repr

/-- `VerifiedPathProof`. Only `PathProof::verify` builds one, so its path is never longer than a
key. -/
structure VerifiedPathProof (N V : Type) where
  keyPath : List Bool
  terminal : Option (LeafData V)
  siblings : List N
  root : N
  length_keyPath : keyPath.length ≤ 256

/-- `PathProof::verify`. -/
def PathProof.verify [Zero N] [DecidableEq N] (H : NodeHasher N V) (pp : PathProof N V)
    (keyPath : List Bool) (root : N) :
    Except PathProofVerificationError (VerifiedPathProof N V) :=
  if h : pp.siblings.length > min keyPath.length 256 then .error .tooManySiblings
  else
    let relevantPath := keyPath.take pp.siblings.length
    let curNode := pp.terminal.node H
    let newRoot := hashPath H curNode relevantPath pp.siblings.reverse
    if newRoot = root then
      .ok ⟨relevantPath, pp.terminal.asLeafOption, pp.siblings, root,
        by simp only [relevantPath, List.length_take]; omega⟩
    else .error .rootMismatch

/-- What `PathProof::verify` accepts, and the proof it returns: the path cut to the number of
siblings, the terminal's leaf and the siblings as given, when hashing them up reaches the root. -/
theorem PathProof.verify_eq_ok [Zero N] [DecidableEq N] {H : NodeHasher N V} {pp : PathProof N V}
    {keyPath : List Bool} {root : N} {vp : VerifiedPathProof N V} :
    pp.verify H keyPath root = .ok vp ↔
      pp.siblings.length ≤ min keyPath.length 256 ∧
        hashPath H (pp.terminal.node H) (keyPath.take pp.siblings.length) pp.siblings.reverse =
          root ∧
        vp.keyPath = keyPath.take pp.siblings.length ∧ vp.terminal = pp.terminal.asLeafOption ∧
        vp.siblings = pp.siblings ∧ vp.root = root := by
  unfold PathProof.verify
  by_cases hlen : pp.siblings.length > min keyPath.length 256
  · simp only [hlen, dite_true, reduceCtorEq, false_iff]
    omega
  · simp only [hlen, dite_false]
    split_ifs with hroot
    · constructor
      · rintro ⟨⟩
        exact ⟨by omega, hroot, rfl, rfl, rfl, rfl⟩
      · rintro ⟨-, -, h₁, h₂, h₃, h₄⟩
        cases vp
        simp only at h₁ h₂ h₃ h₄
        subst h₁ h₂ h₃ h₄
        rfl
    · simp only [false_iff]
      exact fun h => hroot h.2.1

theorem hashPath_append_singleton (H : NodeHasher N V) (node : N) (path : List Bool) (b : Bool)
    (sibling : N) (siblings : List N) :
    hashPath H node (path ++ [b]) (sibling :: siblings) =
      hashPath H (H.hashInternal (if b then ⟨sibling, node⟩ else ⟨node, sibling⟩)) path siblings := by
  simp [hashPath]

/-- `hash_path` hashes the top bit of the path last, with the last sibling. -/
theorem hashPath_cons (H : NodeHasher N V) (node : N) (b : Bool) (path : List Bool) (s : N)
    {siblings : List N} (hlen : siblings.length = path.length) :
    hashPath H node (b :: path) (siblings ++ [s]) =
      H.hashInternal (if b then ⟨s, hashPath H node path siblings⟩
        else ⟨hashPath H node path siblings, s⟩) := by
  have hzip : (path.reverse ++ [b]).zip (siblings ++ [s]) =
      path.reverse.zip siblings ++ [(b, s)] := by
    rw [List.zip_append (by rw [List.length_reverse, hlen])]
    rfl
  simp only [hashPath, List.reverse_cons, hzip, List.foldl_append, List.foldl_cons,
    List.foldl_nil]

namespace VerifiedPathProof

/-- `VerifiedPathProof::in_scope`: the key starts with the proven path. -/
def inScope (vp : VerifiedPathProof N V) (keyPath : KeyPath) : Except KeyOutOfScope Unit :=
  -- `key_path[..self.key_path.len()]` is in range: the proven path is at most 256 bits
  if vp.keyPath = keyPath.bits.take vp.keyPath.length then .ok () else .error ⟨⟩

/-- `VerifiedPathProof::confirm_value`. -/
def confirmValue [DecidableEq V] (vp : VerifiedPathProof N V) (expectedLeaf : LeafData V) :
    Except KeyOutOfScope Bool :=
  (vp.inScope expectedLeaf.keyPath).map fun _ => decide (vp.terminal = some expectedLeaf)

/-- `VerifiedPathProof::confirm_nonexistence`. -/
def confirmNonexistence (vp : VerifiedPathProof N V) (keyPath : KeyPath) :
    Except KeyOutOfScope Bool :=
  (vp.inScope keyPath).map fun _ =>
    (vp.terminal.map fun d => decide (d.keyPath ≠ keyPath)).getD true

end VerifiedPathProof

/-- `VerifyUpdateError`. -/
inductive VerifyUpdateError
  | pathsOutOfOrder
  | opsOutOfOrder
  | opOutOfScope
  | pathWithoutOps
  | rootMismatch
deriving DecidableEq, Repr

/-- `PathUpdate`: a verified path and the operations on keys below it. -/
structure PathUpdate (N V : Type) where
  inner : VerifiedPathProof N V
  ops : List (KeyPath × Option V)

/-- The body of the hash-up loops of `verify_update`: two `TERMINATOR`s stay one, a leaf next to a
`TERMINATOR` moves up unchanged, anything else is hashed into an internal node. -/
def hashOrCompact (H : NodeHasher N V) (bit : Bool) (cur sibling : N) : N :=
  match H.nodeKind cur, H.nodeKind sibling with
  | .terminator, .terminator => cur
  | .leaf, .terminator => cur
  | .terminator, .leaf => sibling
  | _, _ => H.hashInternal (if bit then ⟨sibling, cur⟩ else ⟨cur, sibling⟩)

section HashOrCompact

variable {H : NodeHasher N V} {bit : Bool} {cur sibling : N}

theorem hashOrCompact_terminator_terminator (hc : H.nodeKind cur = .terminator)
    (hs : H.nodeKind sibling = .terminator) : hashOrCompact H bit cur sibling = cur := by
  simp [hashOrCompact, hc, hs]

theorem hashOrCompact_leaf_terminator (hc : H.nodeKind cur = .leaf)
    (hs : H.nodeKind sibling = .terminator) : hashOrCompact H bit cur sibling = cur := by
  simp [hashOrCompact, hc, hs]

theorem hashOrCompact_terminator_leaf (hc : H.nodeKind cur = .terminator)
    (hs : H.nodeKind sibling = .leaf) : hashOrCompact H bit cur sibling = sibling := by
  simp [hashOrCompact, hc, hs]

/-- Two leaves, or an internal node on either side, are hashed together. -/
theorem hashOrCompact_eq_hashInternal
    (h : H.nodeKind cur = .internal ∨ H.nodeKind sibling = .internal ∨
      (H.nodeKind cur = .leaf ∧ H.nodeKind sibling = .leaf)) :
    hashOrCompact H bit cur sibling =
      H.hashInternal (if bit then ⟨sibling, cur⟩ else ⟨cur, sibling⟩) := by
  unfold hashOrCompact
  rcases h with h | h | ⟨hc, hs⟩
  · rw [h]
  · rw [h]
    cases H.nodeKind cur <;> rfl
  · rw [hc, hs]

end HashOrCompact

/-- The checks of the operations of one path in `verify_update`: ascending keys, all below the
path. The order is total, so `prev >= key` is `¬ prev < key`. -/
def verifyUpdateOpsChecks (path : List Bool) :
    Option KeyPath → List (KeyPath × Option V) → Except VerifyUpdateError Unit
  | _, [] => .ok ()
  | prev, (key, _) :: rest =>
    if prev.any (fun p => ¬ p < key) then .error .opsOutOfOrder
    else if ¬ path <+: key.bits then .error .opOutOfScope
    else verifyUpdateOpsChecks path (some key) rest

/-- The checks of `verify_update` before it computes anything, in the source's order; as for the
keys, `prev >= path` is `¬ prev < path`. -/
def verifyUpdateChecks [DecidableEq N] (prevRoot : N) :
    Option (PathUpdate N V) → List (PathUpdate N V) → Except VerifyUpdateError Unit
  | _, [] => .ok ()
  | prev, path :: rest =>
    if path.inner.root ≠ prevRoot then .error .rootMismatch
    else if prev.any (fun p => ¬ p.inner.keyPath < path.inner.keyPath) then
      .error .pathsOutOfOrder
    else if path.ops = [] then .error .pathWithoutOps
    else do
      verifyUpdateOpsChecks path.inner.keyPath none path.ops
      verifyUpdateChecks prevRoot (some path) rest

theorem verifyUpdateOpsChecks_ok {path : List Bool} :
    ∀ {prev : Option KeyPath} {ops : List (KeyPath × Option V)},
      ops.Pairwise (fun a b => a.1 < b.1) → (∀ p ∈ prev, ∀ op ∈ ops, p < op.1) →
      (∀ op ∈ ops, path <+: op.1.bits) → verifyUpdateOpsChecks path prev ops = .ok ()
  | _, [], _, _, _ => rfl
  | prev, (key, value) :: rest, hsorted, hprev, hscope => by
    obtain ⟨hkey, hrest⟩ := List.pairwise_cons.mp hsorted
    have hinorder : prev.any (fun p => ¬ p < key) = false := by
      cases prev with
      | none => rfl
      | some p => simpa using hprev p rfl (key, value) (List.mem_cons_self ..)
    have hin : path <+: key.bits := hscope (key, value) (List.mem_cons_self ..)
    simp only [verifyUpdateOpsChecks, hinorder, hin, Bool.false_eq_true, if_false, not_true_eq_false]
    exact verifyUpdateOpsChecks_ok hrest (fun p hp op hop => by
      cases hp
      exact hkey op hop) (fun op hop => hscope op (List.mem_cons_of_mem _ hop))

/-- The checks of `verify_update` pass on paths in ascending order, all verified against one root,
each with operations in ascending key order below it. -/
theorem verifyUpdateChecks_ok [DecidableEq N] {prevRoot : N} :
    ∀ {prev : Option (PathUpdate N V)} {paths : List (PathUpdate N V)},
      paths.Pairwise (fun u w => u.inner.keyPath < w.inner.keyPath) →
      (∀ p ∈ prev, ∀ u ∈ paths, p.inner.keyPath < u.inner.keyPath) →
      (∀ u ∈ paths, u.inner.root = prevRoot ∧ u.ops ≠ [] ∧
        u.ops.Pairwise (fun a b => a.1 < b.1) ∧ ∀ op ∈ u.ops, u.inner.keyPath <+: op.1.bits) →
      verifyUpdateChecks prevRoot prev paths = .ok ()
  | _, [], _, _, _ => rfl
  | prev, path :: rest, hsorted, hprev, hpaths => by
    obtain ⟨hpath, hrest⟩ := List.pairwise_cons.mp hsorted
    obtain ⟨hroot, hne, hops, hscope⟩ := hpaths path (List.mem_cons_self ..)
    have hinorder : prev.any (fun p => ¬ p.inner.keyPath < path.inner.keyPath) = false := by
      cases prev with
      | none => rfl
      | some p => simpa using hprev p rfl path (List.mem_cons_self ..)
    have hopsOk : verifyUpdateOpsChecks path.inner.keyPath none path.ops = .ok () :=
      verifyUpdateOpsChecks_ok hops (fun p hp => by cases hp) hscope
    have hrestOk : verifyUpdateChecks prevRoot (some path) rest = .ok () :=
      verifyUpdateChecks_ok hrest (fun p hp u hu => by
        cases hp
        exact hpath u hu) (fun u hu => hpaths u (List.mem_cons_of_mem _ hu))
    simp only [verifyUpdateChecks, hroot, ne_eq, not_true_eq_false, if_false, hinorder,
      Bool.false_eq_true, hne, hopsOk, hrestOk]
    rfl

section Loop

variable [Zero N] (H : NodeHasher N V)

/-- The main loop of `verify_update` over the paths from `path` on: the sub-trie of each path is
rebuilt with its operations and hashed up to one below where the path parts from the next one,
taking the pending siblings of the left frontier where there are some. -/
def verifyUpdateLoop : List (PathUpdate N V) → List (N × Nat) → Option (List (N × Nat))
  | [], pending => some pending
  | path :: rest, pending => do
    let skip := path.inner.keyPath.length
    let upLayers ← match rest.head? with
      | none => some skip
      | some p =>
        let n := sharedBits p.inner.keyPath path.inner.keyPath
        -- `skip - (n + 1)` panics on underflow
        if n + 1 ≤ skip then some (skip - (n + 1)) else none
    let ops := leafOpsSpliced path.inner.terminal path.ops
    let (subRoot, _) ← buildTrie H skip ops
    let endLayer := skip - upLayers
    let (curNode, pending) := Frontier.hashUp (hashOrCompact H)
      ((path.inner.keyPath.reverse.take upLayers).zip path.inner.siblings.reverse) skip subRoot
      pending
    verifyUpdateLoop rest ((curNode, endLayer) :: pending)

/-- `verify_update`. -/
def verifyUpdate [DecidableEq N] (prevRoot : N) (paths : List (PathUpdate N V)) :
    Option (Except VerifyUpdateError N) :=
  if paths = [] then some (.ok prevRoot)
  else
    match verifyUpdateChecks prevRoot none paths with
    | .error e => some (.error e)
    | .ok () => do
      let pending ← verifyUpdateLoop H paths []
      match pending with
      | (node, _) :: _ => some (.ok node)
      | [] => none

end Loop

end Nomt

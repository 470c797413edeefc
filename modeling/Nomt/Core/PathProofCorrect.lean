import Nomt.Core.BuildTrieCorrect
import Nomt.Core.PathProof
import Nomt.Core.UpdateSpec
import Mathlib.Data.List.Induction

/-!
# Path proofs of the canonical trie and `verify_update`

What an honest prover sends for a terminal position `p` of the trie of a map
(`TrieMap.pathProofAt`): the leaf or `TERMINATOR` found there and the canonical nodes of the
sibling positions along `p`. Such a proof verifies against the map's root (`verify_pathProofAt`).

`verify_update` is the left-frontier pass of `Frontier` at the step `hashOrCompact`
(`verifyUpdateLoop_eq_loop`). Over the canonical nodes of any map, `hashOrCompact` recomputes the
node of each position from those of its two children (`hashes_hashOrCompact`): a leaf moving up
past `TERMINATOR` siblings is the canonical trie's rule that a lone entry stands at the highest
position where it is alone. So on honest paths of sorted terminal positions, with sorted operations
below each, the pass over the rebuilt sub-tries returns the root of the map after the operations.
-/

namespace Nomt

open BitString

variable {N V : Type} [Zero N]

/-- The `TriePosition` of a path: the key starting with it, at its depth, with the index in its
page that `from_path_and_depth` computes (`0` at the root). -/
def TriePos.TriePosition.ofPath (p : List Bool) : TriePos.TriePosition :=
  ⟨KeyPath.ofPrefix p, min p.length 256,
    ((TriePos.lastPagePath (KeyPath.ofPrefix p) (min p.length 256)).map TriePos.nodeIndex).getD 0,
    Nat.min_le_right _ _⟩

theorem TriePos.TriePosition.path_ofPath {p : List Bool} (h : p.length ≤ 256) :
    (TriePos.TriePosition.ofPath p).path = p := by
  show ((p ++ List.replicate 256 false).take 256).take (min p.length 256) = p
  rw [Nat.min_eq_left h, List.take_take, Nat.min_eq_left h,
    List.take_append_of_le_length (Nat.le_refl _), List.take_length]

namespace TrieMap

/-! ## Honest path proofs -/

/-- The terminal an honest prover reports at `p`. -/
def terminalAt (M : TrieMap V) (p : List Bool) : PathProofTerminal V :=
  match M.leafAt p with
  | some leafData => .leaf leafData
  | none => .terminator (TriePos.TriePosition.ofPath p)

/-- The siblings an honest prover reports along `p`, top first: at index `j` the canonical node at
the sibling position of depth `j + 1`. -/
def siblingsAt (H : NodeHasher N V) (M : TrieMap V) (p : List Bool) : List N :=
  (List.range p.length).map fun j => subtrieRoot H (M.below (Frontier.siblingPos p j)) (j + 1)

/-- The path proof an honest prover sends for the terminal position `p`. -/
def pathProofAt (H : NodeHasher N V) (M : TrieMap V) (p : List Bool) : PathProof N V :=
  ⟨M.terminalAt p, M.siblingsAt H p⟩

section Honest

variable (H : NodeHasher N V) (M : TrieMap V) {p : List Bool}

@[simp] theorem asLeafOption_terminalAt (p : List Bool) :
    (M.terminalAt p).asLeafOption = M.leafAt p := by
  unfold terminalAt
  cases M.leafAt p <;> rfl

@[simp] theorem length_siblingsAt (p : List Bool) : (M.siblingsAt H p).length = p.length := by
  simp [siblingsAt]

theorem getElem?_siblingsAt {j : Nat} (hj : j < p.length) :
    (M.siblingsAt H p)[j]? = some (subtrieRoot H (M.below (Frontier.siblingPos p j)) (j + 1)) := by
  simp [siblingsAt, hj]

theorem siblingsAt_append_singleton (p : List Bool) (b : Bool) :
    M.siblingsAt H (p ++ [b]) =
      M.siblingsAt H p ++ [subtrieRoot H (M.below (p ++ [!b])) (p.length + 1)] := by
  simp only [siblingsAt, List.length_append, List.length_singleton, List.range_succ,
    List.map_append, List.map_singleton, Frontier.siblingPos_append_length]
  congr 1
  refine List.map_congr_left fun j hj => ?_
  -- above the last bit, the sibling positions of `p ++ [b]` are those of `p`
  have hjp : j < p.length := List.mem_range.mp hj
  rw [← Frontier.siblingPos_take (p := p ++ [b]) hjp, List.take_left']
  simp

/-- The canonical node at a position with at most one entry below: the leaf, or `TERMINATOR`. -/
theorem node_terminalAt (h1 : (M.below p).length ≤ 1) :
    (M.terminalAt p).node H = subtrieRoot H (M.below p) p.length := by
  unfold terminalAt leafAt
  match hb : M.below p, h1 with
  | [], _ => simp [PathProofTerminal.node, subtrieRoot, schema]
  | [e], _ => simp [PathProofTerminal.node, subtrieRoot_singleton]

/-- A node at a position with two or more entries below is the hash of its two children. -/
theorem subtrieRoot_below_split {q : List Bool} (h2 : 2 ≤ (M.below q).length) :
    subtrieRoot H (M.below q) q.length = H.hashInternal
      ⟨subtrieRoot H (M.below (q ++ [false])) (q.length + 1),
        subtrieRoot H (M.below (q ++ [true])) (q.length + 1)⟩ := by
  have hq := length_lt_of_two_le h2
  rw [subtrieRoot_split H hq h2, side_below H M hq, side_below H M hq]

theorem siblingsAt_take (p : List Bool) (m : Nat) :
    M.siblingsAt H (p.take m) = (M.siblingsAt H p).take m := by
  simp only [siblingsAt, List.length_take, ← List.map_take, List.take_range]
  refine List.map_congr_left fun j hj => ?_
  rw [Frontier.siblingPos_take (by simp at hj; omega)]

/-- One step up: the canonical node at `q ++ [b]` and its sibling hash to the node at `q`. -/
theorem hashInternal_child_sibling {q : List Bool} (h2 : 2 ≤ (M.below q).length) (b : Bool) :
    H.hashInternal (if b then ⟨subtrieRoot H (M.below (q ++ [!b])) (q.length + 1),
        subtrieRoot H (M.below (q ++ [b])) (q.length + 1)⟩
        else ⟨subtrieRoot H (M.below (q ++ [b])) (q.length + 1),
          subtrieRoot H (M.below (q ++ [!b])) (q.length + 1)⟩) =
      subtrieRoot H (M.below q) q.length := by
  rw [subtrieRoot_below_split H M h2]
  cases b <;> rfl

/-- Hashing the canonical node of `p` up to depth `d` with the honest siblings below depth `d`
gives the canonical node at the first `d` bits of `p`, when every position in between is
internal. -/
theorem hashPath_siblingsAt_drop :
    ∀ p : List Bool, ∀ d ≤ p.length,
      (∀ q, q <+: p → q ≠ p → d ≤ q.length → 2 ≤ (M.below q).length) →
      hashPath H (subtrieRoot H (M.below p) p.length) (p.drop d)
          ((M.siblingsAt H p).drop d).reverse =
        subtrieRoot H (M.below (p.take d)) d := by
  intro p
  induction p using List.reverseRecOn with
  | nil =>
    intro d hd _
    obtain rfl : d = 0 := by simpa using hd
    simp [hashPath, siblingsAt]
  | append_singleton p b ih =>
    intro d hd hint
    rcases Nat.lt_or_ge p.length d with hlt | hle
    · -- the depth is the whole path: nothing is hashed
      obtain rfl : d = p.length + 1 := by simp at hd; omega
      rw [List.take_of_length_le (by simp)]
      simp [hashPath]
    · have h2 : 2 ≤ (M.below p).length := hint p (List.prefix_append _ _) (by simp) hle
      rw [siblingsAt_append_singleton,
        List.drop_append_of_le_length (by simpa using hle : d ≤ (M.siblingsAt H p).length),
        List.drop_append_of_le_length hle, List.reverse_append, List.reverse_singleton,
        List.singleton_append, List.length_append, List.length_singleton,
        hashPath_append_singleton, hashInternal_child_sibling H M h2,
        List.take_append_of_le_length hle]
      exact ih d hle fun q hq hne hdq => hint q (hq.trans (List.prefix_append _ _))
        (by
          rintro rfl
          have := hq.length_le
          simp only [List.length_append, List.length_singleton] at this
          omega) hdq

/-- Hashing the canonical node of `p` up with the honest siblings gives the root, when every
position above `p` is internal. -/
theorem hashPath_siblingsAt (p : List Bool)
    (hint : ∀ q, q <+: p → q ≠ p → 2 ≤ (M.below q).length) :
    hashPath H (subtrieRoot H (M.below p) p.length) p (M.siblingsAt H p).reverse = M.root H := by
  simpa [root] using hashPath_siblingsAt_drop H M p 0 (Nat.zero_le _) fun q hq hne _ =>
    hint q hq hne

/-- The terminal reported at a terminal position lies below it. -/
theorem IsTerminal.isPrefix_path_terminalAt (hp : M.IsTerminal p) :
    p <+: (M.terminalAt p).path := by
  cases hleaf : M.leafAt p with
  | none =>
    simp only [terminalAt, hleaf, PathProofTerminal.path, TriePos.TriePosition.path_ofPath hp.length_le]
    exact List.prefix_refl p
  | some leafData =>
    have hmem := (leafAt_eq_some_iff hp.1 (e := (leafData.keyPath, leafData.valueHash))).mp hleaf
    simp only [terminalAt, hleaf, PathProofTerminal.path]
    exact (mem_below.mp hmem).2

/-- Every position above a terminal position is internal. -/
theorem IsTerminal.two_le_of_isPrefix (hp : M.IsTerminal p) {q : List Bool} (hq : q <+: p)
    (hne : q ≠ p) : 2 ≤ (M.below q).length := by
  rcases CompactTrie.eq_or_prefix_dropLast hq with h | h
  · exact absurd h.symm hne
  · rcases hp.2 with rfl | h2
    · exact absurd (List.prefix_nil.mp hq) hne
    · exact Nat.le_trans h2 (below_sublist h).length_le

end Honest

end TrieMap

section Completeness

variable [DecidableEq N] (H : NodeHasher N V) (M : TrieMap V) {p : List Bool}

/-- The honest proof of a terminal position verifies against the map's root, with any key that
starts with the position, and proves that position with its leaf. -/
theorem verify_pathProofAt (hp : M.IsTerminal p) {keyPath : List Bool} (hk : p <+: keyPath) :
    (M.pathProofAt H p).verify H keyPath (M.root H) =
      .ok ⟨p, M.leafAt p, M.siblingsAt H p, M.root H, hp.length_le⟩ := by
  have htake : keyPath.take p.length = p := (List.prefix_iff_eq_take.mp hk).symm
  refine PathProof.verify_eq_ok.mpr ⟨?_, ?_, ?_, ?_, rfl, rfl⟩
  · have := hk.length_le
    have := hp.length_le
    simp only [TrieMap.pathProofAt, TrieMap.length_siblingsAt]
    omega
  · simp only [TrieMap.pathProofAt, TrieMap.length_siblingsAt, htake,
      TrieMap.node_terminalAt H M hp.1]
    exact TrieMap.hashPath_siblingsAt H M p fun q hq hne => hp.two_le_of_isPrefix M hq hne
  · simp [TrieMap.pathProofAt, htake]
  · simp [TrieMap.pathProofAt]

end Completeness

/-! ## The canonical trie under `hashOrCompact` -/

section Compaction

variable {H : NodeHasher N V} (hH : H.Lawful) (M : TrieMap V)
include hH

theorem nodeKind_subtrieRoot_nil {q : List Bool} (h : M.below q = []) :
    H.nodeKind (subtrieRoot H (M.below q) q.length) = .terminator := by
  rw [h]
  simpa [subtrieRoot, schema] using hH.nodeKind_terminator

theorem nodeKind_subtrieRoot_singleton {q : List Bool} {e : KeyPath × V} (h : M.below q = [e]) :
    H.nodeKind (subtrieRoot H (M.below q) q.length) = .leaf := by
  rw [h, subtrieRoot_singleton]
  exact hH.nodeKind_hashLeaf _

theorem nodeKind_subtrieRoot_of_two_le {q : List Bool} (h2 : 2 ≤ (M.below q).length) :
    H.nodeKind (subtrieRoot H (M.below q) q.length) = .internal := by
  rw [TrieMap.subtrieRoot_below_split H M h2]
  exact hH.nodeKind_hashInternal _

/-- The canonical nodes of a map are recomputed by `hashOrCompact` from their two children. -/
theorem hashes_hashOrCompact :
    Frontier.Hashes (hashOrCompact H) 256 fun q => subtrieRoot H (M.below q) q.length := by
  intro q b hq
  show subtrieRoot H (M.below q) q.length = hashOrCompact H b
    (subtrieRoot H (M.below (q ++ [b])) (q ++ [b]).length)
    (subtrieRoot H (M.below (q ++ [!b])) (q ++ [!b]).length)
  have hlen := CompactTrie.length_side_add (schema H) q.length b (M.below q)
  rw [TrieMap.side_below H M hq, TrieMap.side_below H M hq] at hlen
  match hB : M.below q with
  | [] =>
    -- no entry: `TERMINATOR` from two `TERMINATOR`s
    rw [hB] at hlen
    have hL : M.below (q ++ [b]) = [] := List.eq_nil_of_length_eq_zero (by simp at hlen; omega)
    have hR : M.below (q ++ [!b]) = [] := List.eq_nil_of_length_eq_zero (by simp at hlen; omega)
    rw [hashOrCompact_terminator_terminator (nodeKind_subtrieRoot_nil hH M hL)
      (nodeKind_subtrieRoot_nil hH M hR), hL]
    simp [subtrieRoot]
  | [e] =>
    -- one entry: its leaf moves up from the child it lies below
    rw [hB] at hlen
    have hleaf : subtrieRoot H [e] q.length = H.hashLeaf ⟨e.1, e.2⟩ := subtrieRoot_singleton H e _
    rw [hleaf]
    simp only [List.length_singleton] at hlen
    rcases Nat.eq_zero_or_pos (M.below (q ++ [b])).length with hL | hL
    · have hR : (M.below (q ++ [!b])).length = 1 := by omega
      obtain ⟨e', he'⟩ := List.length_eq_one_iff.mp hR
      have hL' := List.eq_nil_of_length_eq_zero hL
      have hsame : e' = e := by
        have hmem : e' ∈ M.below q := (TrieMap.below_sublist (List.prefix_append q [!b])).subset
          (by rw [he']; exact List.mem_singleton_self _)
        rw [hB] at hmem
        exact List.mem_singleton.mp hmem
      rw [hashOrCompact_terminator_leaf (nodeKind_subtrieRoot_nil hH M hL')
        (nodeKind_subtrieRoot_singleton hH M he'), he', hsame, subtrieRoot_singleton]
    · obtain ⟨e', he'⟩ := List.length_eq_one_iff.mp (show (M.below (q ++ [b])).length = 1 by omega)
      have hR : M.below (q ++ [!b]) = [] := List.eq_nil_of_length_eq_zero (by omega)
      have hsame : e' = e := by
        have hmem : e' ∈ M.below q := (TrieMap.below_sublist (List.prefix_append q [b])).subset
          (by rw [he']; exact List.mem_singleton_self _)
        rw [hB] at hmem
        exact List.mem_singleton.mp hmem
      rw [hashOrCompact_leaf_terminator (nodeKind_subtrieRoot_singleton hH M he')
        (nodeKind_subtrieRoot_nil hH M hR), he', hsame, subtrieRoot_singleton]
  | e₁ :: e₂ :: t =>
    -- two or more entries: an internal node over the two children
    have h2 : 2 ≤ (M.below q).length := by rw [hB]; simp
    rw [← hB, TrieMap.subtrieRoot_below_split H M h2, hashOrCompact_eq_hashInternal]
    · cases b <;> simp
    · rw [hB] at hlen
      simp only [List.length_cons] at hlen
      rcases Nat.lt_or_ge 1 (M.below (q ++ [b])).length with hL | hL
      · exact Or.inl (nodeKind_subtrieRoot_of_two_le hH M hL)
      · rcases Nat.lt_or_ge 1 (M.below (q ++ [!b])).length with hR | hR
        · exact Or.inr (Or.inl (nodeKind_subtrieRoot_of_two_le hH M hR))
        · -- one entry on each side
          obtain ⟨a, ha⟩ := List.length_eq_one_iff.mp
            (show (M.below (q ++ [b])).length = 1 by omega)
          obtain ⟨c, hc⟩ := List.length_eq_one_iff.mp
            (show (M.below (q ++ [!b])).length = 1 by omega)
          exact Or.inr (Or.inr ⟨nodeKind_subtrieRoot_singleton hH M ha,
            nodeKind_subtrieRoot_singleton hH M hc⟩)

end Compaction

/-! ## `verify_update` is the left-frontier pass -/

section Pass

variable (H : NodeHasher N V)

/-- The items of the pass: each path's position, the root `node` of its rebuilt sub-trie, and its
siblings. -/
def PathUpdate.item (node : PathUpdate N V → N) (u : PathUpdate N V) : Frontier.Item N :=
  ⟨u.inner.keyPath, node u, u.inner.siblings⟩

/-- The main loop of `verify_update` is the left-frontier pass over its paths, with each sub-trie
rebuilt by `build_trie`, when no path is a prefix of the next. -/
theorem verifyUpdateLoop_eq_loop (node : PathUpdate N V → N) :
    ∀ {paths : List (PathUpdate N V)} (pending : List (N × Nat)),
      (∀ u ∈ paths, ∃ ws, buildTrie H u.inner.keyPath.length
        (leafOpsSpliced u.inner.terminal u.ops) = some (node u, ws)) →
      paths.Pairwise (fun u w => Before u.inner.keyPath w.inner.keyPath) →
      verifyUpdateLoop H paths pending =
        some (Frontier.loop (hashOrCompact H) (paths.map (PathUpdate.item node)) pending)
  | [], _, _, _ => rfl
  | u :: rest, pending, hbuild, hsorted => by
    obtain ⟨hu, hrest⟩ := List.pairwise_cons.mp hsorted
    obtain ⟨ws, hws⟩ := hbuild u (List.mem_cons_self ..)
    have ih := fun pending' => verifyUpdateLoop_eq_loop node pending'
      (fun w hw => hbuild w (List.mem_cons_of_mem _ hw)) hrest
    cases rest with
    | nil =>
      simp [verifyUpdateLoop, hws, Frontier.loop, Frontier.endLayer, PathUpdate.item]
    | cons w rest =>
      -- `u` parts from the next path below its own end: `skip - (n + 1)` does not underflow
      have hlt : commonPrefixLen w.inner.keyPath u.inner.keyPath < u.inner.keyPath.length := by
        rw [commonPrefixLen_comm]
        exact (hu w (List.mem_cons_self ..)).lt_length_left
      -- the end layer of `u` is one below where it parts from `w`
      have hend : Frontier.endLayer (PathUpdate.item node u)
          ((w :: rest).map (PathUpdate.item node)).head? =
          commonPrefixLen w.inner.keyPath u.inner.keyPath + 1 := rfl
      rw [verifyUpdateLoop.eq_2]
      simp only [List.head?_cons, sharedBits_eq_commonPrefixLen]
      rw [if_pos (by omega)]
      simp only [Option.bind_eq_bind, Option.bind_some, hws]
      rw [ih]
      conv_rhs => rw [List.map_cons, Frontier.loop, hend]
      rw [show u.inner.keyPath.length -
        (u.inner.keyPath.length - (commonPrefixLen w.inner.keyPath u.inner.keyPath + 1)) =
        commonPrefixLen w.inner.keyPath u.inner.keyPath + 1 by omega]
      rfl

end Pass

/-! ## `verify_update` on honest paths -/

/-- Two members of a list sorted by `R` are equal or related one way. -/
theorem eq_or_rel_of_pairwise {α : Type} {R : α → α → Prop} {l : List α} (h : l.Pairwise R)
    {x y : α} (hx : x ∈ l) (hy : y ∈ l) : x = y ∨ R x y ∨ R y x := by
  have hR : l.Pairwise (fun a b => a = b ∨ R a b ∨ R b a) :=
    h.imp fun hab => Or.inr (Or.inl hab)
  have hF : l.Pairwise (flip fun a b => a = b ∨ R a b ∨ R b a) :=
    h.imp fun hab => Or.inr (Or.inr hab)
  have hrefl : ∀ a ∈ l, a = a ∨ R a a ∨ R a a := fun a _ => Or.inl rfl
  exact List.Pairwise.forall_of_forall_of_flip hrefl hR hF hx hy

/-- A terminal position above a sibling position of another terminal position is that sibling
position. -/
theorem TrieMap.IsTerminal.siblingPos_isPrefix {M : TrieMap V} {p q : List Bool}
    (hp : M.IsTerminal p) (hq : M.IsTerminal q) {j : Nat} (hj : j < p.length)
    (hqs : q <+: Frontier.siblingPos p j) : Frontier.siblingPos p j <+: q := by
  have hlen : (Frontier.siblingPos p j).length = j + 1 := by
    simp [Frontier.siblingPos]
    omega
  rcases Nat.lt_or_ge q.length (j + 1) with hlt | hge
  · -- above depth `j + 1` the sibling position follows `p`, so `q` would be above `p`
    have htake : (Frontier.siblingPos p j).take j = p.take j := by
      simp only [Frontier.siblingPos]
      exact List.take_left' (by simp; omega)
    have hqp : q <+: p := by
      have := List.prefix_of_prefix_length_le hqs (List.take_prefix j _) (by simp; omega)
      rw [htake] at this
      exact this.trans (List.take_prefix j p)
    rw [hq.eq_of_isPrefix hp hqp] at hlt
    omega
  · obtain rfl := hqs.eq_of_length (by have := hqs.length_le; omega)
    exact List.prefix_refl _

section VerifyUpdate

variable {H : NodeHasher N V} (M : TrieMap V) {paths : List (PathUpdate N V)}

omit [Zero N] in
/-- Sorted terminal positions part left to right. -/
theorem pairwise_before_of_terminal
    (hsorted : paths.Pairwise (fun u w => u.inner.keyPath < w.inner.keyPath))
    (hterminal : ∀ u ∈ paths, M.IsTerminal u.inner.keyPath) :
    paths.Pairwise (fun u w => Before u.inner.keyPath w.inner.keyPath) :=
  List.Pairwise.imp_of_mem (fun hu hw h => (hterminal _ hu).before_of_lt (hterminal _ hw) h) hsorted

section Ops

variable (hbefore : paths.Pairwise (fun u w => Before u.inner.keyPath w.inner.keyPath))
  (hscope : ∀ u ∈ paths, ∀ op ∈ u.ops, u.inner.keyPath <+: op.1.bits)
  (hopsSorted : ∀ u ∈ paths, u.ops.Pairwise (fun a b => a.1 < b.1))
include hbefore hscope hopsSorted

omit [Zero N] in
/-- Operations below different positions are on different keys. -/
theorem flatMap_ops_distinct :
    (paths.flatMap PathUpdate.ops).Pairwise (fun a b => a.1 ≠ b.1) := by
  refine List.pairwise_flatMap.mpr ⟨fun u hu => (hopsSorted u hu).imp KeyPath.ne_of_lt, ?_⟩
  refine List.Pairwise.imp_of_mem (fun {u w} hu hw h op hop op' hop' hkey => ?_) hbefore
  have hw' : w.inner.keyPath <+: op.1.bits := by
    rw [hkey]
    exact hscope w hw op' hop'
  exact h.not_isPrefix_of_isPrefix (hscope u hu op hop) hw'

omit [Zero N] in
/-- Below a path, the map after all operations is the map after that path's operations. -/
theorem below_applyOps_flatMap {u : PathUpdate N V} (hu : u ∈ paths) :
    (M.applyOps (paths.flatMap PathUpdate.ops)).below u.inner.keyPath =
      (M.applyOps u.ops).below u.inner.keyPath := by
  refine TrieMap.below_applyOps_congr (flatMap_ops_distinct hbefore hscope hopsSorted)
    ((hopsSorted u hu).imp KeyPath.ne_of_lt) fun op hp =>
      ⟨fun hop => ?_, fun hop => List.mem_flatMap.mpr ⟨u, hu, hop⟩⟩
  obtain ⟨w, hw, hop⟩ := List.mem_flatMap.mp hop
  -- an operation of another path lies below a position parting from `u`'s
  rcases eq_or_rel_of_pairwise hbefore hu hw with rfl | h | h
  · exact hop
  · exact absurd (hscope w hw op hop) (h.not_isPrefix_of_isPrefix hp)
  · exact absurd hp (h.not_isPrefix_of_isPrefix (hscope w hw op hop))

omit [Zero N] in
/-- The sub-trie at a sibling position that no path lies below is untouched by the
operations. -/
theorem below_siblingPos_applyOps (hterminal : ∀ u ∈ paths, M.IsTerminal u.inner.keyPath)
    {u : PathUpdate N V} (hu : u ∈ paths) {j : Nat} (hj : j < u.inner.keyPath.length)
    (hfree : ∀ w ∈ paths, ¬ Frontier.siblingPos u.inner.keyPath j <+: w.inner.keyPath) :
    (M.applyOps (paths.flatMap PathUpdate.ops)).below (Frontier.siblingPos u.inner.keyPath j) =
      M.below (Frontier.siblingPos u.inner.keyPath j) := by
  have h := TrieMap.below_applyOps_congr (M := M) (flatMap_ops_distinct hbefore hscope hopsSorted)
    List.Pairwise.nil (p := Frontier.siblingPos u.inner.keyPath j) fun op hs => by
      simp only [List.not_mem_nil, iff_false]
      intro hop
      obtain ⟨w, hw, hop⟩ := List.mem_flatMap.mp hop
      have hwp := hscope w hw op hop
      -- the sibling position and `w`'s position lie on one key: one is above the other
      rcases Nat.le_total (Frontier.siblingPos u.inner.keyPath j).length w.inner.keyPath.length
        with hle | hle
      · exact hfree w hw (List.prefix_of_prefix_length_le hs hwp hle)
      · exact hfree w hw ((hterminal u hu).siblingPos_isPrefix (hterminal w hw) hj
          (List.prefix_of_prefix_length_le hwp hs hle))
  rwa [TrieMap.applyOps_nil] at h

end Ops

/-- A proof that `PathProof::verify` makes of the honest proof at `p` carries the honest leaf and
siblings and the map's root. -/
theorem fields_of_verify_pathProofAt [DecidableEq N] {p keyPath : List Bool}
    {vp : VerifiedPathProof N V} (h : (M.pathProofAt H p).verify H keyPath (M.root H) = .ok vp) :
    vp.terminal = M.leafAt p ∧ vp.siblings = M.siblingsAt H p ∧ vp.root = M.root H := by
  obtain ⟨-, -, -, hterm, hsib, hroot⟩ := PathProof.verify_eq_ok.mp h
  exact ⟨by simpa [TrieMap.pathProofAt] using hterm, hsib, hroot⟩

/-- `verify_update` on the proofs that `PathProof::verify` makes of the honest proofs of ascending
terminal positions of a map, each with ascending operations below it, returns the root of the map
after all the operations; in particular it does not panic. -/
theorem verifyUpdate_honest [DecidableEq N] (hH : H.Lawful) (paths : List (PathUpdate N V))
    (hsorted : paths.Pairwise (fun u w => u.inner.keyPath < w.inner.keyPath))
    (hterminal : ∀ u ∈ paths, M.IsTerminal u.inner.keyPath)
    (hproof : ∀ u ∈ paths, ∃ keyPath : KeyPath, u.inner.keyPath <+: keyPath.bits ∧
      (M.pathProofAt H u.inner.keyPath).verify H keyPath.bits (M.root H) = .ok u.inner)
    (hops : ∀ u ∈ paths, u.ops ≠ [] ∧ u.ops.Pairwise (fun a b => a.1 < b.1) ∧
      ∀ op ∈ u.ops, u.inner.keyPath <+: op.1.bits) :
    verifyUpdate H (M.root H) paths =
      some (.ok ((M.applyOps (paths.flatMap PathUpdate.ops)).root H)) := by
  by_cases hne : paths = []
  · subst hne
    simp [verifyUpdate]
  have hfields : ∀ u ∈ paths, u.inner.terminal = M.leafAt u.inner.keyPath ∧
      u.inner.siblings = M.siblingsAt H u.inner.keyPath ∧ u.inner.root = M.root H :=
    fun u hu => by
      obtain ⟨k, -, hk⟩ := hproof u hu
      exact fields_of_verify_pathProofAt M hk
  have hscope := fun u hu => (hops u hu).2.2
  have hopsSorted := fun u hu => (hops u hu).2.1
  have hbefore := pairwise_before_of_terminal M hsorted hterminal
  -- the pass runs over the canonical nodes of the map after the operations
  let val : List Bool → N := fun q =>
    subtrieRoot H ((M.applyOps (paths.flatMap PathUpdate.ops)).below q) q.length
  let items := paths.map (PathUpdate.item fun u => val u.inner.keyPath)
  have hloop : verifyUpdateLoop H paths [] =
      some (Frontier.loop (hashOrCompact H) items []) := by
    refine verifyUpdateLoop_eq_loop H _ [] (fun u hu => ?_) hbefore
    -- `build_trie` rebuilds the sub-trie of the updated map at the path
    rw [(hfields u hu).1, leafOpsSpliced_eq_below (hterminal u hu).1 (hopsSorted u hu) (hscope u hu),
      ← below_applyOps_flatMap M hbefore hscope hopsSorted hu]
    obtain ⟨ws, hws, -⟩ := buildTrie_run H (hterminal u hu).length_le (TrieMap.below_sorted _ _)
      rfl fun x hx => (List.prefix_iff_eq_take.mp (TrieMap.mem_below.mp hx).2).symm
    exact ⟨ws, hws⟩
  have hhonest : ∀ x ∈ items, Frontier.Honest val items 0 x := by
    intro x hx
    obtain ⟨u, hu, rfl⟩ := List.mem_map.mp hx
    refine ⟨rfl, by simp [PathUpdate.item, (hfields u hu).2.1], fun j _ hj hfree => ?_⟩
    simp only [PathUpdate.item] at hj hfree ⊢
    -- an honest sibling that no path lies below is a node of the updated map
    have hfree' : ∀ w ∈ paths, ¬ Frontier.siblingPos u.inner.keyPath j <+: w.inner.keyPath :=
      fun w hw => hfree _ (List.mem_map_of_mem hw)
    have hlen : (Frontier.siblingPos u.inner.keyPath j).length = j + 1 := by
      simp [Frontier.siblingPos]
      omega
    rw [(hfields u hu).2.1, TrieMap.getElem?_siblingsAt H M hj,
      ← below_siblingPos_applyOps M hbefore hscope hopsSorted hterminal hu hj hfree']
    show _ = some (subtrieRoot H _ (Frontier.siblingPos u.inner.keyPath j).length)
    rw [hlen]
  have hroot : Frontier.loop (hashOrCompact H) items [] = [(val [], 0)] := by
    refine Frontier.loop_eq_root (hashes_hashOrCompact hH _) (by simpa [items] using hne)
      (List.pairwise_map.mpr hbefore) (fun x hx => ?_) hhonest
    obtain ⟨u, hu, rfl⟩ := List.mem_map.mp hx
    exact (hterminal u hu).length_le
  have hchecks : verifyUpdateChecks (M.root H) none paths = .ok () :=
    verifyUpdateChecks_ok hsorted (fun p hp => by cases hp) fun u hu =>
      ⟨(hfields u hu).2.2, hops u hu⟩
  rw [verifyUpdate, if_neg hne, hchecks]
  simp [hloop, hroot, val, TrieMap.root]

end VerifyUpdate

/-- The map `{0x00… ↦ 1, 0x80… ↦ 2}`: two leaves under the root. -/
def twoLeafMap : TrieMap Nat :=
  ⟨[(KeyPath.ofPrefix [false], 1), (KeyPath.ofPrefix [true], 2)], by decide⟩

/-- Updates at both leaves of `twoLeafMap` with their honest proofs: delete `0x00…`, and insert
`0xC0…` next to `0x80…`. -/
def twoLeafUpdates : List (PathUpdate (FreeNode Nat) Nat) :=
  [⟨⟨[false], twoLeafMap.leafAt [false], twoLeafMap.siblingsAt freeHasher [false],
      twoLeafMap.root freeHasher, by decide⟩, [(KeyPath.ofPrefix [false], none)]⟩,
   ⟨⟨[true], twoLeafMap.leafAt [true], twoLeafMap.siblingsAt freeHasher [true],
      twoLeafMap.root freeHasher, by decide⟩, [(KeyPath.ofPrefix [true, true], some 3)]⟩]

theorem verifyUpdate_honest_two_leaves :
    verifyUpdate freeHasher (twoLeafMap.root freeHasher) twoLeafUpdates =
      some (.ok ((twoLeafMap.applyOps (twoLeafUpdates.flatMap PathUpdate.ops)).root
        freeHasher)) :=
  verifyUpdate_honest twoLeafMap freeHasher_lawful twoLeafUpdates (by decide) (by decide)
    (by
      intro u hu
      simp only [twoLeafUpdates, List.mem_cons, List.not_mem_nil, or_false] at hu
      rcases hu with rfl | rfl
      · exact ⟨KeyPath.ofPrefix [false], by decide,
          verify_pathProofAt freeHasher twoLeafMap (by decide) (by decide)⟩
      · exact ⟨KeyPath.ofPrefix [true], by decide,
          verify_pathProofAt freeHasher twoLeafMap (by decide) (by decide)⟩)
    (by decide)

end Nomt

import Nomt.Core.MultiProof
import Nomt.Core.PathProofCorrect

/-!
# Soundness of path proofs and multi-proofs

A verifier takes the depth of a terminal from the prover (the number of siblings of a path proof,
the `depth` of a multi-path proof) and never checks that a leaf's key lies below its position. It
is sound all the same, for a hasher whose leaf and internal hashes are injective and labelled by
their kinds: hashing a node up a claimed path to the canonical root pins every node on the way,
since at each level the root of an internal node decomposes in one way only, and a leaf hash or
`TERMINATOR` is never an internal hash (`hashPath_eq_subtrieRoot`). The node at the end of the path
is then the canonical one, so the map holds below the position exactly the terminal's leaf, or
nothing (`TrieMap.Reports`), and the answers of `confirm_value` and `confirm_nonexistence` follow.

For a multi-proof the same holds of every path `verify_range` pushes, by induction over its
bisections: the paths are in ascending order, so all of a range agrees on the bits its two ends
share, and the bisection splits it on the next bit (`verifyRange_reports`).
-/

namespace Nomt

open BitString

variable {N V : Type}

/-! ## What a terminal reports -/

/-- The entries a terminal reports below its position: its leaf, or none. -/
def leafEntries (leaf : Option (LeafData V)) : List (KeyPath × V) :=
  (leaf.map fun l => (l.keyPath, l.valueHash)).toList

namespace TrieMap

/-- Below `p` the map holds exactly the reported leaf, or nothing. -/
def Reports (M : TrieMap V) (p : List Bool) (leaf : Option (LeafData V)) : Prop :=
  M.below p = leafEntries leaf

variable {M : TrieMap V} {p : List Bool} {leaf : Option (LeafData V)} {k : KeyPath}

/-- A key below a reported position has a value exactly when the reported leaf is its own. -/
theorem Reports.get_eq_some_iff (h : M.Reports p leaf) (hk : p <+: k.bits) {v : V} :
    M.get k = some v ↔ leaf = some ⟨k, v⟩ := by
  have hbelow : (k, v) ∈ M.entries ↔ (k, v) ∈ M.below p :=
    ⟨fun he => mem_below.mpr ⟨he, hk⟩, fun he => (mem_below.mp he).1⟩
  rw [TrieMap.get_eq_some_iff, hbelow, h]
  cases leaf with
  | none => simp [leafEntries]
  | some l =>
    simp only [leafEntries, Option.map_some, Option.toList_some, List.mem_singleton,
      Prod.mk.injEq, Option.some.injEq]
    constructor
    · rintro ⟨rfl, rfl⟩
      rfl
    · rintro rfl
      exact ⟨rfl, rfl⟩

theorem Reports.get_eq_none_iff (h : M.Reports p leaf) (hk : p <+: k.bits) :
    M.get k = none ↔ ∀ l, leaf = some l → l.keyPath ≠ k := by
  rw [Option.eq_none_iff_forall_ne_some]
  constructor
  · rintro hnone l rfl rfl
    exact hnone l.valueHash ((h.get_eq_some_iff hk).mpr rfl)
  · intro hleaf v hv
    exact hleaf _ ((h.get_eq_some_iff hk).mp hv) rfl

/-- The answer `confirm_value` computes from a terminal: whether it is the expected leaf. -/
theorem Reports.confirms_value [DecidableEq V] (h : M.Reports p leaf) {expectedLeaf : LeafData V}
    (hk : p <+: expectedLeaf.keyPath.bits) :
    decide (leaf = some expectedLeaf) = true ↔
      M.get expectedLeaf.keyPath = some expectedLeaf.valueHash := by
  rw [decide_eq_true_iff, h.get_eq_some_iff hk]

/-- The answer `confirm_nonexistence` computes from a terminal: whether it is not a leaf of the
key. -/
theorem Reports.confirms_nonexistence (h : M.Reports p leaf) (hk : p <+: k.bits) :
    (leaf.map fun d => decide (d.keyPath ≠ k)).getD true = true ↔ M.get k = none := by
  rw [h.get_eq_none_iff hk]
  cases leaf with
  | none => simp
  | some l => simp

end TrieMap

/-! ## Descending a claimed path -/

section Descent

variable [Zero N] {H : NodeHasher N V} (hH : H.Lawful) (hleaf : Function.Injective H.hashLeaf)
  (hinternal : Function.Injective H.hashInternal) (M : TrieMap V)

include hH

/-- A canonical node that is an internal hash has two or more entries below it. -/
theorem two_le_of_subtrieRoot_eq_hashInternal {q : List Bool} {i : InternalData N}
    (h : subtrieRoot H (M.below q) q.length = H.hashInternal i) : 2 ≤ (M.below q).length := by
  have hkind : H.nodeKind (subtrieRoot H (M.below q) q.length) = .internal := by
    rw [h]
    exact hH.nodeKind_hashInternal i
  rcases hb : M.below q with _ | ⟨e, _ | ⟨e', rest⟩⟩
  · rw [nodeKind_subtrieRoot_nil hH M hb] at hkind
    cases hkind
  · rw [nodeKind_subtrieRoot_singleton hH M hb] at hkind
    cases hkind
  · simp

/-- A canonical node that is `TERMINATOR` has nothing below it. -/
theorem below_eq_nil_of_subtrieRoot_eq_terminator {q : List Bool}
    (h : subtrieRoot H (M.below q) q.length = terminator) : M.below q = [] := by
  have hkind : H.nodeKind (subtrieRoot H (M.below q) q.length) = .terminator := by
    rw [h]
    exact hH.nodeKind_terminator
  rcases hb : M.below q with _ | ⟨e, _ | ⟨e', rest⟩⟩
  · rfl
  · rw [nodeKind_subtrieRoot_singleton hH M hb] at hkind
    cases hkind
  · rw [nodeKind_subtrieRoot_of_two_le hH M (by simp [hb])] at hkind
    cases hkind

include hleaf in
/-- A canonical node that is the hash of a leaf has that leaf alone below it. -/
theorem below_eq_of_subtrieRoot_eq_hashLeaf {q : List Bool} {l : LeafData V}
    (h : subtrieRoot H (M.below q) q.length = H.hashLeaf l) :
    M.below q = [(l.keyPath, l.valueHash)] := by
  have hkind : H.nodeKind (subtrieRoot H (M.below q) q.length) = .leaf := by
    rw [h]
    exact hH.nodeKind_hashLeaf l
  rcases hb : M.below q with _ | ⟨e, _ | ⟨e', rest⟩⟩
  · rw [nodeKind_subtrieRoot_nil hH M hb] at hkind
    cases hkind
  · rw [hb, subtrieRoot_singleton] at h
    cases hleaf h
    rfl
  · rw [nodeKind_subtrieRoot_of_two_le hH M (by simp [hb])] at hkind
    cases hkind

include hleaf in
/-- A terminal whose node is the canonical node of its position reports what the map holds
there. -/
theorem reports_of_node_eq {p : List Bool} {t : PathProofTerminal V}
    (h : t.node H = subtrieRoot H (M.below p) p.length) : M.Reports p t.asLeafOption := by
  cases t with
  | leaf l => exact below_eq_of_subtrieRoot_eq_hashLeaf hH hleaf M h.symm
  | terminator pos => exact below_eq_nil_of_subtrieRoot_eq_terminator hH M h.symm

include hinternal in
/-- Hashing `node` up along `bits` with any siblings reaches the canonical node at `q` only when
`node` is the canonical node at `q ++ bits`: each level's internal hash decomposes one way. -/
theorem hashPath_eq_subtrieRoot : ∀ (bits q : List Bool) {node : N} {siblings : List N},
    siblings.length = bits.length →
    hashPath H node bits siblings = subtrieRoot H (M.below q) q.length →
    node = subtrieRoot H (M.below (q ++ bits)) (q ++ bits).length
  | [], q, node, siblings, hlen, h => by
    rw [List.length_nil, List.length_eq_zero_iff] at hlen
    subst hlen
    simpa [hashPath] using h
  | b :: bits, q, node, siblings, hlen, h => by
    obtain ⟨siblings, s, rfl⟩ : ∃ siblings' s, siblings = siblings' ++ [s] := by
      rcases List.eq_nil_or_concat siblings with rfl | ⟨siblings', s, rfl⟩
      · simp at hlen
      · exact ⟨siblings', s, List.concat_eq_append ..⟩
    have hlen' : siblings.length = bits.length := by simpa using hlen
    rw [hashPath_cons H node b bits s hlen'] at h
    have h2 := two_le_of_subtrieRoot_eq_hashInternal hH M h.symm
    rw [TrieMap.subtrieRoot_below_split H M h2] at h
    -- the top level pins the node below it on the side of `b`
    have hup : hashPath H node bits siblings =
        subtrieRoot H (M.below (q ++ [b])) (q ++ [b]).length := by
      have hdata := hinternal h
      rw [List.length_append, List.length_singleton]
      cases b
      · exact (InternalData.mk.inj hdata).1
      · exact (InternalData.mk.inj hdata).2
    have := hashPath_eq_subtrieRoot bits (q ++ [b]) hlen' hup
    simpa using this

end Descent

/-! ## Path proofs -/

theorem subtrieRoot_below_nil [Zero N] (H : NodeHasher N V) (M : TrieMap V) :
    subtrieRoot H (M.below []) ([] : List Bool).length = M.root H := by
  simp [TrieMap.root]

section PathProofs

variable [Zero N] [DecidableEq N] {H : NodeHasher N V} (hH : H.Lawful)
  (hleaf : Function.Injective H.hashLeaf) (hinternal : Function.Injective H.hashInternal)
  (M : TrieMap V)

include hH hleaf hinternal in
/-- A path proof that verifies against the root of a map reports what the map holds at the
verified path. -/
theorem PathProof.reports_of_verify {pp : PathProof N V} {keyPath : List Bool}
    {vp : VerifiedPathProof N V} (h : pp.verify H keyPath (M.root H) = .ok vp) :
    M.Reports vp.keyPath vp.terminal := by
  obtain ⟨hlen, hhash, hkey, hterm, -, -⟩ := PathProof.verify_eq_ok.mp h
  have hsib : pp.siblings.reverse.length = (keyPath.take pp.siblings.length).length := by
    simp only [List.length_reverse, List.length_take]
    omega
  rw [← subtrieRoot_below_nil] at hhash
  have hnode := hashPath_eq_subtrieRoot hH hinternal M _ [] hsib hhash
  rw [List.nil_append] at hnode
  rw [hkey, hterm]
  exact reports_of_node_eq hH hleaf M hnode

end PathProofs

section Answers

variable {M : TrieMap V} {vp : VerifiedPathProof N V}

/-- `confirm_value` of a path proof that reports the map answers whether the map holds the
expected leaf. -/
theorem VerifiedPathProof.confirmValue_sound [DecidableEq V] (hr : M.Reports vp.keyPath vp.terminal)
    {expectedLeaf : LeafData V} {b : Bool} (h : vp.confirmValue expectedLeaf = .ok b) :
    b = true ↔ M.get expectedLeaf.keyPath = some expectedLeaf.valueHash := by
  unfold VerifiedPathProof.confirmValue VerifiedPathProof.inScope at h
  split_ifs at h with hscope
  · cases h
    exact hr.confirms_value (hscope ▸ List.take_prefix _ _)
  · cases h

/-- `confirm_nonexistence` of a path proof that reports the map answers whether the key is
absent. -/
theorem VerifiedPathProof.confirmNonexistence_sound (hr : M.Reports vp.keyPath vp.terminal)
    {keyPath : KeyPath} {b : Bool} (h : vp.confirmNonexistence keyPath = .ok b) :
    b = true ↔ M.get keyPath = none := by
  unfold VerifiedPathProof.confirmNonexistence VerifiedPathProof.inScope at h
  split_ifs at h with hscope
  · cases h
    exact hr.confirms_nonexistence (hscope ▸ List.take_prefix _ _)
  · cases h

end Answers

/-! ## Multi-proofs -/

namespace MultiProof

section Split

variable {l : List (MultiPathProof V)} {a e : MultiPathProof V} {sd c i : Nat} {q : List Bool}

/-- The bisection of `verify_range`, on paths in ascending order that agree on their first `sd`
bits and all go on past the `c` further bits their two ends share: the paths are split, both
halves non-empty, into those with `false` and those with `true` after the shared bits. -/
theorem bisect_split (hsorted : l.Pairwise (fun x y => x.terminal.path < y.terminal.path))
    (hhead : l.head? = some a) (hlast : l.getLast? = some e)
    (hpos : ∀ x ∈ l, x.terminal.path.take sd = q) (hsd : sd ≤ a.terminal.path.length)
    (hc : sharedBits (a.terminal.path.drop sd) (e.terminal.path.drop sd) = c)
    (hlen : ∀ x ∈ l, sd + c < x.terminal.path.length) (hae : a.terminal.path < e.terminal.path)
    (hbis : bisectIndex l (sd + c) = some i) :
    0 < i ∧ i < l.length ∧
      (∀ x ∈ l.take i, x.terminal.path.take (sd + c + 1) =
        a.terminal.path.take (sd + c) ++ [false]) ∧
      ∀ x ∈ l.drop i, x.terminal.path.take (sd + c + 1) = a.terminal.path.take (sd + c) ++ [true] := by
  have ha : a ∈ l := List.mem_of_mem_head? hhead
  have he : e ∈ l := List.mem_of_getLast? hlast
  -- the two ends share exactly the first `sd + c` bits
  have hcpl : commonPrefixLen a.terminal.path e.terminal.path = sd + c := by
    have htake : a.terminal.path.take sd = e.terminal.path.take sd := by
      rw [hpos a ha, hpos e he]
    have hle : sd ≤ commonPrefixLen a.terminal.path e.terminal.path :=
      le_commonPrefixLen_iff.mpr ⟨hsd, by have := hlen e he; omega, htake⟩
    rw [← hc, sharedBits_eq_commonPrefixLen, commonPrefixLen_drop htake hsd]
    omega
  -- so after them the lower end has `false` and the upper end `true`
  obtain ⟨hafalse, hetrue⟩ : a.terminal.path[sd + c]? = some false ∧
      e.terminal.path[sd + c]? = some true := by
    rcases lt_iff_commonPrefixLen.mp hae with ⟨hpre, -⟩ | hbits
    · have := hlen a ha
      omega
    · rwa [hcpl] at hbits
  have hshared : ∀ x ∈ l, x.terminal.path.take (sd + c) = a.terminal.path.take (sd + c) := by
    intro x hx
    -- sorted by their paths: each path lies between the two ends' paths, or is one of them
    refine take_eq_of_le_of_le ?_ ?_ (Nat.le_of_eq hcpl.symm)
    · rcases rel_or_eq_of_head? hsorted hhead hx with h | rfl
      · exact Or.inl h
      · exact Or.inr rfl
    · rcases rel_or_eq_of_getLast? hsorted hlast hx with h | rfl
      · exact Or.inl h
      · exact Or.inr rfl
  obtain ⟨i', hi', hle, hfalse, htrue⟩ := bisectIndex_spec hsorted hshared hlen
  rw [hbis, Option.some.injEq] at hi'
  subst hi'
  -- a path below the bisection has `false` after the shared bits, one above it `true`
  have hnext : ∀ x ∈ l, ∀ bit, x.terminal.path[sd + c]? = some bit →
      x.terminal.path.take (sd + c + 1) = a.terminal.path.take (sd + c) ++ [bit] := by
    intro x hx bit hbit
    rw [List.take_add_one, hbit, hshared x hx]
    rfl
  refine ⟨?_, ?_, fun x hx => hnext x (List.mem_of_mem_take hx) false (hfalse x hx),
    fun x hx => hnext x (List.mem_of_mem_drop hx) true (htrue x hx)⟩
  · -- the lower end is below the bisection
    by_contra h0
    have := htrue a (by rw [Nat.eq_zero_of_not_pos h0, List.drop_zero]; exact ha)
    rw [hafalse] at this
    cases this
  · -- the upper end is above it
    by_contra hl
    have := hfalse e (by rw [List.take_of_length_le (by omega)]; exact he)
    rw [hetrue] at this
    cases this

end Split

section Reports

variable [Zero N] {H : NodeHasher N V} (hH : H.Lawful) (hleaf : Function.Injective H.hashLeaf)
  (hinternal : Function.Injective H.hashInternal) (M : TrieMap V)

include hH hleaf hinternal

/-- A range of one path that verifies to the canonical node of its start reports what the map
holds at the path's depth. -/
theorem verifyRange_singleton_reports {sd off : Nat} {siblings : List N} {t : MultiPathProof V}
    {out : RangeOutput N V} {q : List Bool} (h : verifyRange H sd [t] siblings off = some out)
    (hq : t.terminal.path.take sd = q) (hnode : out.node = subtrieRoot H (M.below q) q.length) :
    ∀ w ∈ out.paths, M.Reports (w.terminal.path.take w.depth) w.terminal.asLeafOption := by
  obtain ⟨hsd, hdepth, hsib, rfl⟩ := (verifyRange_singleton_eq_some H).mp h
  intro w hw
  rw [List.mem_singleton] at hw
  subst hw
  have hbits : (siblings.take (t.depth - sd)).reverse.length =
      ((t.terminal.path.take t.depth).drop sd).length := by
    simp only [List.length_reverse, List.length_take, List.length_drop]
    omega
  have hnode' := hashPath_eq_subtrieRoot hH hinternal M _ q hbits hnode
  -- the start of the range and the unique bits make up the path to the terminal's depth
  have hsplit : q ++ (t.terminal.path.take t.depth).drop sd = t.terminal.path.take t.depth := by
    rw [← hq]
    conv_rhs => rw [← List.take_append_drop sd (t.terminal.path.take t.depth)]
    rw [List.take_take, Nat.min_eq_left hsd]
  rw [hsplit] at hnode'
  exact reports_of_node_eq hH hleaf M hnode'

/-- Every path a range pushes reports what the map holds at its depth, when the paths are in
ascending order, agree on their first `sd` bits `q`, and the range verifies to the canonical node
at `q`. By induction over the bisections. -/
theorem verifyRange_reports : ∀ {sd : Nat} {paths : List (MultiPathProof V)} {siblings : List N}
    {off : Nat} {out : RangeOutput N V} {q : List Bool},
    verifyRange H sd paths siblings off = some out → paths ≠ [] →
    paths.Pairwise (fun x y => x.terminal.path < y.terminal.path) →
    (∀ x ∈ paths, x.terminal.path.take sd = q) →
    out.node = subtrieRoot H (M.below q) q.length →
    ∀ w ∈ out.paths, M.Reports (w.terminal.path.take w.depth) w.terminal.asLeafOption
  | _, [], _, _, _, _, _, hne, _, _, _ => absurd rfl hne
  | sd, [t], siblings, off, out, q, h, _, _, hpos, hnode =>
    verifyRange_singleton_reports hH hleaf hinternal M h (hpos t (List.mem_singleton_self t)) hnode
  | sd, a :: b :: rest, siblings, off, out, q, h, _, hsorted, hpos, hnode => by
    obtain ⟨c, hc⟩ : ∃ c, sharedBits (a.terminal.path.drop sd)
        (((b :: rest).getLast (List.cons_ne_nil _ _)).terminal.path.drop sd) = c := ⟨_, rfl⟩
    obtain ⟨h1, h2, hcs, i, left, right, hbis, hleft, hls, hright, rfl⟩ :=
      (verifyRange_cons_cons_eq_some H rfl hc).mp h
    have hsd : sd ≤ 256 := Nat.le_trans h1 a.terminal.length_path_le
    -- every path goes on past the bits the two ends share, as the two halves verify
    have hlen : ∀ x ∈ a :: b :: rest, sd + c < x.terminal.path.length := by
      intro x hx
      rw [← List.take_append_drop i (a :: b :: rest), List.mem_append] at hx
      rcases hx with hx | hx
      · have := verifyRange_length_le H hleft x hx
        omega
      · have := verifyRange_length_le H hright x hx
        omega
    have hae : a.terminal.path < ((b :: rest).getLast (List.cons_ne_nil _ _)).terminal.path :=
      List.rel_of_pairwise_cons hsorted (List.getLast_mem _)
    have hlast : (a :: b :: rest).getLast? = some ((b :: rest).getLast (List.cons_ne_nil _ _)) := by
      rw [List.getLast?_eq_some_getLast (List.cons_ne_nil _ _),
        List.getLast_cons (List.cons_ne_nil _ _)]
    obtain ⟨hi0, hil, hleftPos, hrightPos⟩ :=
      bisect_split hsorted rfl hlast hpos h1 hc hlen hae hbis
    -- the shared bits hash the bisection's internal node up to the start of the range
    have hbits : (siblings.take c).reverse.length =
        ((a.terminal.path.take (sd + c)).drop sd).length := by
      have := hlen a (List.mem_cons_self ..)
      simp only [List.length_reverse, List.length_take, List.length_drop]
      omega
    have hinner := hashPath_eq_subtrieRoot hH hinternal M _ q hbits hnode
    have hsplit : q ++ (a.terminal.path.take (sd + c)).drop sd = a.terminal.path.take (sd + c) := by
      rw [← hpos a (List.mem_cons_self ..)]
      conv_rhs => rw [← List.take_append_drop sd (a.terminal.path.take (sd + c))]
      rw [List.take_take, Nat.min_eq_left (Nat.le_add_right sd c)]
    rw [hsplit] at hinner
    -- which pins the nodes of the two halves
    have h2le := two_le_of_subtrieRoot_eq_hashInternal hH M hinner.symm
    rw [TrieMap.subtrieRoot_below_split H M h2le] at hinner
    obtain ⟨hln, hrn⟩ := InternalData.mk.inj (hinternal hinner)
    have hlenP : (a.terminal.path.take (sd + c)).length = sd + c := by
      have := hlen a (List.mem_cons_self ..)
      simp only [List.length_take]
      omega
    have hleftNe : (a :: b :: rest).take i ≠ [] :=
      List.ne_nil_of_length_pos (by rw [List.length_take]; omega)
    have hrightNe : (a :: b :: rest).drop i ≠ [] :=
      List.ne_nil_of_length_pos (by rw [List.length_drop]; omega)
    intro w hw
    rcases List.mem_append.mp hw with hw | hw
    · exact verifyRange_reports hleft hleftNe (hsorted.sublist (List.take_sublist _ _)) hleftPos
        (by rw [hln, List.length_append, List.length_singleton, hlenP]) w hw
    · exact verifyRange_reports hright hrightNe (hsorted.sublist (List.drop_sublist _ _)) hrightPos
        (by rw [hrn, List.length_append, List.length_singleton, hlenP]) w hw
termination_by sd => 257 - sd

end Reports

section Verify

variable [Zero N] [DecidableEq N] {H : NodeHasher N V} (hH : H.Lawful)
  (hleaf : Function.Injective H.hashLeaf) (hinternal : Function.Injective H.hashInternal)
  (M : TrieMap V)

include hH hleaf hinternal in
/-- Every path of a multi-proof that verifies against the root of a map reports what the map
holds at its depth. -/
theorem reports_of_verify {multiProof : MultiProof N V} {v : VerifiedMultiProof N V}
    (h : verify H multiProof (M.root H) = some (.ok v)) :
    ∀ w ∈ v.inner, M.Reports (w.terminal.path.take w.depth) w.terminal.asLeafOption := by
  obtain ⟨hsorted, out, hout, hroot, -, rfl⟩ := (verify_eq_some_ok H).mp h
  rw [← subtrieRoot_below_nil] at hroot
  cases hpaths : multiProof.paths with
  | nil =>
    -- an empty proof verifies only against the root of the empty map
    rw [hpaths, verifyRange.eq_1, Option.some.injEq] at hout
    subst hout
    have hempty := below_eq_nil_of_subtrieRoot_eq_terminator hH M hroot.symm
    intro w hw
    rw [List.mem_singleton] at hw
    subst hw
    exact hempty
  | cons a rest =>
    rw [hpaths] at hout hsorted
    exact verifyRange_reports hH hleaf hinternal M hout (List.cons_ne_nil _ _) hsorted
      (fun x _ => List.take_zero) hroot

end Verify

end MultiProof

namespace VerifiedMultiProof

variable {M : TrieMap V} {v : VerifiedMultiProof N V}

/-- `confirm_value` of a multi-proof whose paths report the map answers whether the map holds the
expected leaf. -/
theorem confirmValue_sound [DecidableEq V]
    (hrep : ∀ w ∈ v.inner, M.Reports (w.terminal.path.take w.depth) w.terminal.asLeafOption)
    {expectedLeaf : LeafData V} {b : Bool} (h : v.confirmValue expectedLeaf = some (.ok b)) :
    b = true ↔ M.get expectedLeaf.keyPath = some expectedLeaf.valueHash := by
  obtain ⟨i, hfind, hi, rfl⟩ := confirmValue_eq_some_ok h
  obtain ⟨hi', hscope⟩ := findIndexFor_eq_ok hfind
  exact (hrep _ (List.getElem_mem hi)).confirms_value (hscope ▸ List.take_prefix _ _)

/-- `confirm_nonexistence` of a multi-proof whose paths report the map answers whether the key
is absent. -/
theorem confirmNonexistence_sound
    (hrep : ∀ w ∈ v.inner, M.Reports (w.terminal.path.take w.depth) w.terminal.asLeafOption)
    {keyPath : KeyPath} {b : Bool} (h : v.confirmNonexistence keyPath = some (.ok b)) :
    b = true ↔ M.get keyPath = none := by
  obtain ⟨i, hfind, hi, rfl⟩ := confirmNonexistence_eq_some_ok h
  obtain ⟨hi', hscope⟩ := findIndexFor_eq_ok hfind
  exact (hrep _ (List.getElem_mem hi)).confirms_nonexistence (hscope ▸ List.take_prefix _ _)

end VerifiedMultiProof

/-! ## Soundness of both proof formats -/

/-- With leaf and internal hashes injective and labelled by their kinds, what a path proof or a
multi-proof that verifies against the root of a map confirms is true of the map, and the
queries on a verified multi-proof never panic. -/
theorem proofs_sound [Zero N] [DecidableEq N] [DecidableEq V] {H : NodeHasher N V}
    (hH : H.Lawful) (hleaf : Function.Injective H.hashLeaf)
    (hinternal : Function.Injective H.hashInternal) (M : TrieMap V) :
    (∀ (pp : PathProof N V) (k : KeyPath) (vp : VerifiedPathProof N V),
      pp.verify H k.bits (M.root H) = .ok vp →
      (∀ (expectedLeaf : LeafData V) (b : Bool), vp.confirmValue expectedLeaf = .ok b →
        (b = true ↔ M.get expectedLeaf.keyPath = some expectedLeaf.valueHash)) ∧
      ∀ (k' : KeyPath) (b : Bool), vp.confirmNonexistence k' = .ok b →
        (b = true ↔ M.get k' = none)) ∧
    ∀ (multiProof : MultiProof N V) (v : VerifiedMultiProof N V),
      MultiProof.verify H multiProof (M.root H) = some (.ok v) →
      (∀ expectedLeaf : LeafData V, (v.confirmValue expectedLeaf).isSome ∧
        ∀ b : Bool, v.confirmValue expectedLeaf = some (.ok b) →
          (b = true ↔ M.get expectedLeaf.keyPath = some expectedLeaf.valueHash)) ∧
      ∀ k' : KeyPath, (v.confirmNonexistence k').isSome ∧
        ∀ b : Bool, v.confirmNonexistence k' = some (.ok b) → (b = true ↔ M.get k' = none) := by
  refine ⟨fun pp k vp hverify => ?_, fun multiProof v hverify => ?_⟩
  · have hrep := PathProof.reports_of_verify hH hleaf hinternal M hverify
    exact ⟨fun _ _ h => VerifiedPathProof.confirmValue_sound hrep h,
      fun _ _ h => VerifiedPathProof.confirmNonexistence_sound hrep h⟩
  · have hrep := MultiProof.reports_of_verify hH hleaf hinternal M hverify
    have hdepth : ∀ w ∈ v.inner, w.depth ≤ w.terminal.path.length := by
      obtain ⟨-, out, hout, -, -, rfl⟩ := (MultiProof.verify_eq_some_ok H).mp hverify
      exact MultiProof.verifyRange_depth_le H hout
    exact ⟨fun _ => ⟨VerifiedMultiProof.confirmValue_isSome hdepth _,
        fun _ h => VerifiedMultiProof.confirmValue_sound hrep h⟩,
      fun _ => ⟨VerifiedMultiProof.confirmNonexistence_isSome hdepth,
        fun _ h => VerifiedMultiProof.confirmNonexistence_sound hrep h⟩⟩

/-- The free hasher meets the hypotheses: the statement at its proofs about the two-leaf map. -/
theorem proofs_sound_two_leaves :
    (∀ (pp : PathProof (FreeNode Nat) Nat) (k : KeyPath)
        (vp : VerifiedPathProof (FreeNode Nat) Nat),
      pp.verify freeHasher k.bits (twoLeafMap.root freeHasher) = .ok vp →
      (∀ (expectedLeaf : LeafData Nat) (b : Bool), vp.confirmValue expectedLeaf = .ok b →
        (b = true ↔ twoLeafMap.get expectedLeaf.keyPath = some expectedLeaf.valueHash)) ∧
      ∀ (k' : KeyPath) (b : Bool), vp.confirmNonexistence k' = .ok b →
        (b = true ↔ twoLeafMap.get k' = none)) ∧
    ∀ (multiProof : MultiProof (FreeNode Nat) Nat) (v : VerifiedMultiProof (FreeNode Nat) Nat),
      MultiProof.verify freeHasher multiProof (twoLeafMap.root freeHasher) = some (.ok v) →
      (∀ expectedLeaf : LeafData Nat, (v.confirmValue expectedLeaf).isSome ∧
        ∀ b : Bool, v.confirmValue expectedLeaf = some (.ok b) →
          (b = true ↔ twoLeafMap.get expectedLeaf.keyPath = some expectedLeaf.valueHash)) ∧
      ∀ k' : KeyPath, (v.confirmNonexistence k').isSome ∧
        ∀ b : Bool, v.confirmNonexistence k' = some (.ok b) →
          (b = true ↔ twoLeafMap.get k' = none) :=
  proofs_sound freeHasher_lawful freeHasher_hashLeaf_injective freeHasher_hashInternal_injective
    twoLeafMap

end Nomt

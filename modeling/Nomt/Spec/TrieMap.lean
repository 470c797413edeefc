import Nomt.Core.Trie

/-!
# Key-value maps and their tries

What a trie commits to: a map from 256-bit keys to value hashes, held as its entries in strictly
ascending key order (`TrieMap`). `get`, `update` (a `some` value sets a key, `none` deletes it) and
`applyOps` are what the update procedures of the code are measured against; `root` is the root of
the canonical compact trie of the map and `below M p` the entries of its sub-trie at position `p`.

A terminal position (`IsTerminal`) is where a lookup ends: a leaf, or a `TERMINATOR` slot. At most
one key lies below it and its parent, if any, is an internal node, with two or more keys below.
Terminal positions are never one above another (`IsTerminal.eq_of_isPrefix`).
-/

namespace Nomt

variable {V : Type}

/-- A map from keys to value hashes: its entries in strictly ascending key order. -/
structure TrieMap (V : Type) where
  entries : List (KeyPath × V)
  sorted : entries.Pairwise (fun a b => a.1 < b.1)

namespace TrieMap

/-! ## Entry lists in ascending key order -/

section Entries

variable {l l₁ l₂ : List (KeyPath × V)}

theorem nodup_of_sorted (h : l.Pairwise (fun a b => a.1 < b.1)) : l.Nodup := by
  unfold List.Nodup
  refine h.imp fun {a b} hab hba => ?_
  rw [hba] at hab
  exact KeyPath.lt_irrefl b.1 hab

/-- Two entry lists in ascending key order with the same entries are one list. -/
theorem eq_of_mem_iff (h₁ : l₁.Pairwise (fun a b => a.1 < b.1))
    (h₂ : l₂.Pairwise (fun a b => a.1 < b.1)) (h : ∀ e, e ∈ l₁ ↔ e ∈ l₂) : l₁ = l₂ := by
  have hperm : l₁.Perm l₂ := (List.perm_ext_iff_of_nodup (nodup_of_sorted h₁)
    (nodup_of_sorted h₂)).mpr h
  exact hperm.eq_of_pairwise
    (fun a b _ _ hab hba => absurd (KeyPath.lt_trans hab hba) (KeyPath.lt_irrefl a.1)) h₁ h₂

/-- A key occurs at most once. -/
theorem eq_of_key_eq {e e' : KeyPath × V} (hkey : e.1 = e'.1) :
    ∀ {l : List (KeyPath × V)}, l.Pairwise (fun a b => a.1 < b.1) → e ∈ l → e' ∈ l → e = e'
  | x :: rest, h, he, he' => by
    obtain ⟨hx, hrest⟩ := List.pairwise_cons.mp h
    rcases List.mem_cons.mp he with rfl | hmem <;> rcases List.mem_cons.mp he' with rfl | hmem'
    · rfl
    · have hlt := hx e' hmem'
      rw [hkey] at hlt
      exact absurd hlt (KeyPath.lt_irrefl e'.1)
    · have hlt := hx e hmem
      rw [hkey] at hlt
      exact absurd hlt (KeyPath.lt_irrefl e'.1)
    · exact eq_of_key_eq hkey hrest hmem hmem'

end Entries

/-! ## Reading and writing the map -/

/-- The value of a key, if it has one. -/
def get (M : TrieMap V) (k : KeyPath) : Option V :=
  (M.entries.find? fun e => e.1 = k).map Prod.snd

theorem get_eq_some_iff {M : TrieMap V} {k : KeyPath} {v : V} :
    M.get k = some v ↔ (k, v) ∈ M.entries := by
  constructor
  · intro h
    obtain ⟨e, he, rfl⟩ := Option.map_eq_some_iff.mp h
    have hkey : e.1 = k := by simpa using List.find?_some he
    rw [← hkey]
    exact List.mem_of_find?_eq_some he
  · intro h
    obtain ⟨e, he⟩ : ∃ e, M.entries.find? (fun e => e.1 = k) = some e :=
      Option.isSome_iff_exists.mp (List.find?_isSome.mpr ⟨(k, v), h, by simp⟩)
    have hkey : e.1 = k := by simpa using List.find?_some he
    have heq : e = (k, v) :=
      eq_of_key_eq hkey M.sorted (List.mem_of_find?_eq_some he) h
    simp [get, he, heq]

theorem get_eq_none_iff {M : TrieMap V} {k : KeyPath} :
    M.get k = none ↔ ∀ e ∈ M.entries, e.1 ≠ k := by
  simp [get, List.find?_eq_none]

/-- Set the value of `k` in an ascending entry list: `some v` inserts or overwrites, `none`
deletes. -/
def setEntry (k : KeyPath) (o : Option V) : List (KeyPath × V) → List (KeyPath × V)
  | [] => (o.map (k, ·)).toList
  | e :: rest =>
    if e.1 < k then e :: setEntry k o rest
    else if e.1 = k then (o.map (k, ·)).toList ++ rest
    else (o.map (k, ·)).toList ++ e :: rest

section SetEntry

variable {k : KeyPath} {o : Option V}

theorem mem_option_toList {e : KeyPath × V} :
    e ∈ (o.map (k, ·)).toList ↔ e.1 = k ∧ o = some e.2 := by
  cases o <;> aesop

theorem mem_setEntry : ∀ {l : List (KeyPath × V)}, l.Pairwise (fun a b => a.1 < b.1) →
    ∀ {e : KeyPath × V}, e ∈ setEntry k o l ↔ (e.1 = k ∧ o = some e.2) ∨ (e.1 ≠ k ∧ e ∈ l)
  | [], _, e => by
    rw [setEntry, mem_option_toList]
    simp
  | e' :: rest, hl, e => by
    have hrest : ∀ x ∈ rest, e'.1 < x.1 := (List.pairwise_cons.mp hl).1
    unfold setEntry
    split_ifs with hlt heq
    · -- the key goes after `e'`
      rw [List.mem_cons, mem_setEntry (List.pairwise_cons.mp hl).2, List.mem_cons]
      have hne : e'.1 ≠ k := KeyPath.ne_of_lt hlt
      constructor
      · rintro (rfl | h | h)
        · exact Or.inr ⟨hne, Or.inl rfl⟩
        · exact Or.inl h
        · exact Or.inr ⟨h.1, Or.inr h.2⟩
      · rintro (h | ⟨hk, rfl | h⟩)
        · exact Or.inr (Or.inl h)
        · exact Or.inl rfl
        · exact Or.inr (Or.inr ⟨hk, h⟩)
    · -- `e'` is the entry of the key
      rw [List.mem_append, mem_option_toList, List.mem_cons]
      constructor
      · rintro (h | h)
        · exact Or.inl h
        · refine Or.inr ⟨fun hk => ?_, Or.inr h⟩
          have hlt' := hrest e h
          rw [heq, hk] at hlt'
          exact KeyPath.lt_irrefl k hlt'
      · rintro (h | ⟨hk, rfl | h⟩)
        · exact Or.inl h
        · exact absurd heq hk
        · exact Or.inr h
    · -- the key goes before `e'`
      have hgt : k < e'.1 := by
        rcases KeyPath.lt_trichotomy e'.1 k with h | h | h
        · exact absurd h hlt
        · exact absurd h heq
        · exact h
      rw [List.mem_append, mem_option_toList]
      constructor
      · rintro (h | h)
        · exact Or.inl h
        · refine Or.inr ⟨?_, h⟩
          rcases List.mem_cons.mp h with rfl | h
          · exact heq
          · intro hk
            have hlt' := KeyPath.lt_trans hgt (hrest e h)
            rw [hk] at hlt'
            exact KeyPath.lt_irrefl k hlt'
      · rintro (h | ⟨-, h⟩)
        · exact Or.inl h
        · exact Or.inr h

theorem setEntry_sorted : ∀ {l : List (KeyPath × V)}, l.Pairwise (fun a b => a.1 < b.1) →
    (setEntry k o l).Pairwise (fun a b => a.1 < b.1)
  | [], _ => by cases o <;> simp [setEntry]
  | e' :: rest, hl => by
    obtain ⟨hrest, hsorted⟩ := List.pairwise_cons.mp hl
    -- the new entry, if any, is below every entry of `l` it is put in front of
    have hfront : ∀ l' : List (KeyPath × V), l'.Pairwise (fun a b => a.1 < b.1) →
        (∀ x ∈ l', k < x.1) → ((o.map (k, ·)).toList ++ l').Pairwise (fun a b => a.1 < b.1) := by
      intro l' hl' hk
      refine List.pairwise_append.mpr ⟨by cases o <;> simp, hl', fun a ha b hb => ?_⟩
      rw [(mem_option_toList.mp ha).1]
      exact hk b hb
    unfold setEntry
    split_ifs with hlt heq
    · refine List.pairwise_cons.mpr ⟨fun x hx => ?_, setEntry_sorted hsorted⟩
      rcases (mem_setEntry hsorted).mp hx with ⟨hk, -⟩ | ⟨-, hx⟩
      · rw [hk]
        exact hlt
      · exact hrest x hx
    · exact hfront rest hsorted fun x hx => heq ▸ hrest x hx
    · have hgt : k < e'.1 := by
        rcases KeyPath.lt_trichotomy e'.1 k with h | h | h
        · exact absurd h hlt
        · exact absurd h heq
        · exact h
      refine hfront (e' :: rest) hl fun x hx => ?_
      rcases List.mem_cons.mp hx with rfl | hx
      · exact hgt
      · exact KeyPath.lt_trans hgt (hrest x hx)

end SetEntry

/-- Set the value of a key: `some v` inserts or overwrites, `none` deletes. -/
def update (M : TrieMap V) (k : KeyPath) (o : Option V) : TrieMap V :=
  ⟨setEntry k o M.entries, setEntry_sorted M.sorted⟩

theorem mem_update {M : TrieMap V} {k : KeyPath} {o : Option V} {e : KeyPath × V} :
    e ∈ (M.update k o).entries ↔ (e.1 = k ∧ o = some e.2) ∨ (e.1 ≠ k ∧ e ∈ M.entries) :=
  mem_setEntry M.sorted

/-- The map holding one leaf, or no entry. -/
def ofLeaf (leaf : Option (LeafData V)) : TrieMap V :=
  ⟨(leaf.map fun l => (l.keyPath, l.valueHash)).toList, by cases leaf <;> simp⟩

theorem mem_ofLeaf {leaf : Option (LeafData V)} {e : KeyPath × V} :
    e ∈ (ofLeaf leaf).entries ↔ leaf = some ⟨e.1, e.2⟩ := by
  cases leaf with
  | none => simp [ofLeaf]
  | some l =>
    obtain ⟨k, v⟩ := l
    simp only [ofLeaf, Option.map_some, Option.toList_some, List.mem_singleton, Option.some.injEq,
      LeafData.mk.injEq]
    constructor
    · rintro rfl
      exact ⟨rfl, rfl⟩
    · rintro ⟨hk, hv⟩
      rw [hk, hv]

/-- Apply update operations in order. -/
def applyOps (M : TrieMap V) (ops : List (KeyPath × Option V)) : TrieMap V :=
  ops.foldl (fun M op => M.update op.1 op.2) M

@[simp] theorem applyOps_nil (M : TrieMap V) : M.applyOps [] = M := rfl

theorem applyOps_cons (M : TrieMap V) (op : KeyPath × Option V)
    (ops : List (KeyPath × Option V)) :
    M.applyOps (op :: ops) = (M.update op.1 op.2).applyOps ops := rfl

/-- After operations on distinct keys, an entry is one the operations set, or one of the map
whose key they leave alone. -/
theorem mem_applyOps : ∀ {M : TrieMap V} {ops : List (KeyPath × Option V)},
    ops.Pairwise (fun a b => a.1 ≠ b.1) → ∀ {e : KeyPath × V},
    e ∈ (M.applyOps ops).entries ↔
      (e.1, some e.2) ∈ ops ∨ ((∀ op ∈ ops, op.1 ≠ e.1) ∧ e ∈ M.entries)
  | M, [], _, e => by simp
  | M, op :: ops, hops, e => by
    obtain ⟨hop, hops⟩ := List.pairwise_cons.mp hops
    rw [applyOps_cons, mem_applyOps hops, mem_update]
    constructor
    · rintro (h | ⟨hk, ⟨hkey, h⟩ | ⟨hne, h⟩⟩)
      · exact Or.inl (List.mem_cons_of_mem _ h)
      · exact Or.inl (List.mem_cons.mpr (Or.inl (Prod.ext hkey h.symm)))
      · refine Or.inr ⟨fun x hx => ?_, h⟩
        rcases List.mem_cons.mp hx with rfl | hx
        · exact Ne.symm hne
        · exact hk x hx
    · rintro (h | ⟨hk, h⟩)
      · rcases List.mem_cons.mp h with h | h
        · have hk : op.1 = e.1 := (congrArg Prod.fst h).symm
          have hv : op.2 = some e.2 := (congrArg Prod.snd h).symm
          exact Or.inr ⟨fun x hx hkey => hop x hx (hk.trans hkey.symm), Or.inl ⟨hk.symm, hv⟩⟩
        · exact Or.inl h
      · exact Or.inr ⟨fun x hx => hk x (List.mem_cons_of_mem _ hx),
          Or.inr ⟨Ne.symm (hk op (List.mem_cons_self ..)), h⟩⟩

/-! ## The trie of a map -/

section Trie

variable {N : Type} [Zero N]

/-- The root of the canonical compact trie of the map. -/
def root (H : NodeHasher N V) (M : TrieMap V) : N := subtrieRoot H M.entries 0

end Trie

/-- The entries of the sub-trie at position `p`: those whose key starts with `p`. -/
def below (M : TrieMap V) (p : List Bool) : List (KeyPath × V) :=
  M.entries.filter fun e => p.isPrefixOf e.1.bits

theorem mem_below {M : TrieMap V} {p : List Bool} {e : KeyPath × V} :
    e ∈ M.below p ↔ e ∈ M.entries ∧ p <+: e.1.bits := by
  simp [below, List.isPrefixOf_iff_prefix]

@[simp] theorem below_nil (M : TrieMap V) : M.below [] = M.entries := by
  simp [below]

theorem below_sorted (M : TrieMap V) (p : List Bool) :
    (M.below p).Pairwise (fun a b => a.1 < b.1) :=
  M.sorted.filter _

theorem below_sublist {M : TrieMap V} {p q : List Bool} (h : p <+: q) :
    (M.below q).Sublist (M.below p) :=
  List.monotone_filter_right _ fun e he => by
    simp only [List.isPrefixOf_iff_prefix] at he ⊢
    exact h.trans he

/-- A map as seen by the sub-trie at `p`: its entries below `p` are all it holds there. -/
theorem below_of_forall {M M' : TrieMap V} {p : List Bool}
    (h : ∀ e, p <+: e.1.bits → (e ∈ M.entries ↔ e ∈ M'.entries)) : M.below p = M'.below p :=
  eq_of_mem_iff (M.below_sorted p) (M'.below_sorted p) fun e => by
    rw [mem_below, mem_below]
    exact ⟨fun ⟨he, hp⟩ => ⟨(h e hp).mp he, hp⟩, fun ⟨he, hp⟩ => ⟨(h e hp).mpr he, hp⟩⟩

/-- Operations that agree below `p` give maps that agree below `p`. -/
theorem below_applyOps_congr {M : TrieMap V} {ops ops' : List (KeyPath × Option V)}
    (hops : ops.Pairwise (fun a b => a.1 ≠ b.1)) (hops' : ops'.Pairwise (fun a b => a.1 ≠ b.1))
    {p : List Bool} (h : ∀ op : KeyPath × Option V, p <+: op.1.bits → (op ∈ ops ↔ op ∈ ops')) :
    (M.applyOps ops).below p = (M.applyOps ops').below p := by
  refine below_of_forall fun e hp => ?_
  -- an operation on the key of `e` lies below `p`, where the two lists agree
  have hkey : ∀ op : KeyPath × Option V, op.1 = e.1 → (op ∈ ops ↔ op ∈ ops') :=
    fun op hk => h op (by rw [hk]; exact hp)
  rw [mem_applyOps hops, mem_applyOps hops']
  constructor
  · rintro (h₁ | ⟨hne, he⟩)
    · exact Or.inl ((hkey _ rfl).mp h₁)
    · exact Or.inr ⟨fun op hop hk => hne op ((hkey op hk).mpr hop) hk, he⟩
  · rintro (h₁ | ⟨hne, he⟩)
    · exact Or.inl ((hkey _ rfl).mpr h₁)
    · exact Or.inr ⟨fun op hop hk => hne op ((hkey op hk).mp hop) hk, he⟩

/-- Two distinct keys below `p` make `p` shorter than a key. -/
theorem length_lt_of_two_le {M : TrieMap V} {p : List Bool} (h2 : 2 ≤ (M.below p).length) :
    p.length < 256 := by
  match hb : M.below p, h2 with
  | a :: b :: _, _ =>
    have hab : a.1 < b.1 := by
      have := M.below_sorted p
      rw [hb] at this
      exact (List.pairwise_cons.mp this).1 b (by simp)
    have ha := (mem_below.mp (hb ▸ List.mem_cons_self ..)).2
    have hb' := (mem_below.mp (hb ▸ List.mem_cons_of_mem _ (List.mem_cons_self ..))).2
    by_contra hlen
    -- a prefix of full length is the whole key, so the two keys would be one
    have hla := ha.length_le
    have hlb := hb'.length_le
    rw [a.1.length_bits] at hla
    rw [b.1.length_bits] at hlb
    have hka : p = a.1.bits := ha.eq_of_length (by rw [a.1.length_bits]; omega)
    have hkb : p = b.1.bits := hb'.eq_of_length (by rw [b.1.length_bits]; omega)
    exact KeyPath.ne_of_lt hab (KeyPath.bits_injective (hka.symm.trans hkb))

/-- The leaf of the sub-trie at `p` when it holds exactly one entry. -/
def leafAt (M : TrieMap V) (p : List Bool) : Option (LeafData V) :=
  match M.below p with
  | [e] => some ⟨e.1, e.2⟩
  | _ => none

/-- Where at most one key lies below `p`, the leaf there is that key's entry. -/
theorem leafAt_eq_some_iff {M : TrieMap V} {p : List Bool} (h1 : (M.below p).length ≤ 1)
    {e : KeyPath × V} : M.leafAt p = some ⟨e.1, e.2⟩ ↔ e ∈ M.below p := by
  unfold leafAt
  match hb : M.below p, h1 with
  | [], _ => simp
  | [x], _ =>
    simp only [Option.some.injEq, LeafData.mk.injEq, List.mem_singleton]
    constructor
    · rintro ⟨h₁, h₂⟩
      exact Prod.ext h₁.symm h₂.symm
    · rintro rfl
      exact ⟨rfl, rfl⟩

section Sides

variable {N : Type} [Zero N] (H : NodeHasher N V) (M : TrieMap V) {q : List Bool}

/-- The side `b` of the sub-trie at `q` is the sub-trie at `q ++ [b]`. -/
theorem side_below (hq : q.length < 256) (b : Bool) :
    CompactTrie.side (schema H) q.length b (M.below q) = M.below (q ++ [b]) := by
  refine eq_of_mem_iff ((M.below_sorted q).filter _) (M.below_sorted _) fun e => ?_
  rw [CompactTrie.mem_side, mem_below, mem_below]
  constructor
  · rintro ⟨⟨he, hqe⟩, hb⟩
    have hlen : q.length < ((schema H).key e).length := by
      show q.length < e.1.bits.length
      rw [e.1.length_bits]
      exact hq
    exact ⟨he, CompactTrie.append_prefix_of_bit (schema H) hqe hlen hb⟩
  · rintro ⟨he, hqb⟩
    exact ⟨⟨he, (List.prefix_append _ _).trans hqb⟩, CompactTrie.bit_of_append_prefix (schema H) hqb⟩

end Sides

/-! ## Terminal positions -/

/-- `p` is a terminal position of the trie of `M`: at most one key lies below it, and its parent,
if any, is an internal node. -/
def IsTerminal (M : TrieMap V) (p : List Bool) : Prop :=
  (M.below p).length ≤ 1 ∧ (p = [] ∨ 2 ≤ (M.below p.dropLast).length)

instance (M : TrieMap V) (p : List Bool) : Decidable (M.IsTerminal p) :=
  inferInstanceAs (Decidable (_ ∧ _))

theorem IsTerminal.length_le {M : TrieMap V} {p : List Bool} (hp : M.IsTerminal p) :
    p.length ≤ 256 := by
  rcases hp.2 with rfl | h2
  · simp
  · have := length_lt_of_two_le h2
    rw [List.length_dropLast] at this
    omega

/-- Terminal positions are never one above another. -/
theorem IsTerminal.eq_of_isPrefix {M : TrieMap V} {p q : List Bool} (hp : M.IsTerminal p)
    (hq : M.IsTerminal q) (hpq : p <+: q) : p = q := by
  rcases CompactTrie.eq_or_prefix_dropLast hpq with h | h
  · exact h.symm
  · -- the parent of `q` would lie below `p`, holding two keys where `p` holds one
    rcases hq.2 with rfl | h2
    · exact List.prefix_nil.mp hpq
    · have := (below_sublist (M := M) h).length_le
      have := hp.1
      omega

/-- Of two terminal positions, the smaller parts from the larger to the left. -/
theorem IsTerminal.before_of_lt {M : TrieMap V} {p q : List Bool} (hp : M.IsTerminal p)
    (hq : M.IsTerminal q) (h : p < q) : BitString.Before p q := by
  refine (BitString.before_iff_lt fun hpq => ?_).mpr h
  rw [hp.eq_of_isPrefix hq hpq] at h
  exact BitString.lt_irrefl q h

end TrieMap

end Nomt

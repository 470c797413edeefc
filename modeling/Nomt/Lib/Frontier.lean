import Nomt.Lib.BitString

/-!
# Hashing positions up to the root through a left frontier

A left-to-right pass over nodes placed at positions of a binary tree, sorted and none above
another, recomputes the root: each node is hashed up to one below the point where its position
parts from the next one, taking at each layer the node left pending there by the positions before
it, or else the sibling given with it; what it reaches is left pending at that layer.

`loop_eq_root`: when the nodes, and the given siblings that no position lies below, are the
values of one function `val` on the tree, and `val` at each position is the `step` of its two
children, the pass ends with `val []` alone on the frontier. The proof is by induction over runs
of positions below one position (`Run`): a run is processed as one node placed at that position
(`loop_run`).
-/

namespace Frontier

open BitString

variable {N : Type}

/-- A node at a position, with the siblings of its path: `siblings[j]` is the sibling at depth
`j + 1`. -/
structure Item (N : Type) where
  path : List Bool
  node : N
  siblings : List N

/-- The node pending at `layer` on top of the frontier, or else `sib`. -/
def takeSibling (pending : List (N × Nat)) (layer : Nat) (sib : N) : N × List (N × Nat) :=
  match pending with
  | (n, l) :: rest => if l = layer then (n, rest) else (sib, pending)
  | [] => (sib, [])

variable (step : Bool → N → N → N)

/-- Hash up from `layer`, one bit at a time and deepest first: `step bit cur sibling` is the node
one layer up, `bit` telling the side of `cur`. -/
def hashUp : List (Bool × N) → Nat → N → List (N × Nat) → N × List (N × Nat)
  | [], _, cur, pending => (cur, pending)
  | (bit, sib) :: rest, layer, cur, pending =>
    let (s, pending) := takeSibling pending layer sib
    hashUp rest (layer - 1) (step bit cur s) pending

/-- The layer an item is hashed up to: one below where it parts from the next, or the top. -/
def endLayer (item : Item N) (next : Option (Item N)) : Nat :=
  (next.map fun n => commonPrefixLen n.path item.path + 1).getD 0

/-- The pass: each item hashed up to its end layer and left pending there. -/
def loop : List (Item N) → List (N × Nat) → List (N × Nat)
  | [], pending => pending
  | item :: rest, pending =>
    let r := hashUp step
      ((item.path.reverse.take (item.path.length - endLayer item rest.head?)).zip
        item.siblings.reverse) item.path.length item.node pending
    loop rest ((r.1, endLayer item rest.head?) :: r.2)

theorem takeSibling_of_lt {pending : List (N × Nat)} {layer : Nat} (sib : N)
    (h : ∀ e ∈ pending, e.2 < layer) : takeSibling pending layer sib = (sib, pending) := by
  cases pending with
  | nil => rfl
  | cons e rest =>
    have he : e.2 ≠ layer := Nat.ne_of_lt (h e (List.mem_cons_self ..))
    simp [takeSibling, he]

theorem hashUp_append (bs₁ bs₂ : List (Bool × N)) (layer : Nat) (cur : N)
    (pending : List (N × Nat)) :
    hashUp step (bs₁ ++ bs₂) layer cur pending =
      let r := hashUp step bs₁ layer cur pending
      hashUp step bs₂ (layer - bs₁.length) r.1 r.2 := by
  induction bs₁ generalizing layer cur pending with
  | nil => rfl
  | cons b bs ih =>
    simp only [List.cons_append, hashUp, ih, List.length_cons]
    rw [Nat.sub_sub, Nat.add_comm 1]

/-- An item that parts from the next one right below its own position leaves its node pending
there unchanged. -/
theorem loop_of_endLayer_eq {item : Item N} {rest : List (Item N)} {pending : List (N × Nat)}
    (h : endLayer item rest.head? = item.path.length) :
    loop step (item :: rest) pending = loop step rest ((item.node, item.path.length) :: pending) := by
  simp [loop, h, hashUp]

/-- The bits and siblings hashed up from depth `L = P.length` through depth `d` and then `u`
layers further. -/
theorem zip_reverse_take {P : List Bool} {s : List N} (hs : s.length = P.length) (d u : Nat) :
    (P.reverse.take (P.length - d + u)).zip s.reverse =
      (P.drop d).reverse.zip (s.drop d).reverse ++ ((P.take d).reverse.take u).zip (s.take d).reverse := by
  have hP : P.reverse = (P.drop d).reverse ++ (P.take d).reverse := by
    rw [← List.reverse_append, List.take_append_drop]
  have hs' : s.reverse = (s.drop d).reverse ++ (s.take d).reverse := by
    rw [← List.reverse_append, List.take_append_drop]
  have hlen : ((P.drop d).reverse).length = P.length - d := by simp
  rw [hP, hs', ← hlen, List.take_length_add_append, List.zip_append (by simp [hs])]

theorem commonPrefixLen_take_of_lt {a b : List Bool} {d : Nat} (h : commonPrefixLen a b < d) :
    commonPrefixLen a (b.take d) = commonPrefixLen a b := by
  obtain ⟨ha, hb, hab⟩ := le_commonPrefixLen_iff.mp (Nat.le_refl (commonPrefixLen a b))
  obtain ⟨ha', hb', hab'⟩ := le_commonPrefixLen_iff.mp (Nat.le_refl (commonPrefixLen a (b.take d)))
  have hd' : commonPrefixLen a (b.take d) ≤ d := by simp at hb'; omega
  apply Nat.le_antisymm
  · -- what `a` shares with a prefix of `b` it shares with `b`
    refine le_commonPrefixLen_iff.mpr ⟨ha', by simp at hb'; omega, ?_⟩
    rw [hab', List.take_take, Nat.min_eq_left hd']
  · refine le_commonPrefixLen_iff.mpr ⟨ha, by simp; omega, ?_⟩
    rw [hab, List.take_take, Nat.min_eq_left (Nat.le_of_lt h)]

/-! ## The tree the pass recomputes -/

/-- The sibling position at depth `j + 1` of the path `p`. -/
def siblingPos (p : List Bool) (j : Nat) : List Bool := p.take j ++ [!(p.getD j false)]

/-- `val` is the node of a tree of depth `W`: at each position above the leaves, the `step` of
its two children. -/
def Hashes (W : Nat) (val : List Bool → N) : Prop :=
  ∀ q b, q.length < W → val q = step b (val (q ++ [b])) (val (q ++ [!b]))

/-- An item's node, and each of its siblings below depth `d` that no item of `S` lies below, are
those of the tree. -/
structure Honest (val : List Bool → N) (S : List (Item N)) (d : Nat) (x : Item N) : Prop where
  node_eq : x.node = val x.path
  length_siblings : x.siblings.length = x.path.length
  sibling_eq : ∀ j, d ≤ j → j < x.path.length → (∀ y ∈ S, ¬ siblingPos x.path j <+: y.path) →
    x.siblings[j]? = some (val (siblingPos x.path j))

theorem siblingPos_append_length (q : List Bool) (b : Bool) :
    siblingPos (q ++ [b]) q.length = q ++ [!b] := by
  simp [siblingPos]

theorem siblingPos_take {p : List Bool} {j m : Nat} (hj : j < m) :
    siblingPos (p.take m) j = siblingPos p j := by
  simp [siblingPos, List.take_take, Nat.min_eq_left (Nat.le_of_lt hj), List.getD_eq_getElem?_getD,
    hj]

theorem getElem?_siblingPos {p : List Bool} {j : Nat} (hj : j ≤ p.length) :
    (siblingPos p j)[j]? = some (!p.getD j false) := by
  rw [siblingPos, List.getElem?_append_right (by rw [List.length_take]; exact Nat.min_le_left _ _)]
  simp [Nat.min_eq_left hj]

theorem getElem?_of_prefix {l₁ l₂ : List Bool} {i : Nat} (h : l₁ <+: l₂) (hi : i < l₁.length) :
    l₂[i]? = l₁[i]? := by
  rw [List.prefix_iff_eq_take.mp h, List.getElem?_take, if_pos hi]

/-- A sibling position is never above the path it is taken from. -/
theorem siblingPos_not_prefix {p : List Bool} {j : Nat} (hj : j < p.length) :
    ¬ siblingPos p j <+: p := by
  intro h
  have hlen : (siblingPos p j).length = j + 1 := by simp [siblingPos]; omega
  have h₁ := getElem?_siblingPos (Nat.le_of_lt hj)
  rw [List.prefix_iff_eq_take.mp h, hlen, List.getElem?_take, if_pos (Nat.lt_succ_self j),
    List.getD_eq_getElem?_getD, List.getElem?_eq_getElem hj] at h₁
  simp at h₁

section Tree

variable {step} {W : Nat} {val : List Bool → N} (hval : Hashes step W val)
include hval

/-- Hashing up with the tree's siblings and nothing pending climbs the tree: from the node at `P`
to the node at its prefix of length `d`. -/
theorem hashUp_chain {d : Nat} {pending : List (N × Nat)} (hpending : ∀ e ∈ pending, e.2 ≤ d) :
    ∀ (n : Nat) (P : List Bool) (s : List N), P.length = d + n → s.length = P.length →
      P.length ≤ W → (∀ j, d ≤ j → j < P.length → s[j]? = some (val (siblingPos P j))) →
      hashUp step ((P.drop d).reverse.zip (s.drop d).reverse) P.length (val P) pending =
        (val (P.take d), pending)
  | 0, P, s, hP, _, _, _ => by
    have hPd : P.length ≤ d := by omega
    simp [List.drop_eq_nil_of_le hPd, hashUp, List.take_of_length_le hPd]
  | n + 1, P, s, hP, hs, hW, hsib => by
    -- peel the deepest bit of `P` and its sibling
    obtain ⟨P', b, rfl⟩ : ∃ P' b, P = P' ++ [b] :=
      ⟨P.dropLast, P.getLast (by intro h; simp [h] at hP), (List.dropLast_append_getLast _).symm⟩
    obtain ⟨s', c, rfl⟩ : ∃ s' c, s = s' ++ [c] :=
      ⟨s.dropLast, s.getLast (by intro h; simp [h] at hs), (List.dropLast_append_getLast _).symm⟩
    simp only [List.length_append, List.length_singleton] at hP hs hW
    have hs' : s'.length = P'.length := by omega
    have hc : c = val (P' ++ [!b]) := by
      have := hsib P'.length (by omega) (by simp)
      rw [siblingPos_append_length, List.getElem?_append_right (by omega), hs', Nat.sub_self] at this
      simpa using this
    have hsib' : ∀ j, d ≤ j → j < P'.length → s'[j]? = some (val (siblingPos P' j)) := by
      intro j hdj hj
      have := hsib j hdj (by simp; omega)
      rwa [List.getElem?_append_left (by omega), ← siblingPos_take (p := P' ++ [b]) hj,
        List.take_append_of_le_length (Nat.le_refl _), List.take_length] at this
    have hstep : step b (val (P' ++ [b])) c = val P' := by
      rw [hc, ← hval P' b (by omega)]
    have hrest := hashUp_chain hpending n P' s' (by omega) (by omega) (by omega) hsib'
    rw [List.drop_append_of_le_length (by omega), List.drop_append_of_le_length (by omega)]
    simp only [List.reverse_append, List.reverse_singleton, List.singleton_append, List.zip_cons_cons,
      hashUp, List.length_append, List.length_singleton]
    rw [takeSibling_of_lt c (fun e he => by have := hpending e he; omega)]
    simp only [Nat.add_sub_cancel, hstep, hrest]
    rw [List.take_append_of_le_length (by omega)]

/-- A node at `P` with the tree's siblings below depth `d` is processed as the node at its
prefix of length `d`, when the next item parts from it above `d` and nothing deeper than `d` is
pending. -/
theorem loop_lift {P : List Bool} {s : List N} {d : Nat} {rest : List (Item N)}
    {st : List (N × Nat)} (hs : s.length = P.length) (hW : P.length ≤ W) (hd : d ≤ P.length)
    (hsib : ∀ j, d ≤ j → j < P.length → s[j]? = some (val (siblingPos P j)))
    (hnext : ∀ y ∈ rest.head?, commonPrefixLen y.path P < d) (hst : ∀ e ∈ st, e.2 ≤ d) :
    loop step (⟨P, val P, s⟩ :: rest) st =
      loop step (⟨P.take d, val (P.take d), s.take d⟩ :: rest) st := by
  have hend : endLayer ⟨P.take d, val (P.take d), s.take d⟩ rest.head? =
      endLayer ⟨P, val P, s⟩ rest.head? := by
    cases hr : rest.head? with
    | none => rfl
    | some y => simp [endLayer, commonPrefixLen_take_of_lt (hnext y hr)]
  have hle : endLayer ⟨P, val P, s⟩ rest.head? ≤ d := by
    cases hr : rest.head? with
    | none => simp [endLayer]
    | some y => have := hnext y hr; simp [endLayer]; omega
  have hlenQ : (P.take d).length = d := by simp; omega
  simp only [loop, hend, hlenQ]
  rw [show P.length - endLayer ⟨P, val P, s⟩ rest.head? =
      P.length - d + (d - endLayer ⟨P, val P, s⟩ rest.head?) by omega,
    zip_reverse_take hs d _, hashUp_append,
    hashUp_chain hval hst (P.length - d) P s (by omega) hs hW hsib]
  have hz : ((P.drop d).reverse.zip (s.drop d).reverse).length = P.length - d := by simp [hs]
  simp only [hz, Nat.sub_sub_self hd]

/-- The left half's node pending at `q ++ [false]` and the right half's node at `q ++ [true]`
merge into the node at `q`, which is then processed like an item placed there. -/
theorem loop_merge {q : List Bool} {s : List N} {rest : List (Item N)} {st : List (N × Nat)}
    {layer : Nat} (hlayer : layer = q.length + 1) (hs : s.length = q.length + 1)
    (hW : q.length < W)
    (hnext : ∀ y ∈ rest.head?, commonPrefixLen y.path (q ++ [true]) < q.length) :
    loop step (⟨q ++ [true], val (q ++ [true]), s⟩ :: rest) ((val (q ++ [false]), layer) :: st) =
      loop step (⟨q, val q, s.take q.length⟩ :: rest) st := by
  subst hlayer
  have hend : endLayer ⟨q, val q, s.take q.length⟩ rest.head? =
      endLayer ⟨q ++ [true], val (q ++ [true]), s⟩ rest.head? := by
    cases hr : rest.head? with
    | none => rfl
    | some y =>
      have := commonPrefixLen_take_of_lt (hnext y hr)
      simp only [List.take_left'] at this
      simp [endLayer, ← this]
  have hle : endLayer ⟨q ++ [true], val (q ++ [true]), s⟩ rest.head? ≤ q.length := by
    cases hr : rest.head? with
    | none => simp [endLayer]
    | some y => have := hnext y hr; simp [endLayer]; omega
  obtain ⟨s', c, rfl⟩ : ∃ s' c, s = s' ++ [c] :=
    ⟨s.dropLast, s.getLast (by intro h; simp [h] at hs), (List.dropLast_append_getLast _).symm⟩
  simp only [List.length_append, List.length_singleton] at hs
  have hs' : s'.length = q.length := by omega
  have hstep : step true (val (q ++ [true])) (val (q ++ [false])) = val q :=
    (hval q true hW).symm
  simp only [loop, hend, List.length_append, List.length_singleton]
  rw [show q.length + 1 - endLayer ⟨q ++ [true], val (q ++ [true]), s' ++ [c]⟩ rest.head? =
      (q.length - endLayer ⟨q ++ [true], val (q ++ [true]), s' ++ [c]⟩ rest.head?) + 1 by omega]
  simp [hs', hashUp, takeSibling, hstep]

end Tree

/-! ## Runs of positions below one position -/

/-- `seg`, from `first` to `last`, is the whole run of items below the position `Q` of depth `d`,
followed by the items `rest`. -/
structure Run (W : Nat) (val : List Bool → N) (d : Nat) (Q : List Bool) (first last : Item N)
    (seg rest : List (Item N)) : Prop where
  head : seg.head? = some first
  getLast : seg.getLast? = some last
  length_eq : Q.length = d
  under : ∀ x ∈ seg, Q <+: x.path
  width : ∀ x ∈ seg, x.path.length ≤ W
  sorted : seg.Pairwise (fun x y => Before x.path y.path)
  next : ∀ y ∈ rest.head?, commonPrefixLen y.path last.path < d
  honest : ∀ x ∈ seg, Honest val seg d x

/-- The items whose path has bit `b` at depth `m`. -/
def side (m : Nat) (b : Bool) (l : List (Item N)) : List (Item N) :=
  l.filter (fun x => x.path.getD m false == b)

theorem mem_side {m : Nat} {b : Bool} {l : List (Item N)} {x : Item N} :
    x ∈ side m b l ↔ x ∈ l ∧ x.path.getD m false = b := by
  simp [side]

theorem side_cons (m : Nat) (b : Bool) (x : Item N) (xs : List (Item N)) :
    side m b (x :: xs) =
      if x.path.getD m false = b then x :: side m b xs else side m b xs := by
  simp only [side, List.filter_cons, beq_iff_eq]

/-- A list splits into the items with bit `0` at depth `m` followed by those with bit `1` when
no item with bit `1` comes before one with bit `0`. -/
theorem side_append_side {m : Nat} {l : List (Item N)}
    (h : l.Pairwise (fun x y => y.path.getD m false = false → x.path.getD m false = false)) :
    side m false l ++ side m true l = l := by
  induction l with
  | nil => rfl
  | cons x xs ih =>
    obtain ⟨hx, hxs⟩ := List.pairwise_cons.mp h
    cases hbx : x.path.getD m false
    · rw [side_cons, side_cons, if_pos hbx, if_neg (by rw [hbx]; decide), List.cons_append, ih hxs]
    · -- everything after an item with bit `1` has bit `1`
      have hall : ∀ y ∈ xs, y.path.getD m false = true := fun y hy => by
        by_contra hy'
        have := hx y hy (by simpa using hy')
        rw [hbx] at this
        cases this
      have h₁ : side m false xs = [] :=
        List.filter_eq_nil_iff.mpr fun y hy => by simp only [hall y hy]; decide
      have h₂ : side m true xs = xs :=
        List.filter_eq_self.mpr fun y hy => by simp only [hall y hy]; decide
      rw [side_cons, side_cons, if_neg (by rw [hbx]; decide), if_pos hbx, h₁, h₂, List.nil_append]

section Run

variable {W : Nat} {val : List Bool → N} {d : Nat} {Q : List Bool} {first last : Item N}
  {seg rest : List (Item N)}

theorem Run.first_mem (hr : Run W val d Q first last seg rest) : first ∈ seg :=
  List.mem_of_mem_head? hr.head

theorem Run.last_mem (hr : Run W val d Q first last seg rest) : last ∈ seg :=
  List.mem_of_mem_getLast? hr.getLast

theorem Run.first_eq_or_before (hr : Run W val d Q first last seg rest) {x : Item N}
    (hx : x ∈ seg) : x = first ∨ Before first.path x.path := by
  cases seg with
  | nil => cases hr.head
  | cons g tl =>
    cases hr.head
    rcases List.mem_cons.mp hx with rfl | hx
    · exact Or.inl rfl
    · exact Or.inr ((List.pairwise_cons.mp hr.sorted).1 x hx)

theorem Run.eq_last_or_before (hr : Run W val d Q first last seg rest) {x : Item N}
    (hx : x ∈ seg) : x = last ∨ Before x.path last.path := by
  have hrev := List.pairwise_reverse.mpr hr.sorted
  have hhead : seg.reverse.head? = some last := by rw [List.head?_reverse]; exact hr.getLast
  cases hs : seg.reverse with
  | nil => rw [hs] at hhead; cases hhead
  | cons g tl =>
    rw [hs] at hhead hrev
    cases hhead
    rcases List.mem_cons.mp (hs ▸ List.mem_reverse.mpr hx) with rfl | hx'
    · exact Or.inl rfl
    · exact Or.inr ((List.pairwise_cons.mp hrev).1 x hx')

/-- Every item of a run shares the prefix its first and last item share. -/
theorem Run.take_eq_first (hr : Run W val d Q first last seg rest) {m : Nat}
    (hm : m ≤ commonPrefixLen first.path last.path) {x : Item N} (hx : x ∈ seg) :
    x.path.take m = first.path.take m := by
  refine take_eq_of_between ?_ ?_ hm
  · rcases hr.first_eq_or_before hx with rfl | h
    · exact Or.inr rfl
    · exact Or.inl h
  · rcases hr.eq_last_or_before hx with rfl | h
    · exact Or.inr rfl
    · exact Or.inl h

theorem Run.first_before_last (hr : Run W val d Q first last seg rest) (h2 : 2 ≤ seg.length) :
    Before first.path last.path := by
  match seg, hr, h2 with
  | g :: tl, hr, h2 =>
    have hg : g = first := Option.some.inj hr.head
    have htl : tl ≠ [] := by rintro rfl; simp at h2
    -- the last item is in the tail, after the first
    have hlast : last ∈ tl := by
      have hl := hr.getLast
      obtain ⟨z, hz⟩ : ∃ z, tl.getLast? = some z :=
        ⟨tl.getLast htl, List.getLast?_eq_some_getLast htl⟩
      rw [List.getLast?_cons, hz, Option.getD_some, Option.some.injEq] at hl
      subst hl
      exact List.mem_of_mem_getLast? hz
    subst hg
    exact (List.pairwise_cons.mp hr.sorted).1 last hlast

theorem getElem?_of_siblingPos_prefix {p y : List Bool} {i j : Nat} (h : siblingPos p j <+: y)
    (hij : i < j) (hj : j ≤ p.length) : y[i]? = p[i]? := by
  have hlen : (siblingPos p j).length = j + 1 := by simp [siblingPos]; omega
  have hy := List.prefix_iff_eq_take.mp h
  have h₁ : (siblingPos p j)[i]? = p[i]? := by
    rw [siblingPos, List.getElem?_append_left (by simp; omega), List.getElem?_take, if_pos hij]
  rw [← h₁, hy, hlen, List.getElem?_take, if_pos (by omega)]

theorem Run.le_commonPrefixLen (hr : Run W val d Q first last seg rest) :
    d ≤ commonPrefixLen first.path last.path := by
  have hf := hr.under first hr.first_mem
  have hl := hr.under last hr.last_mem
  refine le_commonPrefixLen_iff.mpr ⟨?_, ?_, ?_⟩
  · rw [← hr.length_eq]; exact hf.length_le
  · rw [← hr.length_eq]; exact hl.length_le
  · rw [← hr.length_eq, ← List.prefix_iff_eq_take.mp hf, ← List.prefix_iff_eq_take.mp hl]

/-- Every item of a run of two or more goes on past the point where its first and last items
part. -/
theorem Run.lt_length (hr : Run W val d Q first last seg rest) (h2 : 2 ≤ seg.length)
    {x : Item N} (hx : x ∈ seg) : commonPrefixLen first.path last.path < x.path.length := by
  have hbl := hr.first_before_last h2
  rcases hr.first_eq_or_before hx with rfl | hb
  · exact hbl.lt_length_left
  · by_contra hle
    have hxp : x.path <+: first.path := by
      rw [← List.take_of_length_le (Nat.le_of_not_lt hle), hr.take_eq_first (Nat.le_refl _) hx]
      exact List.take_prefix _ _
    exact hb.not_isPrefix_symm hxp

theorem Run.getElem?_of_mem_side (hr : Run W val d Q first last seg rest) (h2 : 2 ≤ seg.length)
    {b : Bool} {x : Item N} (hx : x ∈ side (commonPrefixLen first.path last.path) b seg) :
    x.path[commonPrefixLen first.path last.path]? = some b := by
  obtain ⟨hxs, hb⟩ := mem_side.mp hx
  rw [List.getElem?_eq_getElem (hr.lt_length h2 hxs)]
  rw [List.getD_eq_getElem?_getD, List.getElem?_eq_getElem (hr.lt_length h2 hxs)] at hb
  simpa using hb

theorem Run.take_succ_of_mem_side (hr : Run W val d Q first last seg rest) (h2 : 2 ≤ seg.length)
    {b : Bool} {x : Item N} (hx : x ∈ side (commonPrefixLen first.path last.path) b seg) :
    x.path.take (commonPrefixLen first.path last.path + 1) =
      first.path.take (commonPrefixLen first.path last.path) ++ [b] := by
  rw [List.take_add_one, hr.take_eq_first (Nat.le_refl _) (mem_side.mp hx).1,
    hr.getElem?_of_mem_side h2 hx]
  rfl

/-- A run of two or more splits at the point where its first and last items part: the items with
bit `0` there, then those with bit `1`. -/
theorem Run.side_append_side (hr : Run W val d Q first last seg rest) (h2 : 2 ≤ seg.length) :
    side (commonPrefixLen first.path last.path) false seg ++
      side (commonPrefixLen first.path last.path) true seg = seg := by
  apply Frontier.side_append_side
  refine hr.sorted.imp_of_mem fun {x y} hx hy hxy hby => ?_
  have hxm := hr.lt_length h2 hx
  have hym := hr.lt_length h2 hy
  have hle : commonPrefixLen first.path last.path ≤ commonPrefixLen x.path y.path :=
    le_commonPrefixLen_iff.mpr ⟨Nat.le_of_lt hxm, Nat.le_of_lt hym,
      (hr.take_eq_first (Nat.le_refl _) hx).trans (hr.take_eq_first (Nat.le_refl _) hy).symm⟩
  rcases Nat.lt_or_eq_of_le hle with hlt | heq
  · simp only [List.getD_eq_getElem?_getD] at hby ⊢
    rw [getElem?_eq_of_lt_commonPrefixLen hlt]
    exact hby
  · simp only [List.getD_eq_getElem?_getD]
    rw [heq, hxy.1]
    rfl

/-- Each side of a split run of two or more is a run below one bit further. -/
theorem Run.onSide (hr : Run W val d Q first last seg rest) (h2 : 2 ≤ seg.length) (b : Bool)
    {f l : Item N} {rest' : List (Item N)}
    (hf : (side (commonPrefixLen first.path last.path) b seg).head? = some f)
    (hl : (side (commonPrefixLen first.path last.path) b seg).getLast? = some l)
    (hnext : ∀ y ∈ rest'.head?,
      commonPrefixLen y.path l.path < commonPrefixLen first.path last.path + 1) :
    Run W val (commonPrefixLen first.path last.path + 1)
      (first.path.take (commonPrefixLen first.path last.path) ++ [b]) f l
      (side (commonPrefixLen first.path last.path) b seg) rest' where
  head := hf
  getLast := hl
  length_eq := by
    have := hr.lt_length h2 hr.first_mem
    simp
    omega
  under x hx := by
    rw [← hr.take_succ_of_mem_side h2 hx]
    exact List.take_prefix _ _
  width x hx := hr.width x (mem_side.mp hx).1
  sorted := hr.sorted.sublist List.filter_sublist
  next := hnext
  honest x hx := by
    have hxs := (mem_side.mp hx).1
    have hh := hr.honest x hxs
    have hdm := hr.le_commonPrefixLen
    refine ⟨hh.node_eq, hh.length_siblings, fun j hj hjl hno => hh.sibling_eq j (by omega) hjl
      fun y hy hyp => hno y (mem_side.mpr ⟨hy, ?_⟩) hyp⟩
    -- below the parting point, an item under a sibling of `x` is on the side of `x`
    have hym := getElem?_of_siblingPos_prefix (i := commonPrefixLen first.path last.path) hyp
      (by omega) (Nat.le_of_lt hjl)
    rw [hr.getElem?_of_mem_side h2 hx] at hym
    simp [List.getD_eq_getElem?_getD, hym]

end Run


/-! ## The pass recomputes the root -/

section Pass

variable {step} {W : Nat} {val : List Bool → N} (hval : Hashes step W val)
include hval

/-- A run of items below `Q` is processed as one node placed at `Q`, with the siblings of the
run's last item above `Q`, when nothing deeper than `Q` is pending. -/
theorem loop_run : ∀ (n : Nat) (seg : List (Item N)) (d : Nat) (Q : List Bool)
    (first last : Item N) (rest : List (Item N)) (st : List (N × Nat)),
    seg.length ≤ n → Run W val d Q first last seg rest → (∀ e ∈ st, e.2 ≤ d) →
    loop step (seg ++ rest) st = loop step (⟨Q, val Q, last.siblings.take d⟩ :: rest) st
  | 0, seg, d, Q, first, last, rest, st, hn, hr, _ => by
    have := List.length_pos_of_mem hr.first_mem
    omega
  | n + 1, seg, d, Q, first, last, rest, st, hn, hr, hst => by
    by_cases h2 : 2 ≤ seg.length
    · -- a run of two or more: its left side, then its right side, then the merge and the climb
      have hdm := hr.le_commonPrefixLen
      have hmW : commonPrefixLen first.path last.path < W :=
        Nat.lt_of_lt_of_le (hr.lt_length h2 hr.first_mem) (hr.width first hr.first_mem)
      have hsplit := hr.side_append_side h2
      have hbl := hr.first_before_last h2
      have hfirst₀ : first ∈ side (commonPrefixLen first.path last.path) false seg :=
        mem_side.mpr ⟨hr.first_mem, by simp [List.getD_eq_getElem?_getD, hbl.1]⟩
      have hlast₁ : last ∈ side (commonPrefixLen first.path last.path) true seg :=
        mem_side.mpr ⟨hr.last_mem, by simp [List.getD_eq_getElem?_getD, hbl.2]⟩
      obtain ⟨l₀, hl₀⟩ : ∃ l₀, (side (commonPrefixLen first.path last.path) false seg).getLast? =
          some l₀ := ⟨_, List.getLast?_eq_some_getLast (List.ne_nil_of_mem hfirst₀)⟩
      obtain ⟨f₁, hf₁⟩ : ∃ f₁, (side (commonPrefixLen first.path last.path) true seg).head? =
          some f₁ := ⟨_, List.head?_eq_some_head (List.ne_nil_of_mem hlast₁)⟩
      have hhead₀ : (side (commonPrefixLen first.path last.path) false seg).head? = some first := by
        have h := hr.head
        rw [← hsplit, List.head?_append] at h
        cases hh : (side (commonPrefixLen first.path last.path) false seg).head? with
        | none => simp [List.head?_eq_none_iff.mp hh] at hfirst₀
        | some g => rw [hh] at h; simpa using h
      have hlast₁' : (side (commonPrefixLen first.path last.path) true seg).getLast? = some last := by
        have h := hr.getLast
        rw [← hsplit, List.getLast?_append] at h
        cases hh : (side (commonPrefixLen first.path last.path) true seg).getLast? with
        | none => simp [List.getLast?_eq_none_iff.mp hh] at hlast₁
        | some g => rw [hh] at h; simpa using h
      have hl₀mem := List.mem_of_mem_getLast? hl₀
      have hf₁mem := List.mem_of_mem_head? hf₁
      have hf₁m := hr.getElem?_of_mem_side h2 hf₁mem
      have hf₁take := hr.take_eq_first (Nat.le_refl _) (mem_side.mp hf₁mem).1
      have hcpl : commonPrefixLen f₁.path l₀.path = commonPrefixLen first.path last.path :=
        commonPrefixLen_eq_of_getElem? hf₁m (hr.getElem?_of_mem_side h2 hl₀mem) (by decide)
          (hf₁take.trans (hr.take_eq_first (Nat.le_refl _) (mem_side.mp hl₀mem).1).symm)
      have hnext₀ : (side (commonPrefixLen first.path last.path) true seg ++ rest).head? =
          some f₁ := by
        rw [List.head?_append, hf₁]
        rfl
      have hr₀ := hr.onSide h2 false hhead₀ hl₀
        (fun y (hy : y ∈ (side (commonPrefixLen first.path last.path) true seg ++ rest).head?) => by
          rw [hnext₀, Option.mem_def, Option.some.injEq] at hy
          subst hy
          omega)
      have hr₁ := hr.onSide h2 true hf₁ hlast₁' (fun y (hy : y ∈ rest.head?) => by
        have := hr.next y hy
        omega)
      have hfirstm := hr.lt_length h2 hr.first_mem
      have hlastm := hr.lt_length h2 hr.last_mem
      have hlast := hr.honest last hr.last_mem
      have hlastSucc := hr.take_succ_of_mem_side h2 hlast₁
      have hlastTake := hr.take_eq_first (Nat.le_refl _) hr.last_mem
      generalize hm : commonPrefixLen first.path last.path = m at *
      have hlen₀ : (side m false seg).length ≤ n := by
        have hl := congrArg List.length hsplit
        have := List.length_pos_of_mem hlast₁
        rw [List.length_append] at hl
        omega
      have hlen₁ : (side m true seg).length ≤ n := by
        have hl := congrArg List.length hsplit
        have := List.length_pos_of_mem hfirst₀
        rw [List.length_append] at hl
        omega
      have hq : (first.path.take m).length = m := by simp; omega
      -- the left side parts from the right one right below its own position
      have hend₀ : endLayer ⟨first.path.take m ++ [false], val (first.path.take m ++ [false]),
          l₀.siblings.take (m + 1)⟩ (side m true seg ++ rest).head? = m + 1 := by
        have hQ₀m : (first.path.take m ++ [false])[m]? = some false := by simp [hq]
        have hQ₀take : (first.path.take m ++ [false]).take m = first.path.take m := by
          rw [List.take_append_of_le_length (Nat.le_of_eq hq.symm), List.take_of_length_le
            (Nat.le_of_eq hq)]
        have : commonPrefixLen f₁.path (first.path.take m ++ [false]) = m :=
          commonPrefixLen_eq_of_getElem? hf₁m hQ₀m (by decide) (hf₁take.trans hQ₀take.symm)
        simp [endLayer, hnext₀, this]
      rw [← hsplit, List.append_assoc, loop_run n _ _ _ _ _ _ st hlen₀ hr₀
        (fun e he => by have := hst e he; omega),
        loop_of_endLayer_eq step (by simpa [hq] using hend₀),
        loop_run n _ _ _ _ _ _ _ hlen₁ hr₁ (fun e he => by
          rcases List.mem_cons.mp he with rfl | he
          · simp [hq]
          · have := hst e he; omega)]
      dsimp only
      rw [loop_merge hval (q := first.path.take m) (by simp [hq]) (by simp [hlast.length_siblings]; omega)
          (by omega) (fun y hy => by
            have := hr.next y hy
            rw [hq, ← hlastSucc, commonPrefixLen_take_of_lt (by omega)]
            omega),
        loop_lift hval (d := d) (by simp [hlast.length_siblings, hq]; omega) (by omega) (by omega)
          (fun j hdj hj => ?_) (fun y hy => ?_) hst]
      · have hQ : (first.path.take m).take d = Q := by
          have := List.prefix_iff_eq_take.mp (hr.under first hr.first_mem)
          rw [hr.length_eq] at this
          rw [List.take_take, Nat.min_eq_left hdm, ← this]
        simp [hQ, hq, List.take_take, Nat.min_eq_left (by omega : d ≤ m)]
      · -- the chain's siblings are those of the last item, where no item of the run lies
        rw [hq] at hj
        have hsp : siblingPos (first.path.take m) j = siblingPos last.path j := by
          rw [← siblingPos_take (p := last.path) hj, hlastTake]
        simp only [List.getElem?_take, hq, if_pos hj, if_pos (Nat.lt_succ_of_lt hj), hsp]
        refine hlast.sibling_eq j hdj (by omega) fun y hy hyp => ?_
        have hyj := getElem?_of_prefix (i := j) hyp (by simp [siblingPos]; omega)
        rw [getElem?_siblingPos (p := last.path) (j := j) (by omega), ← List.getElem?_take_of_lt (Nat.lt_of_lt_of_le hj
          (Nat.le_refl m)), hr.take_eq_first (m := m) (by omega) hy, ← hlastTake,
          List.getElem?_take_of_lt hj, List.getD_eq_getElem?_getD,
          List.getElem?_eq_getElem (by omega)] at hyj
        simp at hyj
      · have := hr.next y hy
        rw [← hlastTake, commonPrefixLen_take_of_lt (by omega)]
        exact this
    · -- a run of one item
      obtain ⟨x, rfl⟩ : ∃ x, seg = [x] :=
        List.length_eq_one_iff.mp (by have := List.length_pos_of_mem hr.first_mem; omega)
      have hfirst : first = x := by simpa using hr.head.symm
      have hlast : last = x := by simpa using hr.getLast.symm
      subst first last
      have hx := hr.honest x (List.mem_singleton_self _)
      have hQ : x.path.take d = Q := by
        rw [← hr.length_eq, ← List.prefix_iff_eq_take.mp (hr.under x (List.mem_singleton_self _))]
      have hd : d ≤ x.path.length := by
        rw [← hr.length_eq]
        exact (hr.under x (List.mem_singleton_self _)).length_le
      have hnode : x = ⟨x.path, val x.path, x.siblings⟩ := by rw [← hx.node_eq]
      rw [List.singleton_append, hnode, ← hQ]
      refine loop_lift hval hx.length_siblings (hr.width _ (List.mem_singleton_self _)) hd
        (fun j hdj hj => hx.sibling_eq j hdj hj fun y hy => ?_) hr.next hst
      rw [List.mem_singleton] at hy
      subst hy
      exact siblingPos_not_prefix hj

/-- The pass over sorted positions, none above another, whose nodes and siblings are those of the
tree, leaves the tree's root alone on the frontier. -/
theorem loop_eq_root {items : List (Item N)} (hne : items ≠ [])
    (hsorted : items.Pairwise (fun x y => Before x.path y.path))
    (hwidth : ∀ x ∈ items, x.path.length ≤ W) (hhonest : ∀ x ∈ items, Honest val items 0 x) :
    loop step items [] = [(val [], 0)] := by
  obtain ⟨first, hfirst⟩ : ∃ f, items.head? = some f := ⟨_, List.head?_eq_some_head hne⟩
  obtain ⟨last, hlast⟩ : ∃ l, items.getLast? = some l := ⟨_, List.getLast?_eq_some_getLast hne⟩
  have hr : Run W val 0 [] first last items [] :=
    { head := hfirst
      getLast := hlast
      length_eq := rfl
      under := fun _ _ => List.nil_prefix
      width := hwidth
      sorted := hsorted
      next := by simp
      honest := hhonest }
  have hrun := loop_run hval items.length items 0 [] first last [] [] (Nat.le_refl _) hr (by simp)
  rw [List.append_nil] at hrun
  rw [hrun]
  simp [loop, endLayer, hashUp]

end Pass

end Frontier

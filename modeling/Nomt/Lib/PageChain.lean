import Mathlib.Data.List.Induction
import Nomt.Lib.Undo

/-!
# Lists kept as chains of pages

A list of nodes kept in a store, each node at its own address together with the address of the
node before it, the first node pointing at a nil address: a singly linked list, read from the
address of its last node back (`walk`). The walk takes fuel, since a store may hold a cycle.

`chain prev l` lists what a store holds for `l`. A walk over a store that loads those entries
reads `l` back, last node first, when no node sits at the nil address: with fuel for its nodes it
succeeds (`walk_chain`), and whatever it returns is `l` (`eq_of_walk_eq_some`), so a store that
may also fail to load still never reads back another list.

A store holds a list (`Holds`) when the value at each entry's address stands for the entry. Writing
the chain of new nodes after a list the store holds, at addresses apart from the list's, gives a
store that holds both in turn (`Holds.write_chain`).
-/

namespace PageChain

variable {α β : Type}

/-- The entries that keep `l`: each node at its address, with the address of the node before it,
`prev` for the first. -/
def chain (prev : α) : List (α × β) → List (α × (α × β))
  | [] => []
  | (a, b) :: l => (a, (prev, b)) :: chain a l

/-- The address of the last node of `l`, `prev` when there is none. -/
def lastAddr (prev : α) (l : List (α × β)) : α :=
  (l.getLast?.map Prod.fst).getD prev

@[simp] theorem chain_nil (prev : α) : chain prev ([] : List (α × β)) = [] := rfl

@[simp] theorem chain_cons (prev a : α) (b : β) (l : List (α × β)) :
    chain prev ((a, b) :: l) = (a, (prev, b)) :: chain a l := rfl

@[simp] theorem chain_singleton (prev : α) (x : α × β) : chain prev [x] = [(x.1, (prev, x.2))] :=
  rfl

@[simp] theorem lastAddr_nil (prev : α) : lastAddr prev ([] : List (α × β)) = prev := rfl

@[simp] theorem lastAddr_concat (prev : α) (l : List (α × β)) (x : α × β) :
    lastAddr prev (l ++ [x]) = x.1 := by
  simp [lastAddr]

theorem lastAddr_cons (prev a : α) (b : β) (l : List (α × β)) :
    lastAddr prev ((a, b) :: l) = lastAddr a l := by
  rw [lastAddr, lastAddr, List.getLast?_cons]
  cases l.getLast? <;> rfl

/-- The chain of two lists in turn: the second goes on from the last address of the first. -/
theorem chain_append (prev : α) (l l' : List (α × β)) :
    chain prev (l ++ l') = chain prev l ++ chain (lastAddr prev l) l' := by
  induction l generalizing prev with
  | nil => rfl
  | cons x l ih =>
    obtain ⟨a, b⟩ := x
    rw [List.cons_append, chain_cons, chain_cons, ih, lastAddr_cons, List.cons_append]

theorem mem_chain_append_left {prev : α} {l l' : List (α × β)} {e : α × (α × β)}
    (he : e ∈ chain prev l) : e ∈ chain prev (l ++ l') := by
  rw [chain_append]
  exact List.mem_append_left _ he

/-- The last node of a list is kept over the address of the node before it. -/
theorem mem_chain_concat (prev : α) (l : List (α × β)) (x : α × β) :
    (x.1, (lastAddr prev l, x.2)) ∈ chain prev (l ++ [x]) := by
  simp [chain_append]

@[simp] theorem map_fst_chain (prev : α) (l : List (α × β)) :
    (chain prev l).map Prod.fst = l.map Prod.fst := by
  induction l generalizing prev with
  | nil => rfl
  | cons x l ih =>
    obtain ⟨a, b⟩ := x
    simp [ih]

/-- Each entry of the chain keeps a node of the list at its address. -/
theorem mem_of_mem_chain {prev : α} {l : List (α × β)} {e : α × (α × β)} (he : e ∈ chain prev l) :
    (e.1, e.2.2) ∈ l := by
  induction l generalizing prev with
  | nil => cases he
  | cons x l ih =>
    obtain ⟨a, b⟩ := x
    rcases List.mem_cons.mp he with rfl | he
    · exact List.mem_cons_self ..
    · exact List.mem_cons_of_mem _ (ih he)

/-! ### Stores holding a chain -/

section Holds

variable {γ : Type}

/-- The store `s` holds the chain of `l` when the value at each entry's address stands, by `R`,
for the entry. -/
def Holds (s : α → γ) (R : γ → α × β → Prop) (prev : α) (l : List (α × β)) : Prop :=
  ∀ e ∈ chain prev l, R (s e.1) e.2

theorem Holds.of_prefix {s : α → γ} {R : γ → α × β → Prop} {prev : α} {K l : List (α × β)}
    (h : Holds s R prev l) (hK : K <+: l) : Holds s R prev K := by
  obtain ⟨rest, rfl⟩ := hK
  exact fun e he => h e (mem_chain_append_left he)

/-- Writing the chain of `U` after the list `K` the store holds, at addresses apart from those of
`K` and from one another, gives a store that holds `K ++ U`. -/
theorem Holds.write_chain [DecidableEq α] {s : α → γ} {R : γ → α × β → Prop} {nil : α}
    {K U : List (α × β)} (hK : Holds s R nil K) (enc : α × β → γ) (henc : ∀ node, R (enc node) node)
    (hnodup : ((K ++ U).map Prod.fst).Nodup) :
    Holds (Undo.write s ((chain (lastAddr nil K) U).map fun e => (e.1, enc e.2))) R nil (K ++ U) := by
  have hkeys : ((chain (lastAddr nil K) U).map fun e => (e.1, enc e.2)).map Prod.fst =
      U.map Prod.fst := by
    rw [List.map_map]
    exact map_fst_chain _ U
  rw [List.map_append] at hnodup
  intro e he
  rw [chain_append] at he
  rcases List.mem_append.mp he with he | he
  · -- an entry of `K`, whose address the writes leave alone
    have hmem : e.1 ∈ K.map Prod.fst := List.mem_map_of_mem (f := Prod.fst) (mem_of_mem_chain he)
    rw [Undo.write_apply_of_not_mem (by rw [hkeys]; exact List.disjoint_of_nodup_append hnodup hmem)]
    exact hK e he
  · -- an entry of `U`, which the writes put in place
    have hw := Undo.write_apply_of_mem (s := s) (by rw [hkeys]; exact hnodup.of_append_right)
      (List.mem_map_of_mem (f := fun e => (e.1, enc e.2)) he)
    rw [hw]
    exact henc e.2

end Holds

variable [DecidableEq α]

/-- Read back from the node at `a` until the nil address, with fuel for as many nodes: each node
read is appended to `acc`, its address with its payload. `none` when a node fails to load or the
fuel runs out. -/
def walk (load : α → Option (α × β)) (nil : α) : Nat → α → List (α × β) → Option (List (α × β))
  | 0, _, _ => none
  | fuel + 1, a, acc =>
    if a = nil then some acc
    else (load a).bind fun node => walk load nil fuel node.1 (acc ++ [(a, node.2)])

variable {load : α → Option (α × β)} {nil : α}

theorem walk_succ_nil (fuel : Nat) (acc : List (α × β)) :
    walk load nil (fuel + 1) nil acc = some acc := by
  rw [walk, if_pos rfl]

theorem walk_succ_of_ne {a : α} (ha : a ≠ nil) (fuel : Nat) (acc : List (α × β)) :
    walk load nil (fuel + 1) a acc =
      (load a).bind fun node => walk load nil fuel node.1 (acc ++ [(a, node.2)]) := by
  rw [walk, if_neg ha]

/-- A walk over a store that loads the chain of `l` reads `l` back, last node first, given fuel
for its nodes and its end. -/
theorem walk_chain {l : List (α × β)} (hload : ∀ e ∈ chain nil l, load e.1 = some e.2)
    (hne : ∀ x ∈ l, x.1 ≠ nil) {fuel : Nat} (hfuel : l.length < fuel) (acc : List (α × β)) :
    walk load nil fuel (lastAddr nil l) acc = some (acc ++ l.reverse) := by
  -- induction on the list from its last node, the one the walk reads first
  induction l using List.reverseRecOn generalizing fuel acc with
  | nil =>
    obtain ⟨fuel, rfl⟩ : ∃ f, fuel = f + 1 := ⟨fuel - 1, by simp at hfuel; omega⟩
    rw [lastAddr_nil, walk_succ_nil, List.reverse_nil, List.append_nil]
  | append_singleton l x ih =>
    obtain ⟨fuel, rfl⟩ : ∃ f, fuel = f + 1 := ⟨fuel - 1, by simp at hfuel; omega⟩
    have hx : load x.1 = some (lastAddr nil l, x.2) := hload _ (mem_chain_concat nil l x)
    rw [lastAddr_concat, walk_succ_of_ne (hne x (by simp)), hx, Option.bind_some,
      ih (fun e he => hload e (mem_chain_append_left he))
        (fun y hy => hne y (List.mem_append_left _ hy)) (by simp at hfuel; omega)]
    simp

/-- Whatever a walk returns over a store that, wherever it loads a node of the chain of `l`,
loads that node's entry, is `l` read back: a store can fail the walk, but not mislead it. -/
theorem eq_of_walk_eq_some {l : List (α × β)}
    (hload : ∀ e ∈ chain nil l, ∀ node, load e.1 = some node → node = e.2)
    (hne : ∀ x ∈ l, x.1 ≠ nil) {fuel : Nat} {acc r : List (α × β)}
    (h : walk load nil fuel (lastAddr nil l) acc = some r) : r = acc ++ l.reverse := by
  induction l using List.reverseRecOn generalizing fuel acc with
  | nil =>
    cases fuel with
    | zero => cases h
    | succ fuel =>
      rw [lastAddr_nil, walk_succ_nil] at h
      cases h
      simp
  | append_singleton l x ih =>
    cases fuel with
    | zero => cases h
    | succ fuel =>
      rw [lastAddr_concat, walk_succ_of_ne (hne x (by simp))] at h
      obtain ⟨node, hnode, h⟩ := Option.bind_eq_some_iff.mp h
      have hx : node = (lastAddr nil l, x.2) := hload _ (mem_chain_concat nil l x) node hnode
      subst hx
      rw [ih (fun e he => hload e (mem_chain_append_left he))
        (fun y hy => hne y (List.mem_append_left _ hy)) h]
      simp

end PageChain

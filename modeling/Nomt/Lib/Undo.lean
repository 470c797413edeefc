import Mathlib.Data.List.Destutter
import Mathlib.Data.List.Sort
import Mathlib.Data.List.Nodup
import Mathlib.Logic.Function.Basic

/-!
# Undoing writes to a key-value state

A state maps keys to values, and a list of writes is applied entry by entry (`write`), a later
entry for a key replacing an earlier one. An undo record lists, for some keys, the value each
had before a change. Written back, it restores the state when it names every written key and
holds the values the state had (`write_write_of_record`). Writing a list twice writes it once
(`write_write_self`): a written key's value depends only on the writes.

Records of several changes are merged into one map, newest first, an older record's entry
replacing a newer one's for the same key (`insertAll`); writing the merged map back is writing
the records back one after another, newest first (`write_foldl_insertAll`). `Undoes` relates a
list of records to the states they lead back through, and `write_merge_of_undoes` says that the
merge of the newest `n` records leads back `n` states.
-/

namespace Undo

variable {K V : Type} [DecidableEq K]

/-- Apply a list of writes, each entry replacing its key's value. -/
def write (s : K → V) (ws : List (K × V)) : K → V :=
  ws.foldl (fun s e => Function.update s e.1 e.2) s

@[simp] theorem write_nil (s : K → V) : write s [] = s := rfl

@[simp] theorem write_cons (s : K → V) (e : K × V) (ws : List (K × V)) :
    write s (e :: ws) = write (Function.update s e.1 e.2) ws := rfl

theorem write_append (s : K → V) (ws ws' : List (K × V)) :
    write s (ws ++ ws') = write (write s ws) ws' :=
  List.foldl_append

/-- A key that no entry writes keeps its value. -/
theorem write_apply_of_not_mem {s : K → V} {ws : List (K × V)} {k : K}
    (hk : k ∉ ws.map Prod.fst) : write s ws k = s k := by
  induction ws generalizing s with
  | nil => rfl
  | cons e ws ih =>
    simp only [List.map_cons, List.mem_cons, not_or] at hk
    rw [write_cons, ih hk.2, Function.update_of_ne hk.1]

/-- A written key every entry of which writes `v` ends with `v`. -/
theorem write_apply_of_forall {s : K → V} {ws : List (K × V)} {k : K} {v : V}
    (hk : k ∈ ws.map Prod.fst) (hv : ∀ e ∈ ws, e.1 = k → e.2 = v) : write s ws k = v := by
  induction ws generalizing s with
  | nil => simp at hk
  | cons e ws ih =>
    rw [write_cons]
    by_cases hrest : k ∈ ws.map Prod.fst
    · exact ih hrest fun e' he' => hv e' (List.mem_cons_of_mem _ he')
    · -- the head is the only entry for `k`
      have he : e.1 = k := by
        simp only [List.map_cons, List.mem_cons] at hk
        rcases hk with h | h
        · exact h.symm
        · exact absurd h hrest
      rw [write_apply_of_not_mem hrest, he, Function.update_self]
      exact hv e List.mem_cons_self he

/-- The value at `j` after the writes depends on the state only at `j`. -/
theorem write_apply_congr {s s' : K → V} (ws : List (K × V)) {j : K} (h : s j = s' j) :
    write s ws j = write s' ws j := by
  induction ws generalizing s s' with
  | nil => exact h
  | cons e ws ih =>
    refine ih ?_
    show Function.update s e.1 e.2 j = Function.update s' e.1 e.2 j
    by_cases hj : j = e.1
    · subst hj
      rw [Function.update_self, Function.update_self]
    · rw [Function.update_of_ne hj, Function.update_of_ne hj, h]

/-- A written key's value after the writes does not depend on the state. -/
theorem write_apply_of_mem_keys {s s' : K → V} {ws : List (K × V)} {k : K}
    (hk : k ∈ ws.map Prod.fst) : write s ws k = write s' ws k := by
  induction ws generalizing s s' with
  | nil => simp at hk
  | cons e ws ih =>
    rw [write_cons, write_cons]
    by_cases hrest : k ∈ ws.map Prod.fst
    · exact ih hrest
    · -- the head is the last entry for `k`
      have he : k = e.1 := by
        simp only [List.map_cons, List.mem_cons] at hk
        exact hk.resolve_right hrest
      rw [write_apply_of_not_mem hrest, write_apply_of_not_mem hrest, he, Function.update_self,
        Function.update_self]

/-- Writing a list of writes a second time changes nothing. -/
theorem write_write_self (s : K → V) (ws : List (K × V)) : write (write s ws) ws = write s ws := by
  funext k
  by_cases hk : k ∈ ws.map Prod.fst
  · exact write_apply_of_mem_keys hk
  · exact write_apply_of_not_mem hk

/-- With distinct keys, each entry's key ends with the entry's value. -/
theorem write_apply_of_mem {s : K → V} {ws : List (K × V)} {e : K × V}
    (hws : (ws.map Prod.fst).Nodup) (he : e ∈ ws) : write s ws e.1 = e.2 :=
  write_apply_of_forall (List.mem_map_of_mem he) fun e' he' hee => by
    rw [List.inj_on_of_nodup_map hws he' he hee]

/-- `d` records values of `s`: each entry holds its key's value in `s`. -/
def Records (s : K → V) (d : List (K × V)) : Prop := ∀ e ∈ d, e.2 = s e.1

/-- Writing back a record of prior values undoes a list of writes, when the record names every
written key. -/
theorem write_write_of_record {s : K → V} {ws d : List (K × V)}
    (hcover : ∀ k ∈ ws.map Prod.fst, k ∈ d.map Prod.fst) (hval : Records s d) :
    write (write s ws) d = s := by
  funext k
  by_cases hk : k ∈ d.map Prod.fst
  · exact write_apply_of_forall hk fun e he hek => by rw [hval e he, hek]
  · have hw : k ∉ ws.map Prod.fst := fun h => hk (hcover k h)
    rw [write_apply_of_not_mem hk, write_apply_of_not_mem hw]

/-- Two lists of writes with distinct keys and the same entries write the same. -/
theorem write_eq_of_mem_iff {s : K → V} {d d' : List (K × V)} (hd : (d.map Prod.fst).Nodup)
    (hd' : (d'.map Prod.fst).Nodup) (h : ∀ e, e ∈ d ↔ e ∈ d') : write s d = write s d' := by
  funext k
  by_cases hk : k ∈ d.map Prod.fst
  · obtain ⟨e, he, rfl⟩ := List.mem_map.mp hk
    -- with distinct keys, `e` is the only entry for its key in either list
    rw [write_apply_of_mem hd he, write_apply_of_mem hd' ((h e).mp he)]
  · have hk' : k ∉ d'.map Prod.fst := fun h' => by
      obtain ⟨e, he, rfl⟩ := List.mem_map.mp h'
      exact hk (List.mem_map_of_mem ((h e).mpr he))
    rw [write_apply_of_not_mem hk, write_apply_of_not_mem hk']

/-- Writes with distinct keys write the same in any order. -/
theorem write_perm {s : K → V} {ws ws' : List (K × V)} (hws : (ws.map Prod.fst).Nodup)
    (h : ws'.Perm ws) : write s ws' = write s ws :=
  write_eq_of_mem_iff ((h.map Prod.fst).nodup_iff.mpr hws) hws fun _ => h.mem_iff

/-! ### Maps with distinct keys -/

/-- Insert into a map kept as a list of distinct keys, replacing the key's entry
(`HashMap::insert`, `BTreeMap::insert`). -/
def insert (t : List (K × V)) (k : K) (v : V) : List (K × V) :=
  t.filter (fun e => e.1 ≠ k) ++ [(k, v)]

/-- Insert every entry of `d`, in order. -/
def insertAll (t d : List (K × V)) : List (K × V) :=
  d.foldl (fun t e => insert t e.1 e.2) t

theorem keys_insert (t : List (K × V)) (k : K) (v : V) :
    (insert t k v).map Prod.fst = (t.map Prod.fst).filter (fun j => j ≠ k) ++ [k] := by
  rw [insert, List.map_append, List.map_singleton, List.filter_map]
  rfl

theorem nodup_insert {t : List (K × V)} (ht : (t.map Prod.fst).Nodup) (k : K) (v : V) :
    ((insert t k v).map Prod.fst).Nodup := by
  rw [keys_insert, List.nodup_append]
  refine ⟨ht.filter _, List.nodup_singleton k, fun a ha b hb => ?_⟩
  rw [List.mem_singleton.mp hb]
  exact of_decide_eq_true (List.mem_filter.mp ha).2

theorem mem_keys_insert {t : List (K × V)} {k j : K} (v : V) :
    j ∈ (insert t k v).map Prod.fst ↔ j = k ∨ j ∈ t.map Prod.fst := by
  rw [keys_insert, List.mem_append, List.mem_filter, List.mem_singleton]
  by_cases hj : j = k <;> simp [hj]

theorem Records.insert {s : K → V} {t : List (K × V)} (ht : Records s t) {k : K} {v : V}
    (hv : v = s k) : Records s (insert t k v) := by
  intro e he
  rcases List.mem_append.mp he with he | he
  · exact ht e (List.mem_filter.mp he).1
  · rw [List.mem_singleton.mp he]
    exact hv

theorem Records.insertAll {s : K → V} {t d : List (K × V)} (ht : Records s t) (hd : Records s d) :
    Records s (insertAll t d) := by
  induction d generalizing t with
  | nil => exact ht
  | cons e d ih =>
    exact ih (ht.insert (hd e List.mem_cons_self)) fun e' he' => hd e' (List.mem_cons_of_mem _ he')

theorem nodup_insertAll {t : List (K × V)} (ht : (t.map Prod.fst).Nodup) (d : List (K × V)) :
    ((insertAll t d).map Prod.fst).Nodup := by
  induction d generalizing t with
  | nil => exact ht
  | cons e d ih => exact ih (nodup_insert ht e.1 e.2)

theorem mem_keys_insertAll {t d : List (K × V)} {j : K} :
    j ∈ (insertAll t d).map Prod.fst ↔ j ∈ d.map Prod.fst ∨ j ∈ t.map Prod.fst := by
  induction d generalizing t with
  | nil => simp [insertAll]
  | cons e d ih =>
    rw [insertAll, List.foldl_cons, ← insertAll, ih, mem_keys_insert, List.map_cons,
      List.mem_cons]
    tauto

theorem write_filter_apply {s : K → V} (t : List (K × V)) {k j : K} (hj : j ≠ k) :
    write s (t.filter (fun e => e.1 ≠ k)) j = write s t j := by
  induction t generalizing s with
  | nil => rfl
  | cons e t ih =>
    by_cases he : e.1 = k
    · rw [List.filter_cons_of_neg (by simpa using he), ih, write_cons]
      exact write_apply_congr t (by rw [← he] at hj; rw [Function.update_of_ne hj])
    · rw [List.filter_cons_of_pos (by simpa using he), write_cons, write_cons, ih]

theorem write_insert (s : K → V) (t : List (K × V)) (k : K) (v : V) :
    write s (insert t k v) = Function.update (write s t) k v := by
  funext j
  rw [insert, write_append, write_cons, write_nil]
  by_cases hj : j = k
  · subst hj
    rw [Function.update_self, Function.update_self]
  · rw [Function.update_of_ne hj, Function.update_of_ne hj, write_filter_apply t hj]

theorem write_insertAll (s : K → V) (t d : List (K × V)) :
    write s (insertAll t d) = write (write s t) d := by
  induction d generalizing t with
  | nil => rfl
  | cons e d ih => rw [insertAll, List.foldl_cons, ← insertAll, ih, write_insert, write_cons]

/-- Merging records newest first and writing the merge back is writing them back one after
another. -/
theorem write_foldl_insertAll (s : K → V) (t : List (K × V)) (ds : List (List (K × V))) :
    write s (ds.foldl insertAll t) = ds.foldl write (write s t) := by
  induction ds generalizing t with
  | nil => rfl
  | cons d ds ih => rw [List.foldl_cons, ih, write_insertAll, List.foldl_cons]

/-! ### Records leading back through states -/

/-- `Undoes ds s ss`: writing back the records `ds` (newest first) one after another leads from
`s` through the states `ss`, one state for each record. -/
def Undoes : List (List (K × V)) → (K → V) → List (K → V) → Prop
  | [], _, [] => True
  | d :: ds, s, s' :: ss => write s d = s' ∧ Undoes ds s' ss
  | _, _, _ => False

@[simp] theorem undoes_nil_nil (s : K → V) : Undoes [] s [] := trivial

@[simp] theorem undoes_cons_cons {d : List (K × V)} {ds : List (List (K × V))} {s s' : K → V}
    {ss : List (K → V)} : Undoes (d :: ds) s (s' :: ss) ↔ write s d = s' ∧ Undoes ds s' ss :=
  Iff.rfl

theorem Undoes.length_eq {ds : List (List (K × V))} {s : K → V} {ss : List (K → V)}
    (h : Undoes ds s ss) : ds.length = ss.length := by
  induction ds generalizing s ss with
  | nil => cases ss <;> simp_all [Undoes]
  | cons d ds ih =>
    cases ss with
    | nil => exact h.elim
    | cons s' ss => simp [ih h.2]

/-- Dropping the oldest record keeps the relation, with the oldest state dropped. -/
theorem Undoes.dropLast {ds : List (List (K × V))} {s : K → V} {ss : List (K → V)}
    (h : Undoes ds s ss) : Undoes ds.dropLast s ss.dropLast := by
  induction ds generalizing s ss with
  | nil => cases ss <;> simp_all [Undoes]
  | cons d ds ih =>
    cases ss with
    | nil => exact h.elim
    | cons s' ss =>
      obtain ⟨hd, hds⟩ := h
      cases ds with
      | nil => cases ss <;> simp_all [Undoes]
      | cons d' ds' =>
        cases ss with
        | nil => exact hds.elim
        | cons s'' ss' => exact ⟨hd, ih hds⟩

/-- The merge of the newest `n + 1` records leads back to the state before the `n + 1`-th newest
change, and the older records keep leading back from there. -/
theorem write_merge_of_undoes {ds : List (List (K × V))} {s : K → V} {ss : List (K → V)}
    (h : Undoes ds s ss) {n : Nat} (hn : n < ss.length) :
    write s ((ds.take (n + 1)).foldl insertAll []) = ss[n] ∧
      Undoes (ds.drop (n + 1)) ss[n] (ss.drop (n + 1)) := by
  rw [write_foldl_insertAll, write_nil]
  induction ds generalizing s ss n with
  | nil => cases ss with
    | nil => exact absurd hn (Nat.not_lt_zero n)
    | cons _ _ => exact h.elim
  | cons d ds ih =>
    cases ss with
    | nil => exact h.elim
    | cons s' ss =>
      obtain ⟨hd, hds⟩ := h
      rcases n with _ | n
      · simpa [hd] using hds
      · simpa [hd] using ih hds (Nat.lt_of_succ_lt_succ hn)

/-! ### Lists set in place -/

section Lists

variable {α : Type}

theorem length_foldl_set (ws : List (Nat × α)) (l : List α) :
    (ws.foldl (fun l w => l.set w.1 w.2) l).length = l.length := by
  induction ws generalizing l with
  | nil => rfl
  | cons w ws ih => rw [List.foldl_cons, ih, List.length_set]

/-- Setting a list at positions inside it writes its entries. -/
theorem getElem?_foldl_set (ws : List (Nat × α)) {l : List α} (h : ∀ w ∈ ws, w.1 < l.length)
    (j : Nat) :
    (ws.foldl (fun l w => l.set w.1 w.2) l)[j]? =
      write (fun j => l[j]?) (ws.map fun w => (w.1, some w.2)) j := by
  induction ws generalizing l with
  | nil => rfl
  | cons w ws ih =>
    have hw := h w List.mem_cons_self
    -- one `set` inside the list is an update of its entries
    have hset : (fun j => (l.set w.1 w.2)[j]?) = Function.update (fun j => l[j]?) w.1 (some w.2) := by
      funext k
      rw [List.getElem?_set]
      by_cases hk : k = w.1
      · subst hk
        simp [hw]
      · simp [Function.update_of_ne hk, Ne.symm hk]
    have hrest : ∀ w' ∈ ws, w'.1 < (l.set w.1 w.2).length := fun w' hw' => by
      rw [List.length_set]
      exact h w' (List.mem_cons_of_mem _ hw')
    rw [List.foldl_cons, ih hrest, hset, List.map_cons, write_cons]

/-- Setting a list at positions inside it a second time changes nothing. -/
theorem foldl_set_idem (ws : List (Nat × α)) {l : List α} (h : ∀ w ∈ ws, w.1 < l.length) :
    ws.foldl (fun l w => l.set w.1 w.2) (ws.foldl (fun l w => l.set w.1 w.2) l) =
      ws.foldl (fun l w => l.set w.1 w.2) l := by
  have h' : ∀ w ∈ ws, w.1 < (ws.foldl (fun l w => l.set w.1 w.2) l).length := by
    rw [length_foldl_set]
    exact h
  have hview : (fun j => (ws.foldl (fun l w => l.set w.1 w.2) l)[j]?) =
      write (fun j => l[j]?) (ws.map fun w => (w.1, some w.2)) :=
    funext (getElem?_foldl_set ws h)
  refine List.ext_getElem? fun j => ?_
  rw [getElem?_foldl_set ws h' j, hview, write_write_self, getElem?_foldl_set ws h j]

end Lists

/-! ### Writes sorted by key

A list of writes is sorted by key and each entry whose key repeats its neighbour's is dropped; the
entries all stay exactly when the keys are distinct (`length_destutter_insertionSort_eq_iff`). -/

section SortByKey

variable {K V : Type} [LinearOrder K]

/-- Keys in ascending order whose neighbours differ ascend strictly. -/
theorem pairwise_lt_of_isChain_ne {l : List K} (hle : l.Pairwise (· ≤ ·))
    (hne : l.IsChain (· ≠ ·)) : l.Pairwise (· < ·) := by
  refine List.isChain_iff_pairwise.mp ?_
  induction hne with
  | nil => exact .nil
  | singleton a => exact .singleton a
  | cons_cons hab _ ih =>
    exact .cons_cons (lt_of_le_of_ne (List.rel_of_pairwise_cons hle List.mem_cons_self) hab)
      (ih hle.of_cons)

/-- Sorted by key, the keys ascend. -/
theorem pairwise_map_insertionSort (ws : List (K × V)) :
    ((ws.insertionSort fun a b => a.1 ≤ b.1).map Prod.fst).Pairwise (· ≤ ·) := by
  have : Std.Total fun a b : K × V => a.1 ≤ b.1 := ⟨fun a b => le_total a.1 b.1⟩
  have : IsTrans (K × V) fun a b => a.1 ≤ b.1 := ⟨fun _ _ _ => le_trans⟩
  exact List.pairwise_map.mpr (List.pairwise_insertionSort _ ws)

/-- Writes sorted by key (`sort_unstable_by_key`), then each entry whose key repeats its
neighbour's dropped (`dedup_by_key`), are as many as before exactly when the keys are distinct. -/
theorem length_destutter_insertionSort_eq_iff (ws : List (K × V)) :
    ((ws.insertionSort fun a b => a.1 ≤ b.1).destutter fun a b => a.1 ≠ b.1).length = ws.length ↔
      (ws.map Prod.fst).Nodup := by
  have hperm : (ws.insertionSort fun a b => a.1 ≤ b.1).Perm ws := List.perm_insertionSort _ ws
  have hsorted := pairwise_map_insertionSort ws
  rw [← (hperm.map Prod.fst).nodup_iff, ← hperm.length_eq]
  generalize ws.insertionSort (fun a b => a.1 ≤ b.1) = sorted at hperm hsorted ⊢
  constructor
  · intro hlen
    -- nothing dropped: neighbours have different keys, and sorted keys then ascend strictly
    have hchain : sorted.IsChain fun a b => a.1 ≠ b.1 :=
      (List.destutter_eq_self_iff _ sorted).mp ((List.destutter_sublist _ sorted).eq_of_length hlen)
    exact (pairwise_lt_of_isChain_ne hsorted ((List.isChain_map Prod.fst).mpr hchain)).imp
      ne_of_lt
  · intro hnd
    have hchain : sorted.IsChain fun a b => a.1 ≠ b.1 :=
      (List.isChain_map Prod.fst).mp (List.Pairwise.isChain hnd)
    rw [(List.destutter_eq_self_iff _ sorted).mpr hchain]

end SortByKey

end Undo

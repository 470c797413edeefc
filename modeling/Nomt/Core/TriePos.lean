import Nomt.Core.PageId
import Nomt.Core.Trie
import Nomt.Core.Update

/-!
# Positions in the paged trie (`core/src/trie_pos.rs`)

A `TriePosition` names a node of the binary trie by the bits of the path to it, and keeps the
index where the node is stored in its page. A page holds six levels of the trie: the node whose
path within its page is `q`, of length `d ∈ 1..=6`, is stored at `2 ^ d - 2 + q` (`node_index`).
The code does not recompute the index at each move: `down` doubles it within a page and starts
again at a page boundary, `up` halves it within a page and recomputes it across pages, and
`sibling` flips its low bit. A panic is `none`.

The abstract position is the bit path alone (`Move.applyPath`). The representation invariant
(`WellFormed`) is that the stored index is `node_index` of the last page's path. Each move its
documentation allows keeps the invariant, moves the path as the abstract position moves and does
not panic (`WellFormed.down`, `WellFormed.up`, `WellFormed.sibling`); so does every sequence of
them from a well-formed position (`WellFormed.run`), and `new` and `from_path_and_depth` build
well-formed positions. Whatever its index, a position lies in the page of the first
`(depth - 1) / 6` sextets of its path (`pageId_spec`), at a depth in the page between 1 and 6
(`depthInPage_mem`).
-/

namespace Nomt

open ByteOrder

/-- `view_bits_mut::<Msb0>().set(i, bit)` on a key path. -/
def KeyPath.set (path : KeyPath) (i : Nat) (bit : Bool) : KeyPath :=
  ⟨path.bits.set i bit, by rw [List.length_set, path.length_bits]⟩

@[simp] theorem KeyPath.bits_set (path : KeyPath) (i : Nat) (bit : Bool) :
    (path.set i bit).bits = path.bits.set i bit := rfl

namespace TriePos

/-- `last_page_path`: the bits of the path from the top of the page the node at `depth` lies in;
panics at the root. -/
def lastPagePath (path : KeyPath) (depth : Nat) : Option (List Bool) :=
  if depth = 0 then none
  else RustSlice.range path.bits ((depth - 1) / pageDepth * pageDepth) depth

/-- `node_index`: where the node at the end of a page path is stored in its page; bits past
`DEPTH` are ignored. -/
def nodeIndex (pagePath : List Bool) : Nat :=
  let depth := min pageDepth pagePath.length
  if depth = 0 then 0 else (1 <<< depth) - 2 + loadBe (pagePath.take depth)

/-- `sibling_index`. -/
def siblingIndex (nodeIndex : Nat) : Nat :=
  if nodeIndex % 2 = 0 then nodeIndex + 1 else nodeIndex - 1

/-- `parent_node_index`: `node_index - 2` panics on the first two nodes of a page. -/
def parentNodeIndex (nodeIndex : Nat) : Option Nat :=
  if nodeIndex < 2 then none else some ((nodeIndex - 2) / 2)

/-- The `for _ in 0..d` loop of `up`: `parent_node_index` applied `d` times. -/
def parentNodeIndexLoop : Nat → Nat → Option Nat
  | 0, nodeIndex => some nodeIndex
  | d + 1, nodeIndex => do parentNodeIndexLoop d (← parentNodeIndex nodeIndex)

/-! ### The layout of a page

`node_index` of a page path of length `d ∈ 1..=6` is `2 ^ d - 2` plus its value: the first `d`
levels of a page hold `2 + 4 + ⋯ + 2 ^ (d - 1) = 2 ^ d - 2` nodes. A child's index is twice its
parent's plus 2 and its bit, and siblings differ in the low bit only.
-/

theorem pageDepth_eq : pageDepth = 6 := rfl

theorem nodeIndex_eq {q : List Bool} (h0 : q ≠ []) (h : q.length ≤ pageDepth) :
    nodeIndex q = 2 ^ q.length - 2 + loadBe q := by
  have hpos : q.length ≠ 0 := fun h' => h0 (List.eq_nil_of_length_eq_zero h')
  simp only [nodeIndex, Nat.min_eq_right h, if_neg hpos, Nat.one_shiftLeft, List.take_length]

@[simp] theorem nodeIndex_nil : nodeIndex [] = 0 := rfl

theorem nodeIndex_append_singleton {q : List Bool} (h : q.length < pageDepth) (bit : Bool) :
    nodeIndex (q ++ [bit]) = 2 * 2 ^ q.length - 2 + 2 * loadBe q + bit.toNat := by
  rw [nodeIndex_eq (by simp) (by rw [List.length_append, List.length_singleton]; omega),
    loadBe_append_singleton, List.length_append, List.length_singleton, Nat.pow_succ]
  have := Nat.one_le_two_pow (n := q.length)
  omega

theorem nodeIndex_singleton (bit : Bool) : nodeIndex [bit] = bit.toNat := by
  have h := nodeIndex_append_singleton (q := []) (by decide) bit
  simpa using h

/-- The child one level further down the same page. -/
theorem nodeIndex_down {q : List Bool} (h0 : q ≠ []) (h : q.length < pageDepth) (bit : Bool) :
    nodeIndex (q ++ [bit]) = nodeIndex q * 2 + 2 + bit.toNat := by
  have hpos : 0 < q.length := List.length_pos_iff.mpr h0
  have hpow : 2 ^ 1 ≤ 2 ^ q.length := Nat.pow_le_pow_right Nat.two_pos hpos
  rw [nodeIndex_append_singleton h, nodeIndex_eq h0 h.le]
  omega

theorem parentNodeIndex_nodeIndex {q : List Bool} (h0 : q ≠ []) (h : q.length < pageDepth)
    (bit : Bool) : parentNodeIndex (nodeIndex (q ++ [bit])) = some (nodeIndex q) := by
  have := Bool.toNat_le bit
  rw [nodeIndex_down h0 h, parentNodeIndex, if_neg (by omega)]
  congr 1
  omega

theorem siblingIndex_nodeIndex {q : List Bool} (h : q.length < pageDepth) (bit : Bool) :
    siblingIndex (nodeIndex (q ++ [bit])) = nodeIndex (q ++ [!bit]) := by
  rw [nodeIndex_append_singleton h, nodeIndex_append_singleton h]
  have := Nat.one_le_two_pow (n := q.length)
  -- the index of a node has the parity of its last bit
  cases bit <;> simp only [siblingIndex, Bool.toNat_false, Bool.toNat_true, Bool.not_false,
    Bool.not_true] <;> split <;> omega

/-- Within a page, `d` steps to the parent drop the last `d` bits of the page path. -/
theorem parentNodeIndexLoop_nodeIndex : ∀ (d : Nat) (q : List Bool), d < q.length →
    q.length ≤ pageDepth → parentNodeIndexLoop d (nodeIndex q) = some (nodeIndex (q.take (q.length - d)))
  | 0, q, _, _ => by rw [Nat.sub_zero, List.take_length]; rfl
  | d + 1, q, hd, hq => by
    obtain ⟨xs, x, rfl⟩ : ∃ xs x, q = xs ++ [x] :=
      ⟨q.dropLast, q.getLast (List.ne_nil_of_length_pos (by omega)),
        (List.dropLast_append_getLast _).symm⟩
    rw [List.length_append, List.length_singleton] at hd hq
    have hxs : xs ≠ [] := List.ne_nil_of_length_pos (by omega)
    rw [parentNodeIndexLoop, parentNodeIndex_nodeIndex hxs (by omega), Option.bind_eq_bind,
      Option.bind_some, parentNodeIndexLoop_nodeIndex d xs (by omega) (by omega),
      List.length_append, List.length_singleton, List.take_append_of_le_length (by omega),
      Nat.add_sub_add_right]

/-- `ChildNodeIndices`: the index of a left child in its page; the right child is next to it. -/
structure ChildNodeIndices where
  left : Nat

/-- `ChildNodeIndices::right`. -/
def ChildNodeIndices.right (children : ChildNodeIndices) : Nat := children.left + 1

/-- `TriePosition`: the path, whose bits past `depth` are left over from earlier moves, the
depth, at most 256, and the index of the node in its page. -/
structure TriePosition where
  rawPath : KeyPath
  depth : Nat
  nodeIndex : Nat
  depth_le : depth ≤ 256

namespace TriePosition

/-- `TriePosition::new`: the root. -/
def new : TriePosition :=
  ⟨⟨List.replicate 256 false, List.length_replicate⟩, 0, 0, Nat.zero_le 256⟩

/-- `TriePosition::from_path_and_depth`: panics at depth 0 or past 256. -/
def fromPathAndDepth (path : KeyPath) (depth : Nat) : Option TriePosition :=
  if depth = 0 then none
  else if h : depth ≤ 256 then
    (lastPagePath path depth).map fun pagePath => ⟨path, depth, TriePos.nodeIndex pagePath, h⟩
  else none

/-- `TriePosition::path`: the first `depth` bits. -/
def path (p : TriePosition) : List Bool := p.rawPath.bits.take p.depth

/-- `TriePosition::depth_in_page`. -/
def depthInPage (p : TriePosition) : Nat :=
  if p.depth = 0 then 0 else p.depth - (p.depth - 1) / pageDepth * pageDepth

/-- `TriePosition::child_node_indices`: panics unless the node is on levels 1 to 5 of its
page. -/
def childNodeIndices (p : TriePosition) : Option ChildNodeIndices :=
  let depth := p.depthInPage
  if depth = 0 ∨ depth > pageDepth - 1 then none else some ⟨p.nodeIndex * 2 + 2⟩

/-- `TriePosition::down`: panics at depth 256. -/
def down (p : TriePosition) (bit : Bool) : Option TriePosition :=
  if h : p.depth = 256 then none
  else do
    let nodeIndex ← if p.depth % pageDepth = 0 then some bit.toNat
      else p.childNodeIndices.map fun children => if bit then children.right else children.left
    pure ⟨p.rawPath.set p.depth bit, p.depth + 1, nodeIndex, by have := p.depth_le; omega⟩

/-- `TriePosition::up`: panics if `d` exceeds the depth. -/
def up (p : TriePosition) (d : Nat) : Option TriePosition :=
  if d > p.depth then none
  else if p.depth - d = 0 then some new
  else
    let prevPageDepth := (p.depth + pageDepth - 1) / pageDepth
    let newPageDepth := (p.depth - d + pageDepth - 1) / pageDepth
    if prevPageDepth = newPageDepth then
      (parentNodeIndexLoop d p.nodeIndex).map fun nodeIndex =>
        ⟨p.rawPath, p.depth - d, nodeIndex, Nat.le_trans (Nat.sub_le _ _) p.depth_le⟩
    else
      (lastPagePath p.rawPath (p.depth - d)).map fun path =>
        ⟨p.rawPath, p.depth - d, TriePos.nodeIndex path, Nat.le_trans (Nat.sub_le _ _) p.depth_le⟩

/-- `TriePosition::sibling`: panics at the root. -/
def sibling (p : TriePosition) : Option TriePosition :=
  if p.depth = 0 then none
  else
    -- `bits[i]` is in range: `i < depth ≤ 256`
    let i := p.depth - 1
    some ⟨p.rawPath.set i !(p.rawPath.bits.getD i false), p.depth, siblingIndex p.nodeIndex,
      p.depth_le⟩

/-- The loop of `page_id` over the sextets of the path from the `i`-th on. It returns a sextet
early when the path ends on a page boundary: the node is then the last of its page. -/
def pageIdLoop (depth : Nat) : Nat → List (List Bool) → PageId → Option (Option PageId)
  | _, [], pageId => some (some pageId)
  | i, chunk :: chunks, pageId =>
    if (i + 1) * pageDepth = depth then some (some pageId)
    else do
      let childIndex ← ChildPageIndex.new (UInt8.ofNat (loadBe chunk))
      let pageId ← (pageId.childPageId childIndex).toOption
      pageIdLoop depth (i + 1) chunks pageId

/-- `TriePosition::page_id`: `None` at the root. The outer `Option` is a panic of one of the
loop's `unwrap`s. -/
def pageId (p : TriePosition) : Option (Option PageId) :=
  if p.depth = 0 then some none
  else pageIdLoop p.depth 0 (chunksExact pageDepth p.path) rootPageId

/-- The calls that move a `TriePosition`. -/
inductive Move
  | down (bit : Bool)
  | up (d : Nat)
  | sibling
deriving DecidableEq, Repr

/-- Make one move. -/
def move (p : TriePosition) : Move → Option TriePosition
  | .down bit => p.down bit
  | .up d => p.up d
  | .sibling => p.sibling

/-- Make the moves one after another; `none` if one of them panics. -/
def run (p : TriePosition) (moves : List Move) : Option TriePosition := moves.foldlM move p

/-! ### The abstract position -/

/-- What a move does to the path of the node, and `none` where its documentation forbids it:
`down` at depth 256, `up` by more than the depth, `sibling` at the root. -/
def Move.applyPath : Move → List Bool → Option (List Bool)
  | .down bit, bits => if bits.length < 256 then some (bits ++ [bit]) else none
  | .up d, bits => if d ≤ bits.length then some (bits.take (bits.length - d)) else none
  | .sibling, bits => bits.getLast?.map fun bit => bits.dropLast ++ [!bit]

/-- The path after the moves. -/
def runPath (bits : List Bool) (moves : List Move) : Option (List Bool) :=
  moves.foldlM (fun bits m => m.applyPath bits) bits

/-- The bits of a path from the top of its last page. -/
def pageBits (bits : List Bool) : List Bool :=
  bits.drop ((bits.length - 1) / pageDepth * pageDepth)

/-- The page a node lies in: its child indices from the root page are the values of the first
`(depth - 1) / 6` sextets of the node's path. -/
def pagePath (bits : List Bool) : List UInt8 :=
  ((chunksExact pageDepth bits).map fun sextet => UInt8.ofNat (loadBe sextet)).take
    ((bits.length - 1) / pageDepth)

/-- The representation invariant: the stored index is `node_index(last_page_path(path, depth))`,
and 0 at the root. -/
def WellFormed (p : TriePosition) : Prop :=
  p.nodeIndex = ((lastPagePath p.rawPath p.depth).map TriePos.nodeIndex).getD 0

/-! ### Paths and page paths -/

@[simp] theorem pageBits_nil : pageBits [] = [] := rfl

/-- The page path after one more bit: the bits past the last page boundary, then the new bit. -/
theorem pageBits_append_singleton (bits : List Bool) (bit : Bool) :
    pageBits (bits ++ [bit]) = bits.drop (bits.length / pageDepth * pageDepth) ++ [bit] := by
  rw [pageBits, List.length_append, List.length_singleton, Nat.add_sub_cancel,
    List.drop_append_of_le_length (Nat.div_mul_le_self _ _)]

theorem length_pageBits (bits : List Bool) :
    (pageBits bits).length = bits.length - (bits.length - 1) / pageDepth * pageDepth :=
  List.length_drop ..

/-- A page holds at most `DEPTH` levels. -/
theorem length_pageBits_le (bits : List Bool) : (pageBits bits).length ≤ pageDepth := by
  rw [length_pageBits, pageDepth_eq]
  omega

/-- One more bit on a page boundary starts a new page. -/
theorem pageBits_append_of_mod_eq_zero {bits : List Bool} (h : bits.length % pageDepth = 0)
    (bit : Bool) : pageBits (bits ++ [bit]) = [bit] := by
  rw [pageBits_append_singleton, List.drop_eq_nil_of_le (by rw [pageDepth_eq] at *; omega),
    List.nil_append]

/-- One more bit inside a page extends the page path. -/
theorem pageBits_append_of_mod_ne_zero {bits : List Bool} (h : bits.length % pageDepth ≠ 0)
    (bit : Bool) : pageBits (bits ++ [bit]) = pageBits bits ++ [bit] := by
  rw [pageBits_append_singleton, pageBits]
  congr 3
  rw [pageDepth_eq] at *
  omega

/-- Within one page, a shorter path has the shorter page path. -/
theorem pageBits_take {bits : List Bool} {n : Nat} (hn : n ≤ bits.length)
    (hsame : (n - 1) / pageDepth = (bits.length - 1) / pageDepth) :
    pageBits (bits.take n) =
      (pageBits bits).take (n - (bits.length - 1) / pageDepth * pageDepth) := by
  rw [pageBits, pageBits, List.length_take, Nat.min_eq_left hn, hsame, List.drop_take]

variable {p : TriePosition}

theorem length_path (p : TriePosition) : p.path.length = p.depth := by
  rw [path, List.length_take, p.rawPath.length_bits, Nat.min_eq_left p.depth_le]

/-- The page path of a position is `depth_in_page` bits long. -/
theorem length_pageBits_path (p : TriePosition) : (pageBits p.path).length = p.depthInPage := by
  rw [length_pageBits, length_path, depthInPage]
  split_ifs with h0
  · rw [h0, Nat.zero_sub]
  · rfl

/-- Off a page boundary, the depth in the page is the depth modulo `DEPTH`. -/
theorem depthInPage_eq_mod (h : p.depth % pageDepth ≠ 0) : p.depthInPage = p.depth % pageDepth := by
  rw [pageDepth_eq] at h
  rw [depthInPage, if_neg (by omega), pageDepth_eq]
  omega

theorem lastPagePath_eq {path : KeyPath} {depth : Nat} (h0 : depth ≠ 0) (h : depth ≤ 256) :
    lastPagePath path depth = some (pageBits (path.bits.take depth)) := by
  have hlen : (path.bits.take depth).length = depth := by
    rw [List.length_take, path.length_bits, Nat.min_eq_left h]
  rw [lastPagePath, if_neg h0,
    RustSlice.range_of_le ((Nat.div_mul_le_self _ _).trans (Nat.sub_le _ _))
      (by rw [path.length_bits]; exact h),
    pageBits, hlen]

/-- The invariant, with the root's index as `node_index` of the empty page path. -/
theorem wellFormed_iff (p : TriePosition) :
    p.WellFormed ↔ p.nodeIndex = TriePos.nodeIndex (pageBits p.path) := by
  rw [WellFormed]
  by_cases h0 : p.depth = 0
  · rw [lastPagePath, if_pos h0, path, h0, List.take_zero]
    rfl
  · rw [lastPagePath_eq h0 p.depth_le]
    rfl

theorem path_new : new.path = [] := rfl

theorem wellFormed_new : new.WellFormed := rfl

theorem fromPathAndDepth_spec {path : KeyPath} {depth : Nat}
    (h : fromPathAndDepth path depth = some p) : p.path = path.bits.take depth ∧ p.WellFormed := by
  by_cases h0 : depth = 0
  · simp [fromPathAndDepth, h0] at h
  by_cases hle : depth ≤ 256
  · rw [fromPathAndDepth, if_neg h0, dif_pos hle, lastPagePath_eq h0 hle, Option.map_some] at h
    cases h
    exact ⟨rfl, (wellFormed_iff _).mpr rfl⟩
  · simp [fromPathAndDepth, h0, hle] at h

/-! ### The moves -/

/-- Setting the bit at the depth and going one deeper appends the bit to the path. -/
theorem take_succ_set_depth (p : TriePosition) (h : p.depth < 256) (bit : Bool) :
    (p.rawPath.set p.depth bit).bits.take (p.depth + 1) = p.path ++ [bit] := by
  have hlt : p.depth < p.rawPath.bits.length := by rw [p.rawPath.length_bits]; exact h
  have htake : (p.rawPath.bits.take p.depth).length = p.depth := by
    rw [List.length_take, Nat.min_eq_left hlt.le]
  rw [KeyPath.bits_set, List.take_set, List.take_add_one, List.getElem?_eq_getElem hlt,
    Option.toList_some, List.set_append_right _ _ htake.le, htake, Nat.sub_self, List.set_cons_zero]
  rfl

/-- `down` below depth 256 does not panic: on a page boundary the node is the first of a new
page, and inside a page it is a child of the stored node. -/
theorem down_eq (h : p.depth < 256) (bit : Bool) :
    ∃ p', p.down bit = some p' ∧ p'.rawPath = p.rawPath.set p.depth bit ∧
      p'.depth = p.depth + 1 ∧
      p'.nodeIndex = if p.depth % pageDepth = 0 then bit.toNat else p.nodeIndex * 2 + 2 + bit.toNat := by
  by_cases hmod : p.depth % pageDepth = 0
  · rw [down, dif_neg (by omega), if_pos hmod]
    exact ⟨_, rfl, rfl, rfl, (if_pos hmod).symm⟩
  · -- levels 1 to 5 of a page, where `child_node_indices` does not panic
    have hchildren : p.childNodeIndices = some ⟨p.nodeIndex * 2 + 2⟩ := by
      rw [childNodeIndices, depthInPage_eq_mod hmod, if_neg]
      rw [pageDepth_eq] at *
      omega
    rw [down, dif_neg (by omega), if_neg hmod, hchildren]
    refine ⟨_, rfl, rfl, rfl, ?_⟩
    rw [if_neg hmod]
    cases bit <;> rfl

theorem WellFormed.down (hw : p.WellFormed) (h : p.depth < 256) (bit : Bool) :
    ∃ p', p.down bit = some p' ∧ p'.path = p.path ++ [bit] ∧ p'.WellFormed := by
  obtain ⟨p', hdown, hraw, hdepth, hindex⟩ := down_eq h bit
  have hpath : p'.path = p.path ++ [bit] := by
    rw [path, hraw, hdepth]
    exact take_succ_set_depth p h bit
  refine ⟨p', hdown, hpath, ?_⟩
  have hlen := p.length_path
  rw [wellFormed_iff] at hw ⊢
  rw [hpath, hindex]
  split_ifs with hmod
  · rw [pageBits_append_of_mod_eq_zero (by rw [hlen]; exact hmod), nodeIndex_singleton]
  · -- inside a page: the page path has `depth % DEPTH` bits, at least one and fewer than `DEPTH`
    have hpage : (pageBits p.path).length < pageDepth := by
      rw [length_pageBits_path, depthInPage_eq_mod hmod]
      exact Nat.mod_lt _ (by decide)
    have hne : pageBits p.path ≠ [] := by
      refine List.ne_nil_of_length_pos ?_
      rw [length_pageBits_path, depthInPage_eq_mod hmod]
      exact Nat.pos_of_ne_zero hmod
    rw [pageBits_append_of_mod_ne_zero (by rw [hlen]; exact hmod), nodeIndex_down hne hpage, hw]

theorem WellFormed.up (hw : p.WellFormed) {d : Nat} (hd : d ≤ p.depth) :
    ∃ p', p.up d = some p' ∧ p'.path = p.path.take (p.depth - d) ∧ p'.WellFormed := by
  have hlen := p.length_path
  by_cases h0 : p.depth - d = 0
  · -- back at the root, `up` starts again from `new`
    refine ⟨new, ?_, by rw [h0, List.take_zero]; rfl, wellFormed_new⟩
    rw [TriePosition.up, if_neg (by omega), if_pos h0]
  have hpath : p.rawPath.bits.take (p.depth - d) = p.path.take (p.depth - d) := by
    rw [path, List.take_take, Nat.min_eq_left (Nat.sub_le _ _)]
  by_cases hsame : (p.depth + pageDepth - 1) / pageDepth = (p.depth - d + pageDepth - 1) / pageDepth
  · -- within the page: `d` steps to the parent
    rw [wellFormed_iff] at hw
    have hbits : pageBits (p.path.take (p.depth - d)) =
        (pageBits p.path).take (p.depth - d - (p.path.length - 1) / pageDepth * pageDepth) :=
      pageBits_take (by omega) (by rw [hlen, pageDepth_eq] at *; omega)
    have hloop := parentNodeIndexLoop_nodeIndex d (pageBits p.path)
      (by rw [length_pageBits, hlen, pageDepth_eq] at *; omega) (length_pageBits_le _)
    rw [← hw, length_pageBits, hlen] at hloop
    rw [TriePosition.up, if_neg (by omega), if_neg h0, if_pos hsame, hloop, Option.map_some]
    refine ⟨_, rfl, hpath, ?_⟩
    · rw [wellFormed_iff]
      show TriePos.nodeIndex _ = TriePos.nodeIndex (pageBits (p.rawPath.bits.take (p.depth - d)))
      rw [hpath, hbits, hlen]
      congr 2
      omega
  · -- into another page: recomputed from the path
    rw [TriePosition.up, if_neg (by omega), if_neg h0, if_neg hsame,
      lastPagePath_eq h0 ((Nat.sub_le _ _).trans p.depth_le), Option.map_some]
    exact ⟨_, rfl, hpath, (wellFormed_iff _).mpr rfl⟩

theorem WellFormed.sibling (hw : p.WellFormed) {x : Bool} (hlast : p.path.getLast? = some x) :
    ∃ p', p.sibling = some p' ∧ p'.path = p.path.dropLast ++ [!x] ∧ p'.WellFormed := by
  obtain ⟨xs, hxs⟩ := List.getLast?_eq_some_iff.mp hlast
  have hdepth : p.depth = xs.length + 1 := by
    rw [← p.length_path, hxs, List.length_append, List.length_singleton]
  have hxlen : xs.length = p.depth - 1 := by omega
  have h0 : p.depth ≠ 0 := by omega
  -- the bit the code flips is the path's last
  have hbit : p.rawPath.bits.getD (p.depth - 1) false = x := by
    have hget : p.path[p.depth - 1]? = some x := by
      rw [hxs, ← hxlen, List.getElem?_append_right (Nat.le_refl _), Nat.sub_self]
      rfl
    rw [path, List.getElem?_take, if_pos (by omega)] at hget
    rw [List.getD_eq_getElem?_getD, hget, Option.getD_some]
  have hpath : (p.rawPath.set (p.depth - 1) !x).bits.take p.depth = xs ++ [!x] := by
    rw [KeyPath.bits_set, List.take_set, ← path, hxs, List.set_append_right _ _ hxlen.le, hxlen,
      Nat.sub_self, List.set_cons_zero]
  rw [TriePosition.sibling, if_neg h0]
  dsimp only
  rw [hbit]
  refine ⟨_, rfl, ?_, ?_⟩
  · show (p.rawPath.set (p.depth - 1) !x).bits.take p.depth = _
    rw [hpath, hxs, List.dropLast_concat]
  · rw [wellFormed_iff] at hw ⊢
    show siblingIndex p.nodeIndex = TriePos.nodeIndex (pageBits ((p.rawPath.set (p.depth - 1) !x).bits.take p.depth))
    have hpage : (xs.drop (xs.length / pageDepth * pageDepth)).length < pageDepth := by
      rw [List.length_drop, pageDepth_eq]
      omega
    rw [hpath, hw, hxs, pageBits_append_singleton, pageBits_append_singleton,
      siblingIndex_nodeIndex hpage]

/-- A move its documentation allows keeps the invariant, does not panic, and moves the path as
the abstract position moves. -/
theorem WellFormed.move (hw : p.WellFormed) {m : Move} {bits : List Bool}
    (h : m.applyPath p.path = some bits) :
    ∃ p', p.move m = some p' ∧ p'.path = bits ∧ p'.WellFormed := by
  have hlen := p.length_path
  cases m with
  | down bit =>
    by_cases hd : p.path.length < 256
    · rw [Move.applyPath, if_pos hd] at h
      cases h
      exact hw.down (by omega) bit
    · rw [Move.applyPath, if_neg hd] at h
      cases h
  | up d =>
    by_cases hd : d ≤ p.path.length
    · rw [Move.applyPath, if_pos hd] at h
      cases h
      rw [hlen]
      exact hw.up (by omega)
    · rw [Move.applyPath, if_neg hd] at h
      cases h
  | sibling =>
    obtain ⟨x, hx, rfl⟩ := Option.map_eq_some_iff.mp h
    exact hw.sibling hx

/-- The run lemma: every sequence of allowed moves from a well-formed position. -/
theorem WellFormed.run (hw : p.WellFormed) {moves : List Move} {bits : List Bool}
    (h : runPath p.path moves = some bits) :
    ∃ p', p.run moves = some p' ∧ p'.path = bits ∧ p'.WellFormed := by
  induction moves generalizing p with
  | nil =>
    cases h
    exact ⟨p, rfl, rfl, hw⟩
  | cons m moves ih =>
    rw [runPath, List.foldlM_cons] at h
    obtain ⟨bits₁, h₁, h₂⟩ := Option.bind_eq_some_iff.mp h
    obtain ⟨p₁, hmove, hpath, hw₁⟩ := hw.move h₁
    rw [← hpath] at h₂
    obtain ⟨p', hrun, hpath', hw'⟩ := ih hw₁ h₂
    refine ⟨p', ?_, hpath', hw'⟩
    rw [TriePosition.run, List.foldlM_cons, hmove]
    exact hrun

/-! ### The page and the depth in the page -/

/-- The loop of `page_id` over sextets before the path's end descends through them: each sextet is
a child index below 64, and the page stays above the deepest layer. -/
theorem pageIdLoop_append (depth : Nat) (ds : List (List Bool)) :
    ∀ (cs : List (List Bool)) (i : Nat) (q : PageId), (∀ c ∈ cs, c.length = pageDepth) →
      q.depth + cs.length ≤ maxPageDepth →
      (∀ j, i ≤ j → j < i + cs.length → (j + 1) * pageDepth ≠ depth) →
      ∃ q', pageIdLoop depth i (cs ++ ds) q = pageIdLoop depth (i + cs.length) ds q' ∧
        q'.path = q.path ++ cs.map fun c => UInt8.ofNat (loadBe c)
  | [], i, q, _, _, _ => ⟨q, rfl, by rw [List.map_nil, List.append_nil]⟩
  | c :: cs, i, q, hlen, hdepth, hstop => by
    rw [List.length_cons] at hdepth hstop
    -- the sextet is a child index: six bits are below 64
    have hidx : UInt8.ofNat (loadBe c) ≤ maxChildIndex := by
      have hlt := loadBe_lt c
      rw [hlen c List.mem_cons_self, pageDepth_eq] at hlt
      rw [PageId.maxChildIndex_eq, UInt8.le_iff_toNat_le, UInt8.toNat_ofNat']
      simp only [UInt8.reduceToNat]
      omega
    obtain ⟨q₁, hq₁, hpath₁⟩ := q.childPageId_of_lt (by omega) ⟨_, hidx⟩
    obtain ⟨q', hloop, hpath'⟩ := pageIdLoop_append depth ds cs (i + 1) q₁
      (fun c' hc' => hlen c' (List.mem_cons_of_mem _ hc'))
      (by rw [PageId.depth, hpath₁, List.length_append, List.length_singleton]; exact
        (Nat.add_right_comm _ _ _).trans_le hdepth)
      (fun j hj hj' => hstop j (by omega) (by omega))
    refine ⟨q', ?_, ?_⟩
    · rw [List.cons_append, pageIdLoop, if_neg (hstop i (Nat.le_refl _) (by omega)),
        ChildPageIndex.new_of_le hidx, Option.bind_eq_bind, Option.bind_some, hq₁]
      show pageIdLoop depth (i + 1) (cs ++ ds) q₁ = _
      rw [hloop, List.length_cons, Nat.add_comm cs.length 1, Nat.add_assoc]
    · rw [hpath', hpath₁, List.map_cons, List.append_assoc, List.singleton_append]

/-- `page_id` does not panic, and a node lies in the page of the first `(depth - 1) / 6` sextets
of its path: a node on a page boundary is the last of its page, not the first of the next. -/
theorem pageId_spec (p : TriePosition) (h : p.depth ≠ 0) :
    ∃ q, p.pageId = some (some q) ∧ q.path = pagePath p.path := by
  have hlen := p.length_path
  have hdepth := p.depth_le
  have hchunks : (chunksExact pageDepth p.path).length = p.depth / pageDepth := by
    rw [length_chunksExact, hlen]
  -- the sextets the loop descends through, and the one it may stop at
  have hm : (chunksExact pageDepth p.path |>.take ((p.depth - 1) / pageDepth)).length =
      (p.depth - 1) / pageDepth := by
    rw [List.length_take, hchunks, pageDepth_eq]
    omega
  obtain ⟨q, hloop, hq⟩ := pageIdLoop_append p.depth
    ((chunksExact pageDepth p.path).drop ((p.depth - 1) / pageDepth))
    ((chunksExact pageDepth p.path).take ((p.depth - 1) / pageDepth)) 0 rootPageId
    (fun c hc => length_of_mem_chunksExact (by decide) (List.mem_of_mem_take hc))
    (by rw [hm, rootPageId, PageId.depth, List.length_nil, maxPageDepth, pageDepth_eq]; omega)
    (fun j _ hj => by rw [hm, pageDepth_eq] at *; omega)
  rw [List.take_append_drop, Nat.zero_add, hm] at hloop
  refine ⟨q, ?_, ?_⟩
  · rw [pageId, if_neg h, hloop]
    have hrest : ((chunksExact pageDepth p.path).drop ((p.depth - 1) / pageDepth)).length =
        p.depth / pageDepth - (p.depth - 1) / pageDepth := by
      rw [List.length_drop, hchunks]
    cases hd : (chunksExact pageDepth p.path).drop ((p.depth - 1) / pageDepth) with
    | nil => rfl
    | cons c rest =>
      -- a sextet is left only when the path ends on a page boundary
      rw [hd, List.length_cons, pageDepth_eq] at hrest
      rw [pageIdLoop, if_pos (by rw [pageDepth_eq]; omega)]
  · rw [hq, pagePath, rootPageId, List.nil_append, hlen, List.map_take]

theorem pageId_root (p : TriePosition) (h : p.depth = 0) : p.pageId = some none := if_pos h

/-- A node below the root is on one of the `DEPTH` levels of its page. -/
theorem depthInPage_mem (p : TriePosition) (h : p.depth ≠ 0) :
    1 ≤ p.depthInPage ∧ p.depthInPage ≤ pageDepth := by
  rw [depthInPage, if_neg h, pageDepth_eq]
  omega

/-! ### Every reachable position -/

/-- From `TriePosition::new()` or `from_path_and_depth`, every sequence of moves their
documentation allows runs without a panic to a position whose path is the moves' bit sequence,
whose node index is `node_index(last_page_path(path, depth))` (0 at the root), which lies in the
page of the first `(depth - 1) / 6` sextets of its path, on level 1 to 6 of that page. -/
theorem run_representation (start : TriePosition) (moves : List Move) (bits : List Bool)
    (hstart : start = new ∨ ∃ path depth, fromPathAndDepth path depth = some start)
    (hmoves : runPath start.path moves = some bits) :
    ∃ p, start.run moves = some p ∧ p.path = bits ∧
      p.nodeIndex = ((lastPagePath p.rawPath p.depth).map TriePos.nodeIndex).getD 0 ∧
      (p.depth = 0 → p.pageId = some none) ∧
      (p.depth ≠ 0 → (∃ q, p.pageId = some (some q) ∧ q.path = pagePath p.path) ∧
        1 ≤ p.depthInPage ∧ p.depthInPage ≤ pageDepth) := by
  have hw : start.WellFormed := by
    rcases hstart with rfl | ⟨path, depth, h⟩
    · exact wellFormed_new
    · exact (fromPathAndDepth_spec h).2
  obtain ⟨p, hrun, hpath, hwp⟩ := hw.run hmoves
  exact ⟨p, hrun, hpath, hwp, p.pageId_root, fun h0 => ⟨p.pageId_spec h0, p.depthInPage_mem h0⟩⟩

/-- Seven steps down cross into a second page; two up come back into the first, then a sibling
and a step down. -/
theorem run_representation_cross_page :
    ∃ p, new.run [.down true, .down false, .down true, .down true, .down false, .down true,
        .down true, .up 2, .sibling, .down false] = some p ∧
      p.path = [true, false, true, true, true, false] ∧
      p.nodeIndex = ((lastPagePath p.rawPath p.depth).map TriePos.nodeIndex).getD 0 ∧
      (p.depth = 0 → p.pageId = some none) ∧
      (p.depth ≠ 0 → (∃ q, p.pageId = some (some q) ∧ q.path = pagePath p.path) ∧
        1 ≤ p.depthInPage ∧ p.depthInPage ≤ pageDepth) :=
  run_representation new _ _ (Or.inl rfl) (by decide)

end TriePosition

/-! ### The calls of the page walker -/

/-- `bottom_node_index`: `node_index as u8 - 62`. -/
def bottomNodeIndex (nodeIndex : Nat) : UInt8 := UInt8.ofNat nodeIndex - 62

namespace TriePosition

/-- `TriePosition::is_root`. -/
def isRoot (p : TriePosition) : Bool := p.depth == 0

/-- `TriePosition::peek_last_bit`: panics at the root. -/
def peekLastBit (p : TriePosition) : Option Bool :=
  if p.depth = 0 then none else some (p.rawPath.bits.getD (p.depth - 1) false)

/-- `TriePosition::child_page_index`: panics unless the node is on the last layer of its page. -/
def childPageIndex (p : TriePosition) : Option ChildPageIndex :=
  if p.nodeIndex ≥ 62 then ChildPageIndex.new (bottomNodeIndex p.nodeIndex) else none

/-- `TriePosition::is_first_layer_in_page`: `node_index & !1 == 0`, the index without its low bit
is zero. -/
def isFirstLayerInPage (p : TriePosition) : Bool := p.nodeIndex / 2 == 0

/-- `TriePosition::shared_depth`. -/
def sharedDepth (p other : TriePosition) : Nat := sharedBits p.path other.path

end TriePosition

end TriePos

end Nomt

import Nomt.Core.TriePos
import Nomt.Store.PageDiff

/-!
# Where a node of the trie is stored

A node below the root, at the path `q`, is stored in the page of the first `(|q| - 1) / 6`
sextets of `q` (`pagePath`), in the slot `node_index` of the bits after them (`slotOf`). This is
the layout `TriePosition` keeps and the page walker reads and writes.

No two nodes share a page slot (`eq_of_pagePath_eq_of_slotOf_eq`); a node and its sibling share a
page and hold adjacent slots (`pagePath_sibling`, `slotOf_sibling`); a child shares its parent's
page unless the parent is on the last layer of its page, and then lies in the child page named by
the parent's last sextet (`pagePath_append_of_mod_ne_zero`, `pagePath_append_of_mod_eq_zero`).
`pagesAlong q` lists the pages from the node's own up to the root page, as the walker's page stack
holds them.
-/

namespace Nomt.TriePos

open ByteOrder TriePos.TriePosition

/-- The slot of the node at `q` in its page. -/
def slotOf (q : List Bool) : Nat := nodeIndex (pageBits q)

/-- The page of the node at `q`, for a node of the 256 levels of the trie. -/
def pageIdOf (q : List Bool) : Option PageId :=
  if h : (pagePath q).length ≤ maxPageDepth ∧
      (pagePath q).all (fun limb => decide (limb ≤ maxChildIndex)) = true then
    some ⟨pagePath q, h.1, fun limb hl => of_decide_eq_true (List.all_eq_true.mp h.2 limb hl)⟩
  else none

/-- The pages on the path to the node at `q`, its own first and the root page last; none at the
root. -/
def pagesAlong (q : List Bool) : List (List UInt8) :=
  if q = [] then []
  else ((List.range ((pagePath q).length + 1)).map fun k => (pagePath q).take k).reverse

/-! ### Bits and numbers -/

/-- `load_be` tells apart bit strings of one length. -/
theorem loadBe_injective {a b : List Bool} (hlen : a.length = b.length)
    (h : loadBe a = loadBe b) : a = b := by
  induction a using List.reverseRecOn generalizing b with
  | nil => exact (List.eq_nil_of_length_eq_zero hlen.symm).symm
  | append_singleton a x ih =>
    have hb : b.length = a.length + 1 := by rw [← hlen, List.length_append, List.length_singleton]
    obtain ⟨b', y, rfl⟩ : ∃ b' y, b = b' ++ [y] :=
      ⟨b.dropLast, b.getLast (List.ne_nil_of_length_pos (by omega)),
        (List.dropLast_append_getLast _).symm⟩
    rw [loadBe_append_singleton, loadBe_append_singleton] at h
    simp only [List.length_append, List.length_singleton, Nat.add_right_cancel_iff] at hlen
    -- the last bit is the parity, the rest the half
    have hxy : x = y := by cases x <;> cases y <;> first | rfl | (simp at h; omega)
    subst hxy
    rw [ih hlen (by omega)]

/-- `node_index` tells apart the page paths of a page: the paths of length `d` fill the indices
from `2 ^ d - 2` to `2 ^ (d + 1) - 3`. -/
theorem nodeIndex_injective {a b : List Bool} (ha0 : a ≠ []) (hb0 : b ≠ [])
    (ha : a.length ≤ pageDepth) (hb : b.length ≤ pageDepth) (h : nodeIndex a = nodeIndex b) :
    a = b := by
  rw [nodeIndex_eq ha0 ha, nodeIndex_eq hb0 hb] at h
  have hla := loadBe_lt a
  have hlb := loadBe_lt b
  have hpa : 2 ≤ 2 ^ a.length := Nat.le_self_pow (List.length_pos_iff.mpr ha0).ne' 2
  have hpb : 2 ≤ 2 ^ b.length := Nat.le_self_pow (List.length_pos_iff.mpr hb0).ne' 2
  have hlen : a.length = b.length := by
    by_contra hne
    rcases Nat.lt_or_gt_of_ne hne with hlt | hlt
    · have := Nat.pow_le_pow_right (n := 2) (by decide) (Nat.succ_le_of_lt hlt)
      rw [Nat.pow_succ] at this
      omega
    · have := Nat.pow_le_pow_right (n := 2) (by decide) (Nat.succ_le_of_lt hlt)
      rw [Nat.pow_succ] at this
      omega
  rw [hlen] at h
  exact loadBe_injective hlen (by omega)

/-! ### Slots -/

theorem length_pageBits_pos {q : List Bool} (hq : q ≠ []) : 0 < (pageBits q).length := by
  rw [length_pageBits, pageDepth_eq]
  have := List.length_pos_iff.mpr hq
  omega

theorem pageBits_ne_nil {q : List Bool} (hq : q ≠ []) : pageBits q ≠ [] :=
  List.ne_nil_of_length_pos (length_pageBits_pos hq)

/-- Every slot is inside the page. -/
theorem slotOf_lt {q : List Bool} (hq : q ≠ []) : slotOf q < NODES_PER_PAGE := by
  have hle := length_pageBits_le q
  rw [slotOf, nodeIndex_eq (pageBits_ne_nil hq) hle, NODES_PER_PAGE_eq]
  have hlt := loadBe_lt (pageBits q)
  have hpow : 2 ^ (pageBits q).length ≤ 2 ^ 6 :=
    Nat.pow_le_pow_right (by decide) (by rw [pageDepth_eq] at hle; exact hle)
  omega

/-- The page path of a node is its sextets above its page. -/
theorem pagePath_eq (q : List Bool) :
    pagePath q = (List.range ((q.length - 1) / pageDepth)).map fun i =>
      UInt8.ofNat (loadBe ((q.drop (i * pageDepth)).take pageDepth)) := by
  rw [pagePath, chunksExact, List.map_map, ← List.map_take, List.take_range,
    Nat.min_eq_left (Nat.div_le_div_right (Nat.sub_le _ _))]
  rfl

@[simp] theorem length_pagePath (q : List Bool) :
    (pagePath q).length = (q.length - 1) / pageDepth := by
  rw [pagePath_eq, List.length_map, List.length_range]

@[simp] theorem pagePath_singleton (b : Bool) : pagePath [b] = [] := by
  simp [pagePath_eq]

/-- A sextet of six bits is a child index. -/
theorem ofNat_loadBe_le {c : List Bool} (hc : c.length = pageDepth) :
    UInt8.ofNat (loadBe c) ≤ maxChildIndex := by
  have hlt := loadBe_lt c
  rw [hc, pageDepth_eq] at hlt
  rw [PageId.maxChildIndex_eq, UInt8.le_iff_toNat_le, UInt8.toNat_ofNat']
  simp only [UInt8.reduceToNat]
  omega

theorem length_chunk {q : List Bool} {i : Nat} (hi : i < (q.length - 1) / pageDepth) :
    ((q.drop (i * pageDepth)).take pageDepth).length = pageDepth := by
  rw [List.length_take, List.length_drop, pageDepth_eq] at *
  have := Nat.lt_of_lt_of_le hi (Nat.div_le_div_right (Nat.sub_le q.length 1))
  omega

/-- The page of a node is the page with its page path. -/
theorem pageIdOf_of_pagePath_eq {q : List Bool} {pageId : PageId} (h : pagePath q = pageId.path) :
    pageIdOf q = some pageId := by
  have hall : (pagePath q).all (fun limb => decide (limb ≤ maxChildIndex)) = true := by
    rw [h]
    exact List.all_eq_true.mpr fun limb hl => decide_eq_true (pageId.le_max limb hl)
  rw [pageIdOf, dif_pos ⟨h ▸ pageId.length_le, hall⟩]
  exact congrArg some (PageId.ext h)

/-! ### No two nodes share a slot -/

/-- The page path depends on the length and the bits above the node's page only. -/
theorem pagePath_congr {q q' : List Bool} (hlen : q.length = q'.length)
    (htake : q.take ((q.length - 1) / pageDepth * pageDepth) =
      q'.take ((q.length - 1) / pageDepth * pageDepth)) : pagePath q = pagePath q' := by
  rw [pagePath_eq, pagePath_eq, ← hlen]
  refine List.map_congr_left fun i hi => ?_
  have hi' := List.mem_range.mp hi
  have hend : i * pageDepth + pageDepth ≤ (q.length - 1) / pageDepth * pageDepth := by
    rw [← Nat.succ_mul]
    exact Nat.mul_le_mul_right _ hi'
  -- the sextet lies in the bits above the page
  have hchunk : ∀ l : List Bool, (l.drop (i * pageDepth)).take pageDepth =
      ((l.take ((q.length - 1) / pageDepth * pageDepth)).drop (i * pageDepth)).take pageDepth := by
    intro l
    rw [List.drop_take, List.take_take, Nat.min_eq_left (by omega)]
  rw [hchunk q, hchunk q', htake]

/-- The bits above a node's page are fixed by its page path. -/
theorem take_eq_of_pagePath_eq {q q' : List Bool} (h : pagePath q = pagePath q') :
    q.take ((q.length - 1) / pageDepth * pageDepth) =
      q'.take ((q.length - 1) / pageDepth * pageDepth) := by
  have hk : (q.length - 1) / pageDepth = (q'.length - 1) / pageDepth := by
    have := congrArg List.length h
    rwa [length_pagePath, length_pagePath] at this
  refine List.ext_getElem (by simp [hk]; rw [pageDepth_eq] at *; omega) fun j hj hj' => ?_
  simp only [List.length_take] at hj hj'
  rw [List.getElem_take, List.getElem_take]
  -- bit `j` is bit `j % 6` of sextet `j / 6`
  have hi : j / pageDepth < (q.length - 1) / pageDepth := by
    rw [pageDepth_eq] at *
    omega
  have hsext := congrArg (fun l => l[j / pageDepth]?) h
  simp only [pagePath_eq, List.getElem?_map, List.getElem?_range hi,
    List.getElem?_range (hk ▸ hi), Option.map_some, Option.some.injEq] at hsext
  have hv : loadBe ((q.drop (j / pageDepth * pageDepth)).take pageDepth) =
      loadBe ((q'.drop (j / pageDepth * pageDepth)).take pageDepth) := by
    have hpow : (2 : Nat) ^ pageDepth = 64 := rfl
    have h1 := loadBe_lt ((q.drop (j / pageDepth * pageDepth)).take pageDepth)
    have h2 := loadBe_lt ((q'.drop (j / pageDepth * pageDepth)).take pageDepth)
    rw [length_chunk hi, hpow] at h1
    rw [length_chunk (hk ▸ hi), hpow] at h2
    have := congrArg UInt8.toNat hsext
    simp only [UInt8.toNat_ofNat'] at this
    omega
  have hc := loadBe_injective (by rw [length_chunk hi, length_chunk (hk ▸ hi)]) hv
  have hm : j % pageDepth < ((q.drop (j / pageDepth * pageDepth)).take pageDepth).length := by
    rw [length_chunk hi, pageDepth_eq]
    omega
  have hget := List.getElem_of_eq hc hm
  have hj_eq : j / pageDepth * pageDepth + j % pageDepth = j := Nat.div_add_mod' j pageDepth
  simp only [List.getElem_take, List.getElem_drop, hj_eq] at hget
  exact hget

/-- Two nodes in one slot of one page are the same node. -/
theorem eq_of_pagePath_eq_of_slotOf_eq {q q' : List Bool} (hq : q ≠ []) (hq' : q' ≠ [])
    (hp : pagePath q = pagePath q') (hs : slotOf q = slotOf q') : q = q' := by
  have hbits : pageBits q = pageBits q' :=
    nodeIndex_injective (pageBits_ne_nil hq) (pageBits_ne_nil hq') (length_pageBits_le q)
      (length_pageBits_le q') hs
  have hk : (q.length - 1) / pageDepth = (q'.length - 1) / pageDepth := by
    have := congrArg List.length hp
    rwa [length_pagePath, length_pagePath] at this
  have hlen : q.length = q'.length := by
    have := congrArg List.length hbits
    rw [length_pageBits, length_pageBits, hk] at this
    have h1 := List.length_pos_iff.mpr hq
    have h2 := List.length_pos_iff.mpr hq'
    have h3 : (q'.length - 1) / pageDepth * pageDepth ≤ q'.length - 1 := Nat.div_mul_le_self _ _
    have h4 : (q'.length - 1) / pageDepth * pageDepth ≤ q.length - 1 := by
      rw [← hk]
      exact Nat.div_mul_le_self _ _
    omega
  have htake := take_eq_of_pagePath_eq hp
  rw [← List.take_append_drop ((q.length - 1) / pageDepth * pageDepth) q,
    ← List.take_append_drop ((q.length - 1) / pageDepth * pageDepth) q', htake]
  congr 1
  rw [pageBits, pageBits, ← hlen] at hbits
  exact hbits

/-- A node lies below the bits above the page of any node of its page. -/
theorem take_prefix_of_pagePath_eq {q c : List Bool} (h : pagePath q = pagePath c) :
    c.take ((c.length - 1) / pageDepth * pageDepth) <+: q := by
  rw [take_eq_of_pagePath_eq h.symm]
  exact List.take_prefix _ _

/-- A node lies strictly below the bits above its page. -/
theorem lt_length_of_pagePath_eq {q c : List Bool} (hq : q ≠ []) (h : pagePath q = pagePath c) :
    (c.length - 1) / pageDepth * pageDepth < q.length := by
  have hk : (q.length - 1) / pageDepth = (c.length - 1) / pageDepth := by
    have := congrArg List.length h
    rwa [length_pagePath, length_pagePath] at this
  have := Nat.div_mul_le_self (q.length - 1) pageDepth
  have := List.length_pos_iff.mpr hq
  rw [← hk]
  omega

/-! ### Siblings and children -/

/-- A node and its sibling lie in one page. -/
theorem pagePath_sibling {q : List Bool} (hq : q ≠ []) (x : Bool) :
    pagePath (q.dropLast ++ [x]) = pagePath q := by
  have hpos := List.length_pos_iff.mpr hq
  have hlen : (q.dropLast ++ [x]).length = q.length := by simp; omega
  refine pagePath_congr hlen ?_
  have hle := Nat.div_mul_le_self (q.length - 1) pageDepth
  rw [hlen, List.take_append_of_le_length (by rw [List.length_dropLast]; exact hle),
    List.dropLast_eq_take, List.take_take, Nat.min_eq_left hle]

theorem pageBits_sibling {q : List Bool} (hq : q ≠ []) (x : Bool) :
    pageBits (q.dropLast ++ [x]) = (pageBits q).dropLast ++ [x] := by
  have hpos := List.length_pos_iff.mpr hq
  have hlen : (q.dropLast ++ [x]).length = q.length := by simp; omega
  rw [pageBits, pageBits, hlen, List.drop_append_of_le_length (by rw [List.length_dropLast]; exact
    (Nat.div_mul_le_self _ _)), List.dropLast_eq_take, List.dropLast_eq_take, List.drop_take,
    List.length_drop, Nat.sub_right_comm]

/-- Siblings hold adjacent slots. -/
theorem slotOf_sibling {q : List Bool} {x : Bool} (hlast : q.getLast? = some x) :
    slotOf (q.dropLast ++ [!x]) = siblingIndex (slotOf q) := by
  have hq : q ≠ [] := fun h => by simp [h] at hlast
  obtain ⟨r, hr⟩ : ∃ r, pageBits q = r ++ [x] := by
    have hbits : (pageBits q).getLast? = some x := by
      rw [pageBits, List.getLast?_drop, if_neg (by
        have := Nat.div_mul_le_self (q.length - 1) pageDepth
        have := List.length_pos_iff.mpr hq
        omega), hlast]
    exact List.getLast?_eq_some_iff.mp hbits
  have hrlen : r.length < pageDepth := by
    have := length_pageBits_le q
    rw [hr, List.length_append, List.length_singleton] at this
    omega
  rw [slotOf, slotOf, pageBits_sibling hq, hr, List.dropLast_concat, siblingIndex_nodeIndex hrlen]

/-- Inside a page, a child shares its parent's page. -/
theorem pagePath_append_of_mod_ne_zero {q : List Bool} (h : q.length % pageDepth ≠ 0) (b : Bool) :
    pagePath (q ++ [b]) = pagePath q := by
  rw [pagePath_eq, pagePath_eq, List.length_append, List.length_singleton, Nat.add_sub_cancel]
  have hk : q.length / pageDepth = (q.length - 1) / pageDepth := by
    rw [pageDepth_eq] at *
    omega
  rw [hk]
  refine List.map_congr_left fun i hi => ?_
  have hi' := List.mem_range.mp hi
  have hend : i * pageDepth + pageDepth ≤ q.length := by
    have := Nat.div_mul_le_self (q.length - 1) pageDepth
    have := Nat.mul_le_mul_right pageDepth hi'
    rw [Nat.succ_mul] at this
    omega
  rw [List.drop_append_of_le_length (by omega), List.take_append_of_le_length (by
    rw [List.length_drop]
    omega)]

/-- Below the last layer of a page, a child lies in the child page named by the last sextet. -/
theorem pagePath_append_of_mod_eq_zero {q : List Bool} (hq : q ≠ [])
    (h : q.length % pageDepth = 0) (b : Bool) :
    pagePath (q ++ [b]) = pagePath q ++ [UInt8.ofNat (loadBe (pageBits q))] := by
  have hpos := List.length_pos_iff.mpr hq
  have hk : q.length / pageDepth = (q.length - 1) / pageDepth + 1 := by
    rw [pageDepth_eq] at *
    omega
  rw [pagePath_eq, pagePath_eq, List.length_append, List.length_singleton, Nat.add_sub_cancel, hk,
    List.range_succ, List.map_append, List.map_singleton]
  congr 1
  · refine List.map_congr_left fun i hi => ?_
    have hi' := List.mem_range.mp hi
    have hend : i * pageDepth + pageDepth ≤ q.length := by
      have := Nat.div_mul_le_self (q.length - 1) pageDepth
      have := Nat.mul_le_mul_right pageDepth hi'
      rw [Nat.succ_mul] at this
      omega
    rw [List.drop_append_of_le_length (by omega), List.take_append_of_le_length (by
      rw [List.length_drop]
      omega)]
  · -- the last sextet is the parent's page path
    have hlast : (q.length - 1) / pageDepth * pageDepth + pageDepth = q.length := by
      rw [pageDepth_eq] at *
      omega
    rw [List.drop_append_of_le_length (by omega), List.take_append_of_le_length (by
      rw [List.length_drop]
      omega), pageBits, List.take_of_length_le (by rw [List.length_drop]; omega)]

/-! ### The pages on the path to a node -/

@[simp] theorem pagesAlong_nil : pagesAlong [] = [] := rfl

theorem pagesAlong_of_ne_nil {q : List Bool} (hq : q ≠ []) :
    pagesAlong q =
      ((List.range ((pagePath q).length + 1)).map fun k => (pagePath q).take k).reverse :=
  if_neg hq

theorem pagesAlong_eq_cons {q : List Bool} (hq : q ≠ []) :
    ∃ rest, pagesAlong q = pagePath q :: rest := by
  rw [pagesAlong_of_ne_nil hq, List.range_succ, List.map_append, List.map_singleton,
    List.reverse_append, List.reverse_singleton, List.singleton_append, List.take_length]
  exact ⟨_, rfl⟩

theorem mem_pagesAlong {q : List Bool} {P : List UInt8} :
    P ∈ pagesAlong q ↔ q ≠ [] ∧ P <+: pagePath q := by
  by_cases hq : q = []
  · simp [hq]
  rw [pagesAlong_of_ne_nil hq, List.mem_reverse, List.mem_map]
  constructor
  · rintro ⟨k, -, rfl⟩
    exact ⟨hq, List.take_prefix _ _⟩
  · rintro ⟨-, hP⟩
    exact ⟨P.length, List.mem_range.mpr (Nat.lt_succ_of_le hP.length_le),
      (List.prefix_iff_eq_take.mp hP).symm⟩

/-- The pages on the path to a node are all different. -/
theorem nodup_pagesAlong (q : List Bool) : (pagesAlong q).Nodup := by
  by_cases hq : q = []
  · simp [hq]
  rw [pagesAlong_of_ne_nil hq, List.nodup_reverse]
  refine (List.nodup_range).map_on fun i hi j hj hij => ?_
  have := congrArg List.length hij
  simp only [List.length_take] at this
  have hi' := List.mem_range.mp hi
  have hj' := List.mem_range.mp hj
  omega

/-- A step down inside a page keeps the pages on the path. -/
theorem pagesAlong_append_of_mod_ne_zero {q : List Bool} (h : q.length % pageDepth ≠ 0)
    (b : Bool) : pagesAlong (q ++ [b]) = pagesAlong q := by
  have hq : q ≠ [] := by
    rintro rfl
    exact h rfl
  rw [pagesAlong_of_ne_nil (by simp), pagesAlong_of_ne_nil hq, pagePath_append_of_mod_ne_zero h]

/-- A step down from the last layer of a page enters the child page. -/
theorem pagesAlong_append_of_mod_eq_zero {q : List Bool} (hq : q ≠ [])
    (h : q.length % pageDepth = 0) (b : Bool) :
    pagesAlong (q ++ [b]) = pagePath (q ++ [b]) :: pagesAlong q := by
  rw [pagesAlong_of_ne_nil (by simp), pagesAlong_of_ne_nil hq, pagePath_append_of_mod_eq_zero hq h,
    List.length_append, List.length_singleton, List.range_succ, List.map_append,
    List.map_singleton, List.reverse_append, List.reverse_singleton, List.singleton_append,
    List.take_of_length_le (by simp)]
  congr 1
  refine congrArg List.reverse (List.map_congr_left fun k hk => ?_)
  exact List.take_append_of_le_length (Nat.le_of_lt_succ (List.mem_range.mp hk))

/-- A step down from the root enters the root page. -/
theorem pagesAlong_singleton (b : Bool) : pagesAlong [b] = [[]] := by
  rw [pagesAlong_of_ne_nil (by simp), pagePath_singleton]
  rfl

/-- A step up from the first layer of a page leaves the page. -/
theorem pagesAlong_dropLast_of_mod_eq_zero {c : List Bool} (hc : c ≠ [])
    (h : (c.length - 1) % pageDepth = 0) : pagesAlong c.dropLast = (pagesAlong c).tail := by
  obtain ⟨d, x, rfl⟩ := (List.eq_nil_or_concat c).resolve_left hc
  rw [List.concat_eq_append] at h ⊢
  rw [List.dropLast_concat]
  rw [List.length_append, List.length_singleton, Nat.add_sub_cancel] at h
  by_cases hd : d = []
  · subst hd
    rw [List.nil_append, pagesAlong_singleton, pagesAlong_nil, List.tail_cons]
  · rw [pagesAlong_append_of_mod_eq_zero hd h, List.tail_cons]

/-- A step up inside a page keeps the pages on the path. -/
theorem pagesAlong_dropLast_of_mod_ne_zero {c : List Bool} (h : (c.length - 1) % pageDepth ≠ 0) :
    pagesAlong c.dropLast = pagesAlong c := by
  have hc : c ≠ [] := by
    rintro rfl
    exact h rfl
  obtain ⟨d, x, rfl⟩ := (List.eq_nil_or_concat c).resolve_left hc
  rw [List.concat_eq_append] at h ⊢
  rw [List.dropLast_concat]
  rw [List.length_append, List.length_singleton, Nat.add_sub_cancel] at h
  rw [pagesAlong_append_of_mod_ne_zero h]

/-! ### The position calls of the page walker -/

namespace TriePosition

variable {p : TriePosition}

theorem peekLastBit_eq (p : TriePosition) : p.peekLastBit = p.path.getLast? := by
  by_cases h0 : p.depth = 0
  · rw [peekLastBit, if_pos h0, path, h0, List.take_zero, List.getLast?_nil]
  · have hlt : p.depth - 1 < p.rawPath.bits.length := by
      rw [p.rawPath.length_bits]
      have := p.depth_le
      omega
    rw [peekLastBit, if_neg h0, List.getLast?_eq_getElem?, length_path, path,
      List.getElem?_take, if_pos (by omega), List.getD_eq_getElem?_getD,
      List.getElem?_eq_getElem hlt, Option.getD_some]

theorem isRoot_iff (p : TriePosition) : p.isRoot = true ↔ p.path = [] := by
  rw [isRoot, beq_iff_eq, ← List.length_eq_zero_iff, length_path]

theorem depthInPage_eq_pageDepth_iff (h : p.depth ≠ 0) :
    p.depthInPage = pageDepth ↔ p.depth % pageDepth = 0 := by
  rw [depthInPage, if_neg h, pageDepth_eq]
  omega

theorem depthInPage_eq_one_iff (h : p.depth ≠ 0) :
    p.depthInPage = 1 ↔ (p.depth - 1) % pageDepth = 0 := by
  rw [depthInPage, if_neg h, pageDepth_eq]
  omega

/-- On the last layer of a page, the child page index is the value of the bits in the page. -/
theorem WellFormed.childPageIndex_eq (hw : p.WellFormed) (h0 : p.depth ≠ 0)
    (h : p.depth % pageDepth = 0) :
    ∃ childPageIndex, p.childPageIndex = some childPageIndex ∧
      childPageIndex.index = UInt8.ofNat (loadBe (pageBits p.path)) := by
  have hlen : (pageBits p.path).length = pageDepth := by
    rw [length_pageBits_path, (depthInPage_eq_pageDepth_iff h0).mpr h]
  have hlt := loadBe_lt (pageBits p.path)
  have hpow : (2 : Nat) ^ pageDepth = 64 := rfl
  rw [hlen, hpow] at hlt
  -- the node index is `62 +` the value of the six bits
  have hne : p.path ≠ [] := by
    rw [← List.length_pos_iff, length_path]
    omega
  have hindex : p.nodeIndex = 62 + loadBe (pageBits p.path) := by
    rw [(wellFormed_iff p).mp hw, nodeIndex_eq (pageBits_ne_nil hne) (Nat.le_of_eq hlen), hlen,
      hpow]
  have h62 : (62 : UInt8).toNat = 62 := rfl
  have hbottom : bottomNodeIndex p.nodeIndex = UInt8.ofNat (loadBe (pageBits p.path)) := by
    rw [bottomNodeIndex, hindex]
    apply UInt8.toNat_inj.mp
    have hle : (62 : UInt8) ≤ UInt8.ofNat (62 + loadBe (pageBits p.path)) := by
      rw [UInt8.le_iff_toNat_le, h62, UInt8.toNat_ofNat']
      omega
    rw [UInt8.toNat_sub_of_le _ _ hle, h62, UInt8.toNat_ofNat', UInt8.toNat_ofNat']
    omega
  have hle := ofNat_loadBe_le (c := pageBits p.path) hlen
  refine ⟨⟨_, hle⟩, ?_, rfl⟩
  rw [childPageIndex, if_pos (by omega), hbottom, ChildPageIndex.new_of_le hle]

end TriePosition

end Nomt.TriePos

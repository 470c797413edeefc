import Nomt.Core.PageId
import Nomt.Cache.RwPassCell

/-!
# Regions of the page tree (`nomt/src/page_region.rs`)

A `PageRegion` grants exclusive access to a whole part of the page tree and shared access to the
pages above it. `from_page_id p` takes the subtree of `p`; `from_page_id_descendants p min max`
takes the subtrees of the children `min..=max` of `p`. In the depth-first order of page IDs the
exclusive part is the interval from `exclusive_min()` to `exclusive_max()`, and the shared part,
below `non_exclusive_max()`, is the proper ancestors of `exclusive_min()`
(`containsNonExclusive_iff`).

The `Region` trait asks of `encompasses` that the larger region contain every page the smaller
one does, shared or exclusive, and of `excludes_unique` that neither region hold exclusively a
page the other holds at all. Both rest on the shape the two constructors give
(`exists_maxDescendant`): the exclusive interval ends at the `max_descendant` of a page whose
proper ancestors all come before `exclusive_min()`, so it is a union of whole subtrees
(`containsExclusive_of_descendant`), and a page above another region's pages comes before them.
-/

namespace Nomt

open PageId

/-- What the two constructors build; the fields of `PageRegion` are private to its module. -/
inductive PageRegion.Built : PageId → Option PageId → PageId → Prop
  | page (p : PageId) : Built p none p.maxDescendant
  | descendants (p : PageId) (min max : ChildPageIndex) {c d : PageId} :
      min.index ≤ max.index → p.childPageId min = .ok c → p.childPageId max = .ok d →
      Built p (some c) d.maxDescendant

/-- `PageRegion`: with `exclusive_min` unset, exclusive access to `path` and below and shared
access above it; with it set, exclusive access from `exclusive_min` to `exclusive_max` and shared
access to `path` and above. -/
structure PageRegion where
  path : PageId
  exclusiveMin? : Option PageId
  exclusiveMax : PageId
  built : PageRegion.Built path exclusiveMin? exclusiveMax

namespace PageRegion

/-- `PageRegion::from_page_id`. -/
def fromPageId (pageId : PageId) : PageRegion :=
  ⟨pageId, none, pageId.maxDescendant, .page pageId⟩

/-- `PageRegion::from_page_id_descendants`: panics if `min > max` or the page is at the maximum
depth. -/
def fromPageIdDescendants (pageId : PageId) (min max : ChildPageIndex) : Option PageRegion :=
  if hle : min.index ≤ max.index then
    match hc : pageId.childPageId min, hd : pageId.childPageId max with
    | .ok c, .ok d => some ⟨pageId, some c, d.maxDescendant, .descendants pageId min max hle hc hd⟩
    | _, _ => none
  else none

/-- `PageRegion::universe`. -/
def universeRegion : PageRegion := fromPageId rootPageId

/-- `PageRegion::exclusive_min`. -/
def exclusiveMin (r : PageRegion) : PageId :=
  match r.exclusiveMin? with
  | none => r.path
  | some min => min

/-- `PageRegion::non_exclusive_max`. -/
def nonExclusiveMax (r : PageRegion) : Option PageId :=
  match r.exclusiveMin? with
  | none => if r.path = rootPageId then none else some r.path.parentPageId
  | some _ => some r.path

/-- `PageRegion::contains_exclusive`. -/
def containsExclusive (r : PageRegion) (page : PageId) : Bool :=
  decide (r.exclusiveMin ≤ page) && decide (r.exclusiveMax ≥ page)

/-- `PageRegion::contains_non_exclusive`. -/
def containsNonExclusive (r : PageRegion) (page : PageId) : Bool :=
  match r.nonExclusiveMax with
  | none => false
  | some nonExclusiveMax => page == nonExclusiveMax || nonExclusiveMax.isDescendantOf page

/-- `RegionContains::contains` of `PageRegion`. -/
def contains (r : PageRegion) (page : PageId) : Bool :=
  r.containsExclusive page || r.containsNonExclusive page

/-- `PageRegion::encompasses`. -/
def encompasses (r other : PageRegion) : Bool :=
  decide (r.exclusiveMin ≤ other.exclusiveMin) && decide (r.exclusiveMax ≥ other.exclusiveMax)

/-- `PageRegion::excludes_unique`. -/
def excludesUnique (r other : PageRegion) : Bool :=
  decide (r.exclusiveMax < other.exclusiveMin) || decide (other.exclusiveMax < r.exclusiveMin)

variable {r a b : PageRegion} {page q : PageId}

theorem containsExclusive_iff :
    r.containsExclusive page ↔ r.exclusiveMin ≤ page ∧ page ≤ r.exclusiveMax := by
  simp [containsExclusive]

theorem contains_iff : r.contains page ↔ r.containsExclusive page ∨ r.containsNonExclusive page := by
  simp [contains]

theorem encompasses_iff :
    a.encompasses b ↔ a.exclusiveMin ≤ b.exclusiveMin ∧ b.exclusiveMax ≤ a.exclusiveMax := by
  simp [encompasses]

theorem excludesUnique_iff :
    a.excludesUnique b ↔ a.exclusiveMax < b.exclusiveMin ∨ b.exclusiveMax < a.exclusiveMin := by
  simp [excludesUnique]

theorem excludesUnique_comm : a.excludesUnique b = b.excludesUnique a := by
  rw [excludesUnique, excludesUnique, Bool.or_comm]

/-! ### The shape of a region -/

theorem childPageId_path {p c : PageId} {i : ChildPageIndex} (h : p.childPageId i = .ok c) :
    c.path = p.path ++ [i.index] := by
  rw [childPageId] at h
  split at h
  · cases h
  · cases h
    rfl

/-- The exclusive interval of a region ends at the `max_descendant` of a page whose proper
ancestors all come before `exclusive_min()`, which itself comes first. -/
theorem exists_maxDescendant (r : PageRegion) :
    ∃ m : PageId, r.exclusiveMax = m.maxDescendant ∧
      (∀ l, l <+: m.path → l ≠ m.path → l < r.exclusiveMin.path) ∧
      r.exclusiveMin ≤ r.exclusiveMax := by
  obtain ⟨p, min?, max, built⟩ := r
  cases built with
  | page =>
    refine ⟨p, rfl, fun l hl hne => PathOrder.lt_of_prefix_of_ne hl hne, ?_⟩
    exact PathOrder.le_maxExt_of_prefix (List.prefix_refl _) p.bounded
  | @descendants min max c d hle hc hd =>
    -- the children `p ++ [min]` and `p ++ [max]`; the ancestors of the latter are those of `p`
    refine ⟨_, rfl, fun l hl hne => ?_, ?_⟩
    · have hlp : l <+: p.path := by
        have := (PathOrder.prefix_dropLast_iff (by rw [childPageId_path hd]; simp)).mpr ⟨hl, hne⟩
        rwa [childPageId_path hd, List.dropLast_concat] at this
      show l < _
      rw [exclusiveMin, childPageId_path hc]
      exact List.lt_of_le_of_lt hlp.le
        (PathOrder.lt_of_prefix_of_ne (List.prefix_append _ _) (by simp))
    · -- `p ++ [min] ≤ p ++ [max]`, the first page of the last subtree
      have hmax : d.path ≤ d.maxDescendant.path :=
        PathOrder.le_maxExt_of_prefix (List.prefix_refl _) d.bounded
      show _ ≤ _
      rw [exclusiveMin, le_def, childPageId_path hc]
      refine List.le_trans ?_ hmax
      rw [childPageId_path hd]
      apply List.append_left_le
      rw [List.cons_le_cons_iff]
      rcases Std.le_iff_lt_or_eq.mp hle with hlt | heq
      · exact .inl hlt
      · exact .inr ⟨heq, List.le_refl _⟩

theorem exclusiveMin_le_exclusiveMax (r : PageRegion) : r.exclusiveMin ≤ r.exclusiveMax := by
  obtain ⟨_, _, _, h⟩ := exists_maxDescendant r
  exact h

/-- The shared pages of a region are the proper ancestors of `exclusive_min()`. -/
theorem containsNonExclusive_iff (r : PageRegion) (page : PageId) :
    r.containsNonExclusive page ↔
      page.path <+: r.exclusiveMin.path ∧ page.path ≠ r.exclusiveMin.path := by
  obtain ⟨p, min?, max, built⟩ := r
  cases built with
  | page =>
    by_cases hroot : p = rootPageId
    · -- the universe shares nothing
      subst hroot
      simp only [containsNonExclusive, nonExclusiveMax, ↓reduceIte, exclusiveMin,
        Bool.false_eq_true, false_iff, not_and]
      intro h hne
      exact hne (List.prefix_nil.mp h)
    · simp only [containsNonExclusive, nonExclusiveMax, hroot, ↓reduceIte, exclusiveMin,
        Bool.or_eq_true, beq_iff_eq, isDescendantOf_iff]
      rw [← PathOrder.prefix_dropLast_iff (path_ne_nil hroot), ← parentPageId_path hroot]
      constructor
      · rintro (rfl | h)
        · exact List.prefix_refl _
        · exact h
      · exact .inr
  | descendants min max hle hc hd =>
    simp only [containsNonExclusive, nonExclusiveMax, exclusiveMin, Bool.or_eq_true, beq_iff_eq,
      isDescendantOf_iff]
    rw [← PathOrder.prefix_dropLast_iff (by rw [childPageId_path hc]; simp), childPageId_path hc,
      List.dropLast_concat]
    constructor
    · rintro (rfl | h)
      · exact List.prefix_refl _
      · exact h
    · exact .inr

/-- The exclusive part of a region holds the whole subtree of each page it holds. -/
theorem containsExclusive_of_descendant (hr : r.containsExclusive page)
    (h : page.path <+: q.path) : r.containsExclusive q := by
  obtain ⟨m, hmax, hm, _⟩ := exists_maxDescendant r
  rw [containsExclusive_iff, hmax] at hr ⊢
  exact PathOrder.le_maxExt_of_prefix_of_mem hm hr.1 hr.2 h q.bounded

/-! ### The contract of `Region` -/

theorem contains_of_containsExclusive (h : r.containsExclusive page) : r.contains page :=
  contains_iff.mpr (.inl h)

theorem encompasses_containsExclusive (h : a.encompasses b) (hb : b.containsExclusive page) :
    a.containsExclusive page := by
  rw [encompasses_iff] at h
  rw [containsExclusive_iff] at hb ⊢
  exact ⟨h.1.trans hb.1, hb.2.trans h.2⟩

/-- A shared page of the smaller region is a page of the larger one: either it lies in the larger
one's exclusive interval, or it comes before it and is then an ancestor of its `exclusive_min()`. -/
theorem encompasses_containsNonExclusive (h : a.encompasses b) (hb : b.containsNonExclusive page) :
    a.contains page := by
  rw [encompasses_iff] at h
  rw [containsNonExclusive_iff] at hb
  obtain ⟨hpre, hne⟩ := hb
  have hlt : page < b.exclusiveMin := PathOrder.lt_of_prefix_of_ne hpre hne
  rcases le_or_gt a.exclusiveMin page with hle | hgt
  · -- in the exclusive interval of `a`
    refine contains_of_containsExclusive (containsExclusive_iff.mpr ⟨hle, ?_⟩)
    exact hlt.le.trans ((exclusiveMin_le_exclusiveMax b).trans h.2)
  · -- an ancestor of `exclusive_min()` of `a`
    refine contains_iff.mpr (.inr ((containsNonExclusive_iff a page).mpr ⟨?_, fun h => hgt.ne (PageId.ext h)⟩))
    exact PathOrder.prefix_of_lt_of_le hpre hgt h.1

theorem encompasses_contains (h : a.encompasses b) (hb : b.contains page) : a.contains page := by
  rcases contains_iff.mp hb with hb | hb
  · exact contains_of_containsExclusive (encompasses_containsExclusive h hb)
  · exact encompasses_containsNonExclusive h hb

/-- If `excludes_unique` holds, no page the first region holds exclusively is a page of the
second: the second's pages all lie on one side of the first's exclusive interval, its shared ones
included, since that interval is a union of subtrees. -/
theorem not_contains_of_excludesUnique (h : a.excludesUnique b) (ha : a.containsExclusive page) :
    ¬b.contains page := by
  intro hb
  have ha' := containsExclusive_iff.mp ha
  rcases excludesUnique_iff.mp h with hab | hba
  · -- `a` ends before `b` begins
    rcases contains_iff.mp hb with hb | hb
    · exact absurd ((containsExclusive_iff.mp hb).1.trans ha'.2) (not_le.mpr hab)
    · obtain ⟨hpre, _⟩ := (containsNonExclusive_iff b page).mp hb
      have hmin := containsExclusive_iff.mp (containsExclusive_of_descendant ha hpre)
      exact absurd hmin.2 (not_le.mpr hab)
  · -- `b` ends before `a` begins
    rcases contains_iff.mp hb with hb | hb
    · exact absurd ((containsExclusive_iff.mp hb).2.trans_lt hba) (not_lt.mpr ha'.1)
    · obtain ⟨hpre, hne⟩ := (containsNonExclusive_iff b page).mp hb
      have hlt : page < b.exclusiveMin := PathOrder.lt_of_prefix_of_ne hpre hne
      exact absurd ((hlt.trans_le (exclusiveMin_le_exclusiveMax b)).trans hba) (not_lt.mpr ha'.1)

/-- `PageRegion` keeps the contract of the `unsafe` traits `Region` and `RegionContains`: a region
holds at all what it holds exclusively; a region that encompasses another holds every page the
other does, exclusively or shared as the other does; and of two regions that exclude each other,
neither holds exclusively a page the other holds at all. -/
theorem keeps_region_contract (a b : PageRegion) (page : PageId) :
    (a.containsExclusive page → a.contains page) ∧
      (a.encompasses b → b.containsExclusive page → a.containsExclusive page) ∧
      (a.encompasses b → b.contains page → a.contains page) ∧
      (a.excludesUnique b → ¬(a.containsExclusive page ∧ b.contains page) ∧
        ¬(b.containsExclusive page ∧ a.contains page)) := by
  refine ⟨contains_of_containsExclusive, encompasses_containsExclusive, encompasses_contains,
    fun h => ⟨fun ⟨ha, hb⟩ => ?_, fun ⟨hb, ha⟩ => ?_⟩⟩
  · exact not_contains_of_excludesUnique h ha hb
  · rw [excludesUnique_comm] at h
    exact not_contains_of_excludesUnique h hb ha

/-! ### Regions of the root's children -/

/-- `from_page_id_descendants` succeeds only for `min ≤ max`, with the exclusive interval from
the child `min` to the largest descendant of the child `max`. -/
theorem fromPageIdDescendants_eq_some {p : PageId} {min max : ChildPageIndex}
    (h : fromPageIdDescendants p min max = some r) :
    min.index ≤ max.index ∧ r.exclusiveMin.path = p.path ++ [min.index] ∧
      r.exclusiveMax.path = PathOrder.maxExt maxPageDepth maxChildIndex (p.path ++ [max.index]) := by
  unfold fromPageIdDescendants at h
  split_ifs at h with hle
  split at h
  · rename_i c d hc hd
    cases h
    exact ⟨hle, childPageId_path hc, by rw [← childPageId_path hd]; rfl⟩
  · cases h

/-- Above the maximum depth, `from_page_id_descendants` succeeds for every `min ≤ max`. -/
theorem fromPageIdDescendants_isSome {p : PageId} {min max : ChildPageIndex}
    (hle : min.index ≤ max.index) (hdepth : p.path.length < maxPageDepth) :
    (fromPageIdDescendants p min max).isSome := by
  have hchild : ∀ i : ChildPageIndex, ∃ c, p.childPageId i = .ok c := fun i =>
    ⟨_, dif_neg (Nat.not_le.mpr hdepth)⟩
  obtain ⟨c, hc⟩ := hchild min
  obtain ⟨d, hd⟩ := hchild max
  unfold fromPageIdDescendants
  rw [dif_pos hle]
  split
  · rfl
  · rename_i hne
    exact absurd (hne c d hc hd) id

variable {min max min' max' : ChildPageIndex}

/-- A region of the root's children `min..=max` holds exclusively the pages below them. -/
theorem containsExclusive_iff_of_root (h : fromPageIdDescendants rootPageId min max = some r) :
    r.containsExclusive page ↔
      ∃ c, page.childIndexAtLevel 0 = some c ∧ min.index ≤ c.index ∧ c.index ≤ max.index := by
  obtain ⟨_, hmin, hmax⟩ := fromPageIdDescendants_eq_some h
  rw [containsExclusive_iff, le_def, le_def, hmin, hmax]
  obtain ⟨path, hlen, hle⟩ := page
  cases path with
  | nil =>
    -- the root page is above the region
    simp [childIndexAtLevel, rootPageId]
  | cons x rest =>
    have hchild : childIndexAtLevel ⟨x :: rest, hlen, hle⟩ 0 = some ⟨x, hle x List.mem_cons_self⟩ :=
      dif_pos (Nat.succ_pos _)
    rw [hchild]
    simp only [rootPageId, List.nil_append, Option.some.injEq, exists_eq_left']
    rw [PathOrder.singleton_le_cons_iff, PathOrder.cons_le_maxExt_singleton_iff (bounded ⟨x :: rest, hlen, hle⟩)]

/-- Regions of the root's children exclude each other when one's children all come before the
other's. -/
theorem excludesUnique_of_root (ha : fromPageIdDescendants rootPageId min max = some a)
    (hb : fromPageIdDescendants rootPageId min' max' = some b) (hlt : max.index < min'.index) :
    a.excludesUnique b := by
  obtain ⟨_, _, hmax⟩ := fromPageIdDescendants_eq_some ha
  obtain ⟨_, hmin', _⟩ := fromPageIdDescendants_eq_some hb
  refine excludesUnique_iff.mpr (.inl ?_)
  rw [lt_def, hmax, hmin']
  exact PathOrder.maxExt_singleton_lt_singleton hlt

end PageRegion

open RwPass

/-- `impl Region for PageRegion`. -/
instance : Region PageRegion := ⟨PageRegion.encompasses, PageRegion.excludesUnique⟩

/-- `impl RegionContains<PageId> for PageRegion`. -/
instance : RegionContains PageRegion PageId := ⟨PageRegion.contains, PageRegion.containsExclusive⟩

/-- The `unsafe` impls keep the contract they claim. -/
instance : LawfulRegion PageRegion PageId where
  contains_of_containsExclusive := PageRegion.contains_of_containsExclusive
  encompasses_containsExclusive := PageRegion.encompasses_containsExclusive
  encompasses_contains := PageRegion.encompasses_contains
  excludesUnique_containsExclusive := PageRegion.not_contains_of_excludesUnique
  excludesUnique_contains h hother :=
    PageRegion.not_contains_of_excludesUnique (PageRegion.excludesUnique_comm ▸ h) hother

end Nomt

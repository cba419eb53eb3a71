import Redbx.Allocator.Tracking

/-
  Layouts along a run, and the layout recalculated from the length of the file when a database is
  opened for repair.

  Key theorems include:
    * `DatabaseLayout.recalculate_eq`, `DatabaseLayout.recalculate_keeps_regions`
-/

namespace Redbx

open Option

namespace DatabaseLayout

-- Recalculation

/- The last region of `recalculate`, from the bytes left for it. -/
def recalculateTrailing (remaining regionHeaderPages regionMaxDataPages pageSize : Nat) :
    Option (Option RegionLayout) :=
  if (regionHeaderPages + 1) * pageSize ≤ remaining then
    let remaining := remaining - regionHeaderPages * pageSize
    let dataPages := remaining / pageSize
    if remaining < 2 ^ 32 ∧ dataPages < regionMaxDataPages then
      (RegionLayout.new dataPages regionHeaderPages pageSize).map some
    else
      none
  else
    some none

/- Panics when the file has no page, or too many regions. -/
def recalculate (fileLen regionHeaderPages regionMaxDataPages pageSize : Nat) :
    Option DatabaseLayout := do
  let remaining := fileLen - pageSize
  let fullRegionSize := (regionHeaderPages + regionMaxDataPages) * pageSize
  let fullRegions := remaining / fullRegionSize
  let trailing ← recalculateTrailing (remaining - fullRegions * fullRegionSize)
    regionHeaderPages regionMaxDataPages pageSize
  let full ← RegionLayout.new regionMaxDataPages regionHeaderPages pageSize
  if pageSize ≤ fileLen ∧ fullRegionSize ≠ 0 ∧ fullRegions < 2 ^ 32 then
    some ⟨full, fullRegions, trailing⟩
  else
    none

/- The layout that `try_shrink` goes to. -/
def shrunk (layout : DatabaseLayout) (trailingFree : Nat) (force : Bool) : Option DatabaseLayout :=
  layout.reduceLastRegion (InMemoryState.reduceBy layout.numRegions trailingFree
    layout.lastRegion.numPages force)

/-
  Layouts of a file from its creation on. A file does not grow beyond the regions that the tracker
  has room for.
-/
inductive Reachable (capacity pageSize : Nat) : DatabaseLayout → Prop
  | created {layout : DatabaseLayout} {m : Nat} (hPages : 0 < m)
      (hLayout : calculate (pageSize * m) capacity 0 pageSize = some layout)
      (hRegions : layout.numRegions ≤ maxRegions) :
      Reachable capacity pageSize layout
  | grown {memory : InMemoryState} {after : DatabaseLayout} {requiredOrder : Nat}
      (hReach : Reachable capacity pageSize memory.layout)
      (hLayout : memory.grownLayout requiredOrder = some after)
      (hRegions : after.numRegions ≤ maxRegions) :
      Reachable capacity pageSize after
  | shrunk {layout after : DatabaseLayout} {trailingFree : Nat} {force : Bool}
      (hReach : Reachable capacity pageSize layout)
      (hFree : trailingFree ≤ layout.lastRegion.numPages)
      (hLayout : layout.shrunk trailingFree force = some after) :
      Reachable capacity pageSize after

-- What All Layouts Have In Common

/- No region has a header of its own. -/
structure Plain (capacity pageSize : Nat) (layout : DatabaseLayout) : Prop where
  valid : layout.Valid
  full : layout.fullRegionLayout = ⟨capacity, 0, pageSize⟩
  trailing : ∀ {region}, layout.trailingPartialRegion = some region → region.headerPages = 0
  regions : layout.numRegions ≤ maxRegions

variable {layout after : DatabaseLayout} {capacity pageSize : Nat}

theorem calculate_trailing {desired header : Nat} {region : RegionLayout}
    (hLayout : calculate desired capacity header pageSize = some layout)
    (hTrailing : layout.trailingPartialRegion = some region) :
    region.headerPages = header := by
  have hRegion : ∀ {bytes region}, RegionLayout.calculate bytes capacity header pageSize =
      some region → region.headerPages = header := by
    intro bytes region hCalc
    rw [RegionLayout.calculate] at hCalc
    split at hCalc
    · cases hCalc
      rfl
    · cases hCalc
  rw [calculate] at hLayout
  rcases bind_eq_some_iff.mp hLayout with ⟨full, _, hLayout⟩
  dsimp only at hLayout
  split at hLayout
  · rcases bind_eq_some_iff.mp hLayout with ⟨_, hSingle, hEq⟩
    cases hEq
    cases hTrailing
    exact hRegion hSingle
  · split at hLayout
    · rcases bind_eq_some_iff.mp hLayout with ⟨last, hLast, hEq⟩
      cases hEq
      cases hTrailing
      exact hRegion hLast
    · cases hLayout
      cases hTrailing

theorem reduceLastRegion_trailing
    {count : Nat} {region : RegionLayout} (hPlain : layout.Plain capacity pageSize)
    (hReduce : layout.reduceLastRegion count = some after)
    (hTrailing : after.trailingPartialRegion = some region) :
    region.headerPages = 0 := by
  rw [reduceLastRegion] at hReduce
  cases hOld : layout.trailingPartialRegion with
  | some trailing =>
    simp only [hOld] at hReduce
    split at hReduce
    · cases hReduce
      dsimp only at hTrailing
      split at hTrailing
      · cases hTrailing
      · cases hTrailing
        exact (hPlain.trailing hOld :)
    · cases hReduce
  | none =>
    simp only [hOld, hPlain.full] at hReduce
    split at hReduce
    · cases hReduce
    · split at hReduce
      · rcases bind_eq_some_iff.mp hReduce with ⟨_, hNew, hEq⟩
        cases hEq
        cases hTrailing
        rw [RegionLayout.new] at hNew
        split at hNew
        · cases hNew
          rfl
        · cases hNew
      · cases hReduce
        cases hTrailing

theorem reduceBy_bounds {trailingFree : Nat} (force : Bool) (hValid : layout.Valid)
    (hFree : trailingFree ≤ layout.lastRegion.numPages) :
    InMemoryState.reduceBy layout.numRegions trailingFree layout.lastRegion.numPages force ≤
        layout.lastRegion.numPages ∧
      (InMemoryState.reduceBy layout.numRegions trailingFree layout.lastRegion.numPages force =
        layout.lastRegion.numPages → 1 < layout.numRegions) := by
  have hLast := hValid.last_bounds.1
  unfold InMemoryState.reduceBy
  split
  · exact ⟨hFree, fun _ => by omega⟩
  · split
    · exact ⟨by omega, fun _ => by omega⟩
    · exact ⟨by omega, fun _ => by omega⟩

theorem Plain.shrunk {trailingFree : Nat} (force : Bool) (hPlain : layout.Plain capacity pageSize)
    (hFree : trailingFree ≤ layout.lastRegion.numPages) :
    ∃ after, layout.shrunk trailingFree force = some after ∧
      after.Plain capacity pageSize ∧ after.pages ≤ layout.pages := by
  rcases reduceBy_bounds force hPlain.valid hFree with ⟨hLe, hKeep⟩
  have hReturns : ∃ after, layout.shrunk trailingFree force = some after := by
    unfold DatabaseLayout.shrunk
    generalize InMemoryState.reduceBy _ _ _ _ = count at hLe
    have hSome := hPlain.valid.regions
    unfold lastRegion at hLe
    unfold numRegions at hSome
    unfold reduceLastRegion
    cases hOld : layout.trailingPartialRegion with
    | some =>
      rw [hOld] at hLe
      exact ⟨_, if_pos hLe⟩
    | none =>
      rw [hOld] at hSome
      change 0 < layout.numFullRegions at hSome
      dsimp only
      rw [if_neg (Nat.ne_of_gt hSome)]
      split
      · rw [RegionLayout.new, if_pos (by omega)]
        exact ⟨_, rfl⟩
      · exact ⟨_, rfl⟩
  rcases hReturns with ⟨after, hAfter⟩
  rcases reduceLastRegion_spec hPlain.valid hLe hKeep hAfter with ⟨hValid, hFull, hCases⟩
  refine ⟨after, hAfter, ⟨hValid, hFull.trans hPlain.full,
    reduceLastRegion_trailing hPlain hAfter, ?_⟩, ?_⟩
  · have hRegions := hPlain.regions
    omega
  · rw [hValid.pages_eq, hPlain.valid.pages_eq, hFull]
    have hSome := hValid.regions
    rcases hCases with ⟨_, hSame, hLast⟩ | ⟨_, hFewer, hLast⟩
    · rw [hSame, hLast]
      omega
    · have hSplit : layout.numRegions - 1 = after.numRegions - 1 + 1 := by omega
      rw [hSplit, hLast, Nat.succ_mul]
      omega

theorem Reachable.plain
    (hPage : 0 < pageSize) (hPages : 0 < capacity) (hCapacity : capacity ≤ maxPageIndex + 1)
    (hReach : Reachable capacity pageSize layout) :
    layout.Plain capacity pageSize := by
  induction hReach with
  | created hM hLayout hRegions =>
    -- the layout extends that of a single page
    have hOne : DatabaseLayout.Valid ⟨⟨capacity, 0, pageSize⟩, 0, some ⟨1, 0, pageSize⟩⟩ := by
      refine ⟨hPage, hPages, hCapacity, ?_, Nat.one_pos⟩
      intro region hIs
      cases hIs
      exact ⟨Nat.one_pos, hPages, rfl⟩
    have hExtends := extends_of_pages hOne (show 0 * capacity + 1 ≤ _ by omega) hLayout
    exact ⟨hExtends.valid, hExtends.full, calculate_trailing hLayout, hRegions⟩
  | grown _ hLayout hRegions ih =>
    have hExtends := grownLayout_extends ih.valid hLayout
    refine ⟨hExtends.valid, hExtends.full.trans ih.full, fun hTrailing => ?_, hRegions⟩
    rw [InMemoryState.grownLayout, ih.full] at hLayout
    exact calculate_trailing hLayout hTrailing
  | shrunk _ hFree hLayout ih =>
    rcases ih.shrunk _ hFree with ⟨after, hAfter, hPlain, _⟩
    cases hLayout.symm.trans hAfter
    exact hPlain

-- Lengths

theorem len_eq (hPlain : layout.Plain capacity pageSize) :
    layout.len = some (pageSize * (1 + layout.pages)) := by
  have hSome := hPlain.valid.regions
  have hHeader : layout.lastRegion.headerPages = 0 ∧ layout.lastRegion.pageSize = pageSize := by
    unfold lastRegion
    cases hTrailing : layout.trailingPartialRegion with
    | none => exact ⟨by rw [getD_none, hPlain.full], by rw [getD_none, hPlain.full]⟩
    | some =>
      refine ⟨hPlain.trailing hTrailing, ?_⟩
      rw [getD_some, (hPlain.valid.trailing hTrailing).2.2, hPlain.full]
  rw [len, regionBaseAddress, if_pos (by omega), regionLayout_eq (by omega), if_neg (by omega),
    hPlain.valid.pages_eq, hPlain.full]
  simp only [bind_eq_bind, bind_some, RegionLayout.len, RegionLayout.usableBytes,
    hHeader, Nat.zero_mul, Nat.zero_add]
  congr 1
  rw [Nat.mul_add, Nat.mul_add, Nat.mul_one, Nat.mul_left_comm, Nat.add_assoc]

/- Full regions as many as there are, and the rest in one more. -/
theorem recalculate_eq {m : Nat} (hPage : 0 < pageSize) (hPages : 0 < capacity)
    (hBytes : capacity * pageSize ≤ 2 ^ 32) (hRegions : m / capacity < 2 ^ 32) :
    recalculate (pageSize * (1 + m)) 0 capacity pageSize =
      some ⟨⟨capacity, 0, pageSize⟩, m / capacity,
        if 0 < m % capacity then some ⟨m % capacity, 0, pageSize⟩ else none⟩ := by
  have hRemaining : pageSize * (1 + m) - pageSize = pageSize * m := by
    rw [Nat.mul_add, Nat.mul_one, Nat.add_sub_cancel_left]
  have hSize : (0 + capacity) * pageSize = pageSize * capacity := by rw [Nat.zero_add, Nat.mul_comm]
  have hDiv : pageSize * m / (pageSize * capacity) = m / capacity := Nat.mul_div_mul_left _ _ hPage
  have hRest : pageSize * m - m / capacity * (pageSize * capacity) = pageSize * (m % capacity) := by
    rw [Nat.mod_eq_sub_mul_div, Nat.mul_sub, Nat.mul_left_comm (m / capacity),
      Nat.mul_comm (m / capacity)]
  have hMod := Nat.mod_lt m hPages
  have hTrailing : recalculateTrailing (pageSize * (m % capacity)) 0 capacity pageSize =
      some (if 0 < m % capacity then some ⟨m % capacity, 0, pageSize⟩ else none) := by
    have hFits : pageSize * (m % capacity) < 2 ^ 32 := by
      refine Nat.lt_of_lt_of_le ?_ hBytes
      rw [Nat.mul_comm]
      exact Nat.mul_lt_mul_of_pos_right hMod hPage
    rw [recalculateTrailing, Nat.zero_add, Nat.one_mul]
    by_cases hSome : 0 < m % capacity
    · rw [if_pos (Nat.le_mul_of_pos_right _ hSome), if_pos hSome]
      dsimp only
      rw [Nat.zero_mul, Nat.sub_zero, Nat.mul_div_cancel_left _ hPage, if_pos ⟨hFits, hMod⟩,
        RegionLayout.new, if_pos hSome]
      rfl
    · have hZero : m % capacity = 0 := by omega
      rw [hZero, Nat.mul_zero, if_neg (by omega), if_neg (by omega)]
  have hFull : pageSize * capacity ≠ 0 := Nat.ne_of_gt (Nat.mul_pos hPage hPages)
  rw [recalculate]
  simp only [hRemaining, hSize, hDiv, hRest, hTrailing, bind_eq_bind, bind_some,
    RegionLayout.new, if_pos hPages]
  rw [if_pos ⟨Nat.le_mul_of_pos_right _ (by omega), hFull, hRegions⟩]

theorem recalculate_pages
    (hBytes : capacity * pageSize ≤ 2 ^ 32) (hPlain : layout.Plain capacity pageSize) :
    ∃ again, recalculate (pageSize * (1 + layout.pages)) 0 capacity pageSize = some again ∧
      again.numRegions = layout.numRegions ∧
      again.fullRegionLayout = layout.fullRegionLayout ∧
      again.lastRegion.numPages = layout.lastRegion.numPages ∧
      again.Plain capacity pageSize := by
  have hPage : 0 < pageSize := by simpa [hPlain.full] using hPlain.valid.pageSize
  have hPages : 0 < capacity := by simpa [hPlain.full] using hPlain.valid.fullPages
  have hCapacity : capacity ≤ maxPageIndex + 1 := by simpa [hPlain.full] using hPlain.valid.capacity
  have hCount := hPlain.valid.pages_eq
  have hLast := hPlain.valid.last_bounds
  have hSome := hPlain.valid.regions
  have hMax := hPlain.regions
  rw [hPlain.full] at hCount hLast
  change 0 < _ ∧ _ ≤ capacity at hLast
  change _ = (_ - 1) * capacity + _ at hCount
  by_cases hWhole : layout.lastRegion.numPages = capacity
  · -- the last region became as large as the others
    have hMul : layout.pages = layout.numRegions * capacity := by
      rw [hCount, hWhole, ← Nat.succ_mul, Nat.succ_eq_add_one, Nat.sub_add_cancel hSome]
    have hDiv : layout.pages / capacity = layout.numRegions := by
      rw [hMul, Nat.mul_div_cancel _ hPages]
    have hMod : layout.pages % capacity = 0 := by rw [hMul, Nat.mul_mod_left]
    refine ⟨_, recalculate_eq hPage hPages hBytes (by rw [hDiv]; unfold maxRegions at hMax; omega),
      ?_⟩
    rw [hDiv, hMod, if_neg (Nat.lt_irrefl 0)]
    exact ⟨rfl, hPlain.full.symm, hWhole.symm, ⟨hPage, hPages, hCapacity, nofun, hSome⟩, rfl,
      nofun, hMax⟩
  · have hLess : layout.lastRegion.numPages < capacity := by omega
    have hDiv : layout.pages / capacity = layout.numRegions - 1 := by
      rw [hCount, Nat.add_comm, Nat.add_mul_div_right _ _ hPages, Nat.div_eq_of_lt hLess,
        Nat.zero_add]
    have hMod : layout.pages % capacity = layout.lastRegion.numPages := by
      rw [hCount, Nat.add_comm, Nat.add_mul_mod_self_right, Nat.mod_eq_of_lt hLess]
    refine ⟨_, recalculate_eq hPage hPages hBytes (by rw [hDiv]; unfold maxRegions at hMax; omega),
      ?_⟩
    rw [hDiv, hMod, if_pos hLast.1]
    have hRegions := Nat.sub_add_cancel hSome
    refine ⟨hRegions, hPlain.full.symm, rfl, ⟨hPage, hPages, hCapacity, ?_, Nat.succ_pos _⟩, rfl,
      ?_, Nat.le_trans (Nat.le_of_eq hRegions) hMax⟩
    · intro region hIs
      cases hIs
      exact ⟨hLast.1, hLast.2, rfl⟩
    · intro region hIs
      cases hIs
      rfl

/-
  Along every run the layout recalculated from the length of the file has the regions of the layout,
  and a shrink leaves a page and no more bytes.
-/
theorem recalculate_keeps_regions
    (hPage : 0 < pageSize) (hPages : 0 < capacity) (hCapacity : capacity ≤ maxPageIndex + 1)
    (hBytes : capacity * pageSize ≤ 2 ^ 32) (hReach : Reachable capacity pageSize layout) :
    (∃ fileLen again, layout.len = some fileLen ∧
      recalculate fileLen layout.fullRegionLayout.headerPages layout.fullRegionLayout.numPages
        layout.fullRegionLayout.pageSize = some again ∧
      again.numRegions = layout.numRegions ∧
      ∀ i < layout.numRegions, (again.regionLayout i).map RegionLayout.numPages =
        (layout.regionLayout i).map RegionLayout.numPages) ∧
      ∀ trailingFree force, trailingFree ≤ layout.lastRegion.numPages →
        ∃ after fileLen afterLen, layout.shrunk trailingFree force = some after ∧
          0 < after.pages ∧ layout.len = some fileLen ∧ after.len = some afterLen ∧
          afterLen ≤ fileLen := by
  have hPlain := hReach.plain hPage hPages hCapacity
  refine ⟨?_, ?_⟩
  · rcases recalculate_pages hBytes hPlain with ⟨again, hAgain, hRegions, hFull, hLast, _⟩
    refine ⟨_, again, len_eq hPlain, by rw [hPlain.full]; exact hAgain, hRegions, ?_⟩
    intro i hi
    rw [regionLayout_eq hi, regionLayout_eq (hRegions ▸ hi), hRegions, hFull]
    split
    · rfl
    · exact congrArg some hLast
  · intro trailingFree force hFree
    rcases hPlain.shrunk force hFree with ⟨after, hAfter, hPlainAfter, hFewer⟩
    refine ⟨after, _, _, hAfter, ?_, len_eq hPlain, len_eq hPlainAfter,
      Nat.mul_le_mul_left _ (Nat.add_le_add_left hFewer 1)⟩
    have hLast := hPlainAfter.valid.last_bounds.1
    rw [hPlainAfter.valid.pages_eq]
    omega

/- A file of one page grows for a pair of pages, and gives the last page back. -/
theorem grown_file_is_recalculated :
    Reachable 4 4096 ⟨⟨4, 0, 4096⟩, 1, none⟩ ∧
      ∃ again, recalculate 20480 0 4 4096 = some again ∧ again.numRegions = 1 := by
  have hCreated : Reachable 4 4096 ⟨⟨4, 0, 4096⟩, 0, some ⟨1, 0, 4096⟩⟩ :=
    .created (m := 1) Nat.one_pos (by decide) (by decide)
  have hGrown : Reachable 4 4096 ⟨⟨4, 0, 4096⟩, 1, some ⟨1, 0, 4096⟩⟩ :=
    @Reachable.grown 4 4096 ⟨_, ⟨⟨[]⟩, []⟩⟩ _ 1 hCreated (by decide) (by decide)
  have hShrunk : Reachable 4 4096 ⟨⟨4, 0, 4096⟩, 1, none⟩ :=
    @Reachable.shrunk 4 4096 _ _ 1 true hGrown (by decide) (by decide)
  rcases (recalculate_keeps_regions (by decide) (by decide) (by decide) (by decide) hShrunk).1 with
    ⟨_, again, hLen, hAgain, hRegions, _⟩
  cases hLen
  exact ⟨hShrunk, again, hAgain, hRegions⟩

end DatabaseLayout

end Redbx

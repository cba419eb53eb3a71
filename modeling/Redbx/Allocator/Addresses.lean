import Redbx.Allocator.RegionRuns
import Redbx.PageStore.Base

/-
  Where the pages of a layout stand in the file: `address_range` of a page number, and the order of
  page numbers.

  Key theorems include:
    * `RegionPage.Before.ranges`, `DatabaseLayout.address_ranges`
-/

namespace Redbx

open Regions

namespace RegionPage

def pageSizeBytes (self : RegionPage) (pageSize : Nat) : Nat := 2 ^ self.pageOrder * pageSize

/- The first byte of the page and the one after its last. -/
def addressRange (self : RegionPage)
    (dataSectionOffset regionSize regionPagesStart pageSize : Nat) : Nat × Nat :=
  let regionalStart := regionPagesStart + self.pageIndex * self.pageSizeBytes pageSize
  let start := dataSectionOffset + self.region * regionSize + regionalStart
  (start, start + self.pageSizeBytes pageSize)

/- The page of order zero that the page begins with, and the one after its last. -/
def order0 (self : RegionPage) : Nat := self.pageIndex * 2 ^ self.pageOrder

def order0End (self : RegionPage) : Nat := (self.pageIndex + 1) * 2 ^ self.pageOrder

/- `cmp`, which panics on pages that begin together and differ. -/
def cmp (self other : RegionPage) : Option Ordering :=
  match compare self.region other.region with
  | .lt => some .lt
  | .eq =>
    if self.order0 ≠ other.order0 ∨ self.pageOrder = other.pageOrder then
      some (compare self.order0 other.order0)
    else
      none
  | .gt => some .gt

/- The blocks have no page of order zero in common. -/
def Apart (self other : RegionPage) : Prop :=
  self.region = other.region → ∀ p, p / 2 ^ self.pageOrder = self.pageIndex →
    p / 2 ^ other.pageOrder ≠ other.pageIndex

/- The block ends before the other one begins. -/
def Before (self other : RegionPage) : Prop :=
  self.region < other.region ∨ self.region = other.region ∧ self.order0End ≤ other.order0

variable {page other : RegionPage} {offset regionSize pagesStart pageSize : Nat}

theorem order0_lt (page : RegionPage) : page.order0 < page.order0End := by
  rw [order0End, Nat.succ_mul]
  exact Nat.lt_add_of_pos_right (Nat.two_pow_pos _)

theorem Apart.before_or (hApart : page.Apart other) : page.Before other ∨ other.Before page := by
  rcases Nat.lt_trichotomy page.region other.region with hLt | hEq | hGt
  · exact Or.inl (Or.inl hLt)
  · by_contra hBoth
    simp only [Before, hEq, Nat.lt_irrefl, true_and, false_or, not_or, not_le] at hBoth
    -- the later of the two first pages is in both blocks
    exact hApart hEq (max page.order0 other.order0)
      (div_pow_eq_iff.mpr ⟨le_max_left _ _, max_lt page.order0_lt hBoth.1⟩)
      (div_pow_eq_iff.mpr ⟨le_max_right _ _, max_lt hBoth.2 other.order0_lt⟩)
  · exact Or.inr (Or.inl hGt)

theorem Before.cmp_eq (hBefore : page.Before other) :
    page.cmp other = some .lt ∧ other.cmp page = some .gt := by
  unfold cmp
  rcases hBefore with hLt | ⟨hEq, hEnd⟩
  · rw [Nat.compare_eq_lt.mpr hLt, Nat.compare_eq_gt.mpr hLt]
    exact ⟨rfl, rfl⟩
  · have hStart := lt_of_lt_of_le page.order0_lt hEnd
    rw [Nat.compare_eq_eq.mpr hEq, Nat.compare_eq_eq.mpr hEq.symm]
    simp [hStart.ne, hStart.ne', Nat.compare_eq_lt.mpr hStart, Nat.compare_eq_gt.mpr hStart]

theorem addressRange_eq (page : RegionPage) (offset regionSize pagesStart pageSize : Nat) :
    page.addressRange offset regionSize pagesStart pageSize =
      (offset + page.region * regionSize + (pagesStart + page.order0 * pageSize),
        offset + page.region * regionSize + (pagesStart + page.order0End * pageSize)) := by
  simp only [addressRange, pageSizeBytes, order0, order0End, Nat.mul_assoc, Nat.succ_mul, Nat.add_mul,
    Nat.add_assoc]

theorem end_le (hInside : pagesStart + page.order0End * pageSize ≤ regionSize) :
    (page.addressRange offset regionSize pagesStart pageSize).2 ≤
      offset + (page.region + 1) * regionSize := by
  rw [addressRange_eq, Nat.succ_mul]
  dsimp only
  omega

theorem Before.ranges (hInside : pagesStart + page.order0End * pageSize ≤ regionSize)
    (hBefore : page.Before other) :
    (page.addressRange offset regionSize pagesStart pageSize).2 ≤
      (other.addressRange offset regionSize pagesStart pageSize).1 := by
  rcases hBefore with hLt | ⟨hEq, hEnd⟩
  · have hNext := Nat.mul_le_mul_right regionSize (Nat.succ_le_of_lt hLt)
    refine Nat.le_trans (end_le hInside) ?_
    rw [addressRange_eq]
    dsimp only [Nat.succ_eq_add_one] at hNext ⊢
    omega
  · rw [addressRange_eq, addressRange_eq, hEq]
    exact Nat.add_le_add_left (Nat.add_le_add_left (Nat.mul_le_mul_right _ hEnd) _) _

end RegionPage

namespace DatabaseLayout

open RegionPage PageRegions

/- The address range as `TransactionalMemory` asks for it. -/
def addressRange (layout : DatabaseLayout) (page : RegionPage) : Nat × Nat :=
  page.addressRange layout.fullRegionLayout.pageSize layout.fullRegionLayout.len
    (layout.fullRegionLayout.headerPages * layout.fullRegionLayout.pageSize)
    layout.fullRegionLayout.pageSize

/- The allocator of the page's region has the block. -/
structure HandsOut (layout : DatabaseLayout) (page : RegionPage) : Prop where
  region : page.region < layout.numRegions
  inside : page.order0End ≤ sizeOf layout page.region

variable {layout : DatabaseLayout} {page other : RegionPage} (hValid : layout.Valid)
  (hPage : layout.HandsOut page)

/- Every page in use is one that its allocator has. -/
theorem HandsOut.of_live {memory : InMemoryState} {live : Finset RegionPage}
    (hSound : Sound memory live) (hLive : page ∈ live) : memory.layout.HandsOut page := by
  have hRegion := hSound.sound.inside hLive
  have hAt := List.getElem?_eq_getElem hRegion
  have hWithin := (hSound.sound.regions hAt).within (mem_liveIn.mpr hLive)
  rw [hSound.sizes hAt] at hWithin
  exact ⟨hSound.length ▸ hRegion, hWithin⟩

include hValid hPage

theorem HandsOut.le_numPages : page.order0End ≤ layout.fullRegionLayout.numPages := by
  refine Nat.le_trans hPage.inside ?_
  unfold Regions.sizeOf
  split
  · exact Nat.le_refl _
  · exact hValid.last_bounds.2

theorem HandsOut.in_region :
    layout.fullRegionLayout.headerPages * layout.fullRegionLayout.pageSize +
      page.order0End * layout.fullRegionLayout.pageSize ≤ layout.fullRegionLayout.len := by
  rw [RegionLayout.len, RegionLayout.usableBytes, Nat.mul_comm layout.fullRegionLayout.pageSize]
  exact Nat.add_le_add_left (Nat.mul_le_mul_right _ (hPage.le_numPages hValid)) _

theorem HandsOut.in_file
    (hHeader : layout.lastRegion.headerPages = layout.fullRegionLayout.headerPages) :
    ∃ len, layout.len = some len ∧ layout.fullRegionLayout.pageSize ≤ (layout.addressRange page).1 ∧
      (layout.addressRange page).2 ≤ len := by
  have hLast := Nat.sub_lt hValid.regions Nat.one_pos
  have hSize : layout.lastRegion.pageSize = layout.fullRegionLayout.pageSize := by
    unfold lastRegion
    cases hTrailing : layout.trailingPartialRegion with
    | none => rfl
    | some => exact (hValid.trailing hTrailing).2.2
  have hLen : layout.len = some (layout.fullRegionLayout.pageSize +
      (layout.numRegions - 1) * layout.fullRegionLayout.len + layout.lastRegion.len) := by
    simp only [len, regionBaseAddress, if_pos hLast, regionLayout_eq hLast]
    rw [if_neg (by omega)]
    rfl
  have hRegion := hPage.region
  refine ⟨_, hLen, ?_, ?_⟩
  · rw [addressRange, addressRange_eq]
    dsimp only
    omega
  · by_cases hMore : page.region + 1 < layout.numRegions
    · have hNext := Nat.mul_le_mul_right layout.fullRegionLayout.len
        (show page.region + 1 ≤ layout.numRegions - 1 by omega)
      exact Nat.le_trans (end_le (hPage.in_region hValid)) (by omega)
    · have hInside := hPage.inside
      rw [Regions.sizeOf, if_neg hMore] at hInside
      rw [addressRange, addressRange_eq, show page.region = layout.numRegions - 1 by omega,
        RegionLayout.len.eq_1 layout.lastRegion, RegionLayout.usableBytes, hHeader, hSize,
        Nat.mul_comm _ layout.lastRegion.numPages]
      exact Nat.add_le_add_left (Nat.add_le_add_left (Nat.mul_le_mul_right _ hInside) _) _

theorem HandsOut.exists_number (hRegions : layout.numRegions ≤ 2 ^ 20) :
    ∃ number : PageNumber, number.region = page.region ∧ number.pageIndex = page.pageIndex ∧
      number.pageOrder = page.pageOrder := by
  have hRegion := hPage.region
  have hInside : (page.pageIndex + 1) * 2 ^ page.pageOrder ≤ 2 ^ 20 :=
    Nat.le_trans (hPage.le_numPages hValid) hValid.capacity
  have hOrder : page.pageOrder ≤ 20 := by
    apply (Nat.pow_le_pow_iff_right (by decide : 1 < 2)).mp
    exact Nat.le_trans (Nat.le_mul_of_pos_left _ (Nat.succ_pos _)) hInside
  have hIndex : page.pageIndex + 1 ≤ 2 ^ (20 - page.pageOrder) := by
    rw [← Nat.pow_div hOrder (by decide)]
    exact (Nat.le_div_iff_mul_le (Nat.two_pow_pos _)).mpr hInside
  exact ⟨⟨page.region, page.pageIndex, page.pageOrder, by omega, hIndex, by omega⟩, rfl, rfl, rfl⟩

/-
  The pages of a layout with their blocks apart stand apart in the file, behind the header page and
  in the order of their numbers, and their numbers are read back.
-/
theorem address_ranges
    (hHeader : layout.lastRegion.headerPages = layout.fullRegionLayout.headerPages)
    (hRegions : layout.numRegions ≤ 2 ^ 20) (hOther : layout.HandsOut other)
    (hApart : page.Apart other) :
    ((layout.addressRange page).2 ≤ (layout.addressRange other).1 ∨
        (layout.addressRange other).2 ≤ (layout.addressRange page).1) ∧
      (∃ len, layout.len = some len ∧
        layout.fullRegionLayout.pageSize ≤ (layout.addressRange page).1 ∧
          (layout.addressRange page).2 ≤ len) ∧
      page.cmp other =
        some (compare (layout.addressRange page).1 (layout.addressRange other).1) ∧
      ∃ number : PageNumber, (number.region = page.region ∧ number.pageIndex = page.pageIndex ∧
        number.pageOrder = page.pageOrder) ∧
          PageNumber.fromLeBytes number.toLeBytes = number := by
  have hPos (page : RegionPage) : (layout.addressRange page).1 < (layout.addressRange page).2 :=
    Nat.lt_add_of_pos_right (Nat.mul_pos (Nat.two_pow_pos _) hValid.pageSize)
  have hBlock := hPage.in_region hValid
  have hOtherBlock := hOther.in_region hValid
  rcases hPage.exists_number hValid hRegions with ⟨number, hNumber⟩
  refine ⟨hApart.before_or.imp (·.ranges hBlock) (·.ranges hOtherBlock),
    hPage.in_file hValid hHeader, ?_, number, hNumber, number.fromLeBytes_toLeBytes⟩
  rcases hApart.before_or with hBefore | hAfter
  · have hLt := lt_of_lt_of_le (hPos page) (hBefore.ranges hBlock)
    exact hBefore.cmp_eq.1.trans (congrArg some (Nat.compare_eq_lt.mpr hLt).symm)
  · have hGt := lt_of_lt_of_le (hPos other) (hAfter.ranges hOtherBlock)
    exact hAfter.cmp_eq.2.trans (congrArg some (Nat.compare_eq_gt.mpr hGt).symm)

omit hValid hPage in
/- Two pages of one region. -/
theorem two_pages_stand_apart : twoPages.HandsOut ⟨0, 0, 0⟩ ∧ twoPages.HandsOut ⟨0, 1, 0⟩ ∧
      (RegionPage.mk 0 0 0).cmp ⟨0, 1, 0⟩ = some (compare (twoPages.addressRange ⟨0, 0, 0⟩).1
        (twoPages.addressRange ⟨0, 1, 0⟩).1) := by
  have hFirst : twoPages.HandsOut ⟨0, 0, 0⟩ := ⟨by decide, by decide⟩
  have hSecond : twoPages.HandsOut ⟨0, 1, 0⟩ := ⟨by decide, by decide⟩
  refine ⟨hFirst, hSecond, (address_ranges twoPages_valid hFirst rfl (by decide) hSecond ?_).2.2.1⟩
  intro _ p hp hq
  exact absurd (hp.symm.trans hq) (by decide)

omit hValid hPage

theorem apart_of_live {memory : InMemoryState} {live : Finset RegionPage} (hSound : Sound memory live)
    (hLive : page ∈ live) (hOther : other ∈ live) (hNe : page ≠ other) : page.Apart other := by
  rcases page with ⟨region, index, order⟩
  rcases other with ⟨_, index', order'⟩
  intro hSame p hIn hIn'
  dsimp only at hSame hIn hIn'
  subst hSame hIn hIn'
  -- a page of both blocks would be handed out with two orders
  have hAt := List.getElem?_eq_getElem (hSound.sound.inside hLive)
  have hOrder :=
    (hSound.sound.regions hAt).single (mem_liveIn.mpr hLive) (mem_liveIn.mpr hOther)
  exact hNe (by rw [hOrder])

/-
  In every state that allocations, frees, aborts and commits lead to, the pages in use stand apart in
  the file, behind its header page: a write to one of them leaves the others alone.
-/
theorem live_pages_stand_apart {start self : PageRegions} {events : List RegionEvent}
    (hValid : layout.Valid) (hRegions : layout.numRegions ≤ maxRegions)
    (hOpened : opened layout = some start) (hRun : start.run events = some self)
    (hLive : page ∈ self.live) (hOther : other ∈ self.live) (hNe : page ≠ other) :
    self.memory.layout.fullRegionLayout.pageSize ≤ (self.memory.layout.addressRange page).1 ∧
      ((self.memory.layout.addressRange page).2 ≤ (self.memory.layout.addressRange other).1 ∨
        (self.memory.layout.addressRange other).2 ≤ (self.memory.layout.addressRange page).1) := by
  rcases Option.bind_eq_some_iff.mp hOpened with ⟨_, hNew, hSome⟩
  cases hSome
  have hSound := run_sound (new_spec hValid hRegions hNew).1 (Finset.empty_subset _) hRun
  have hBlock := (HandsOut.of_live hSound hLive).in_region hSound.layout
  have hOtherBlock := (HandsOut.of_live hSound hOther).in_region hSound.layout
  have hApart := apart_of_live hSound hLive hOther hNe
  refine ⟨?_, hApart.before_or.imp (·.ranges hBlock) (·.ranges hOtherBlock)⟩
  rw [addressRange, addressRange_eq]
  dsimp only
  omega

/- Both pages of a new file are taken. -/
theorem taken_pages_stand_apart : ∃ start self, opened twoPages = some start ∧
    start.run [.allocate 0 false true true, .allocate 0 false true true] = some self ∧
      (self.memory.layout.addressRange ⟨0, 0, 0⟩).2 ≤
        (self.memory.layout.addressRange ⟨0, 1, 0⟩).1 := by
  have hCheck : ((opened twoPages).bind fun start =>
      (start.run [.allocate 0 false true true, .allocate 0 false true true]).map fun self =>
        (decide (⟨0, 0, 0⟩ ∈ self.live ∧ ⟨0, 1, 0⟩ ∈ self.live),
          decide ((self.memory.layout.addressRange ⟨0, 1, 0⟩).2 ≤
            (self.memory.layout.addressRange ⟨0, 0, 0⟩).1))) = some (true, false) := by
    decide +kernel
  rcases Option.bind_eq_some_iff.mp hCheck with ⟨start, hOpened, hMap⟩
  rcases Option.map_eq_some_iff.mp hMap with ⟨self, hRun, hEq⟩
  simp only [Prod.mk.injEq, decide_eq_true_eq, decide_eq_false_iff_not] at hEq
  rcases hEq with ⟨⟨hLive, hOther⟩, hNot⟩
  exact ⟨start, self, hOpened, hRun, (live_pages_stand_apart twoPages_valid (by decide) hOpened hRun
    hLive hOther (by decide)).2.resolve_right hNot⟩

end DatabaseLayout

end Redbx

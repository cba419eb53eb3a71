import Mathlib.Data.Finset.Image
import Redbx.Allocator.Tracking

/-
  What the operations on all regions of a file do.

  Beside the allocators we keep the pages that were handed out and not given back. Every operation
  that returns keeps each region sound, and all but one keep the tracker right: a page that is freed
  may merge with its neighbours into a larger block, but only its own order is marked.

  Key theorems include:
    * `Regions.tryShrink_spec`, `Regions.new_spec`
-/

namespace Redbx

open List Option

namespace Regions

open BuddyAllocator RegionTracker

-- Pages In Use

/- The blocks of one region that are in use. -/
def liveIn (live : Finset RegionPage) (region : Nat) : Finset (Nat × Nat) :=
  (live.filter (fun page => page.region = region)).image
    fun page => (page.pageOrder, page.pageIndex)

variable {order : Nat}

theorem mem_liveIn {live : Finset RegionPage} {region index : Nat} :
    (order, index) ∈ liveIn live region ↔ ⟨region, index, order⟩ ∈ live := by
  rw [liveIn, Finset.mem_image]
  constructor
  · rintro ⟨page, hPage, hEq⟩
    rcases Finset.mem_filter.mp hPage with ⟨hIn, rfl⟩
    cases hEq
    exact hIn
  · intro hIn
    exact ⟨_, Finset.mem_filter.mpr ⟨hIn, rfl⟩, rfl⟩

/- The pages of a region of a layout. -/
def sizeOf (layout : DatabaseLayout) (i : Nat) : Nat :=
  if i + 1 < layout.numRegions then
    layout.fullRegionLayout.numPages
  else
    layout.lastRegion.numPages

/- Each allocator is sound, with the blocks in use. -/
structure RegionsSound
    (allocators : List BuddyAllocator) (live : Finset RegionPage) (capacity : Nat) :
    Prop where
  regions : ∀ {i allocator}, allocators[i]? = some allocator →
    LiveAllocator.Sound ⟨allocator, liveIn live i⟩ capacity
  inside : ∀ {page}, page ∈ live → page.region < allocators.length

/- The allocators fit the layout, and the bitmaps are sound. -/
structure Sound (memory : InMemoryState) (live : Finset RegionPage) : Prop where
  layout : memory.layout.Valid
  length : memory.allocators.regionAllocators.length = memory.layout.numRegions
  sound : RegionsSound memory.allocators.regionAllocators live
    memory.layout.fullRegionLayout.numPages
  sizes : ∀ {i allocator}, memory.allocators.regionAllocators[i]? = some allocator →
        allocator.len = sizeOf memory.layout i
  tracker : ∃ regions, memory.allocators.regionTracker.Sound regions

/- A region with a wholly free block is not marked full for the order of the block. -/
def Tracked (allocators : Allocators) : Prop :=
  ∀ {i allocator}, allocators.regionAllocators[i]? = some allocator → ∀ {order index},
        allocator.WhollyFree order index → allocators.regionTracker.full order i = false

variable {memory after : InMemoryState} {live : Finset RegionPage} {capacity : Nat}

variable {other : Finset RegionPage}

variable {i : Nat}

/- The blocks of other regions stay in use. -/
theorem liveIn_congr (hSame : ∀ page : RegionPage, page.region = i → (page ∈ other ↔ page ∈ live)) :
    liveIn other i = liveIn live i := by
  ext block
  rcases block with ⟨_, _⟩
  rw [mem_liveIn, mem_liveIn]
  exact hSame _ rfl

variable {allocator : BuddyAllocator}

/- One region changes, and so do its blocks in use. -/
theorem RegionsSound.set {allocators : List BuddyAllocator}
    (hSound : RegionsSound allocators live capacity) (hIndex : i < allocators.length)
    (hNew : LiveAllocator.Sound ⟨allocator, liveIn other i⟩ capacity)
    (hSame : ∀ page : RegionPage, page.region ≠ i → (page ∈ other ↔ page ∈ live)) :
    RegionsSound (allocators.set i allocator) other capacity where
  regions := by
    intro k current hAt
    by_cases hk : k = i
    · subst hk
      rw [getElem?_set_self hIndex] at hAt
      cases hAt
      exact hNew
    · rw [getElem?_set_ne (fun h => hk h.symm)] at hAt
      rw [liveIn_congr (fun page hp => hSame page (by
        rw [hp]
        exact hk))]
      exact hSound.regions hAt
  inside := by
    intro page hIn
    rw [length_set]
    by_cases hRegion : page.region = i
    · rw [hRegion]
      exact hIndex
    · exact hSound.inside ((hSame page hRegion).mp hIn)

variable (hSound : Sound memory live)
include hSound

variable {old : BuddyAllocator}

/- One region gets another allocator of the same size. -/
theorem Sound.setRegion (hAt : memory.allocators.regionAllocators[i]? = some old)
    (hNew : LiveAllocator.Sound ⟨allocator, liveIn other i⟩ memory.layout.fullRegionLayout.numPages)
    (hLen : allocator.len = old.len)
    (hSame : ∀ page : RegionPage, page.region ≠ i → (page ∈ other ↔ page ∈ live)) :
    Sound (memory.setRegion i allocator) other := { hSound with
  length := by
    change (List.set ..).length = _
    rw [length_set]
    exact hSound.length
  sound := hSound.sound.set (List.getElem?_eq_some_iff.mp hAt).1 hNew hSame
  sizes := by
    intro k current hCurrent
    change (List.set ..)[k]? = _ at hCurrent
    by_cases hk : k = i
    · subst hk
      rw [getElem?_set_self (List.getElem?_eq_some_iff.mp hAt).1] at hCurrent
      cases hCurrent
      rw [hLen]
      exact hSound.sizes hAt
    · rw [getElem?_set_ne (fun h => hk h.symm)] at hCurrent
      exact hSound.sizes hCurrent }

theorem Sound.setTracker {tracker : RegionTracker} {regions : Nat}
    (hTracker : tracker.Sound regions) :
    Sound (memory.setTracker tracker) live := { hSound with tracker := ⟨regions, hTracker⟩ }

omit hSound in
theorem Tracked.setRegion (hTracked : Tracked memory.allocators)
    (hAt : memory.allocators.regionAllocators[i]? = some old)
    (hFewer : ∀ p, allocator.Free p → old.Free p) :
    Tracked (memory.setRegion i allocator).allocators := by
  intro k current hCurrent order index hFree
  change (List.set ..)[k]? = _ at hCurrent
  by_cases hk : k = i
  · subst hk
    rw [getElem?_set_self (List.getElem?_eq_some_iff.mp hAt).1] at hCurrent
    cases hCurrent
    exact hTracked hAt (fun p hp => hFewer p (hFree p hp))
  · rw [getElem?_set_ne (fun h => hk h.symm)] at hCurrent
    exact hTracked hCurrent hFree

-- Allocation

omit hSound in
theorem allocIn_spec (hConsistent : allocator.Consistent capacity) (order : Nat) (lowest : Bool) :
    (InMemoryState.allocIn allocator order lowest = some (none, allocator) ∧
        ∀ index, ¬ allocator.WhollyFree order index) ∨
      ∃ index after, InMemoryState.allocIn allocator order lowest = some (some index, after) ∧
          allocator.WhollyFree order index ∧
          allocator.Becomes after capacity allocator.len fun p => allocator.Free p ∧
              p / 2 ^ order ≠ index := by
  cases lowest with
  | true =>
    rcases allocLowest_spec hConsistent order with hFail | ⟨index, after, hAlloc, hFree, _, hTaken⟩
    · exact Or.inl hFail
    · exact Or.inr ⟨index, after, hAlloc, hFree, hTaken⟩
  | false => exact LiveAllocator.alloc_spec hConsistent order

omit hSound in
theorem setRegion_self (hAt : memory.allocators.regionAllocators[i]? = some allocator) :
    memory.setRegion i allocator = memory := by
  rcases List.getElem?_eq_some_iff.mp hAt with ⟨hLt, hIs⟩
  rw [InMemoryState.setRegion, ← hIs, set_getElem_self]

/- What the loop of an allocation leaves. -/
def Retried
    (memory : InMemoryState) (live : Finset RegionPage) (order : Nat) (after : InMemoryState) :
    Option RegionPage → Prop
  | none =>
    Sound after live ∧ after.allocators.regionAllocators = memory.allocators.regionAllocators ∧
      ∀ i, after.allocators.regionTracker.full order i = true
  | some page =>
    Sound after (insert page live) ∧ page ∉ live ∧ page.pageOrder = order ∧ ∃ allocator,
        memory.allocators.regionAllocators[page.region]? = some allocator ∧
          allocator.WhollyFree order page.pageIndex

theorem Sound.handOut {index : Nat}
    (hAt : memory.allocators.regionAllocators[i]? = some old) (hFree : old.WhollyFree order index)
    (hTaken : old.Becomes allocator memory.layout.fullRegionLayout.numPages old.len
      fun p => old.Free p ∧ p / 2 ^ order ≠ index) :
    Sound (memory.setRegion i allocator) (insert ⟨i, index, order⟩ live) ∧
      (⟨i, index, order⟩ : RegionPage) ∉ live := by
  rcases LiveAllocator.handOut_sound (hSound.sound.regions hAt) hFree hTaken with ⟨hAfter, hHands⟩
  have hLive : liveIn (insert ⟨i, index, order⟩ live) i =
      insert (order, index) (liveIn live i) := by
    ext block
    rcases block with ⟨o, j⟩
    rw [mem_liveIn, Finset.mem_insert, Finset.mem_insert, mem_liveIn]
    simp [and_comm]
  refine ⟨hSound.setRegion hAt ?_ hTaken.len ?_, ?_⟩
  · rw [hLive]
    exact hAfter
  · intro page hPage
    rw [Finset.mem_insert, or_iff_right]
    rintro rfl
    exact hPage rfl
  · intro hIn
    exact hHands.disjoint (mem_liveIn.mpr hIn) (index * 2 ^ order) (first_page ..) (first_page ..)

variable {found : Option RegionPage}

/-
  The loop of an allocation: it takes a free block, or it leaves every region marked full, and a
  region is marked full only when it has no wholly free block.
-/
theorem retryLoop_spec {turns : Nat} {lowest : Bool}
    (hLoop : InMemoryState.retryLoop order lowest turns memory = some (found, after)) :
    after.layout = memory.layout ∧ Retried memory live order after found ∧
      (Tracked memory.allocators → Tracked after.allocators) := by
  induction turns generalizing memory with
  | zero => cases hLoop
  | succ _ ih =>
    rcases hSound.tracker with ⟨regions, hTracker⟩
    rcases bind_eq_some_iff.mp hLoop with ⟨candidate, hFind, hRest⟩
    rcases findFree_spec hTracker hFind with ⟨hNone, _⟩
    cases candidate with
    | none =>
      cases hRest
      exact ⟨rfl, ⟨hSound, rfl, hNone rfl⟩, id⟩
    | some i =>
      rcases bind_eq_some_iff.mp hRest with ⟨allocator, hAt, hAlloc⟩
      have hConsistent := (hSound.sound.regions hAt).consistent
      rcases allocIn_spec hConsistent order lowest with ⟨hFail, hNo⟩ | ⟨_, _, hTake, hFree, hTaken⟩
      · rw [hFail, bind_eq_bind, bind_some] at hAlloc
        simp only [setRegion_self hAt] at hAlloc
        rcases bind_eq_some_iff.mp hAlloc with ⟨tracker, hMark, hAgain⟩
        rcases markFull_spec hTracker hMark with ⟨hMarked, hFull⟩
        rcases ih (hSound.setTracker hMarked) hAgain with ⟨hLayout, hRetried, hKeep⟩
        refine ⟨hLayout, ?_, fun hTracked => hKeep ?_⟩
        · cases found with
          | none => exact hRetried
          | some page => exact hRetried
        -- the region that is marked has no such block
        · intro k current hCurrent o j hWhole
          change memory.allocators.regionAllocators[k]? = some current at hCurrent
          change tracker.full o k = false
          rw [hFull]
          by_cases hBoth : order ≤ o ∧ k = i
          · rcases hBoth with ⟨hLe, rfl⟩
            rw [hAt] at hCurrent
            cases hCurrent
            exact absurd (fun p hp => hWhole p (page_of_part hLe hp)) (hNo (j * 2 ^ (o - order)))
          · rw [if_neg hBoth]
            exact hTracked hCurrent hWhole
      · rw [hTake, bind_eq_bind, bind_some] at hAlloc
        cases hAlloc
        rcases hSound.handOut hAt hFree hTaken with ⟨hAfter, hFresh⟩
        refine ⟨rfl, ⟨hAfter, hFresh, rfl, allocator, hAt, hFree⟩, fun hTracked =>
            hTracked.setRegion hAt ?_⟩
        intro p hp
        exact ((hTaken.covers p).mp hp).1

theorem allocateHelperRetry_spec {lowest : Bool}
    (hRetry : memory.allocateHelperRetry order lowest = some (found, after)) :
    after.layout = memory.layout ∧ Retried memory live order after found ∧
      (Tracked memory.allocators → Tracked after.allocators) := by
  rcases bind_eq_some_iff.mp hRetry with ⟨_, _, hLoop⟩
  exact retryLoop_spec hSound hLoop

theorem no_block_of_retry {lowest : Bool} (hTracked : Tracked memory.allocators)
    (hRetry : memory.allocateHelperRetry order lowest = some (none, after)) {index : Nat}
    (hAt : memory.allocators.regionAllocators[i]? = some allocator) :
    ¬ allocator.WhollyFree order index := by
  intro hFree
  rcases allocateHelperRetry_spec hSound hRetry with ⟨_, ⟨_, hSame, hFull⟩, hKeep⟩
  rw [← hSame] at hAt
  have hUnset := hKeep hTracked hAt hFree
  rw [hFull] at hUnset
  cases hUnset

-- Freeing A Page

/- The blocks above a page that are free but for the page are of orders that are not marked full. -/
def MergesTracked (memory : InMemoryState) (page : RegionPage) : Prop :=
  ∀ allocator, memory.allocators.regionAllocators[page.region]? = some allocator →
    ∀ order index, page.pageOrder < order →
      (∀ p, p / 2 ^ page.pageOrder = page.pageIndex → p / 2 ^ order = index) →
      (∀ p, p / 2 ^ order = index → p / 2 ^ page.pageOrder = page.pageIndex ∨ allocator.Free p) →
      memory.allocators.regionTracker.full order page.region = false

omit hSound

theorem rollbackPage_eq (memory : InMemoryState) (page : RegionPage) :
    memory.rollbackPage page = memory.freeHelper page := by
  unfold InMemoryState.rollbackPage InMemoryState.freeHelper
  cases hMark : memory.allocators.regionTracker.markFree page.pageOrder page.region with
  | none =>
    cases hAt : memory.allocators.regionAllocators[page.region]? with
    | none => simp
    | some region =>
      cases hFree : region.freeBlock page.pageIndex page.pageOrder with
      | none => simp [hFree]
      | some => simp [InMemoryState.setRegion, hMark]
  | some =>
    cases hAt : memory.allocators.regionAllocators[page.region]? with
    | none => simp [InMemoryState.setTracker, hAt]
    | some region =>
      cases hFree : region.freeBlock page.pageIndex page.pageOrder with
      | none => simp [InMemoryState.setTracker, hAt, hFree]
      | some =>
        simp [InMemoryState.setTracker, InMemoryState.setRegion, hAt, hFree, hMark]

/- A block in use of one region comes back. -/
theorem freed_sound {blocks : Finset (Nat × Nat)} {index : Nat}
    (hSound : LiveAllocator.Sound ⟨old, blocks⟩ capacity) (hIn : (order, index) ∈ blocks)
    (hFree : old.freeBlock index order = some allocator) :
    LiveAllocator.Sound ⟨allocator, blocks.erase (order, index)⟩ capacity ∧
      allocator.len = old.len ∧
      ∀ p, allocator.Free p ↔ old.Free p ∨ p / 2 ^ order = index := by
  have hConsistent : old.Consistent capacity := hSound.consistent
  have hEnd : (index + 1) * 2 ^ order ≤ old.len := hSound.within hIn
  have hNot : ∀ p, p / 2 ^ order = index → ¬ old.Free p := by
    intro p hp
    have hBelow : p < old.len := by
      have hLt := (div_pow_eq_iff.mp hp).2
      omega
    exact (hSound.taken p hBelow).mp ⟨order, hp ▸ hIn⟩
  rcases LiveAllocator.freeBlock_spec hConsistent (hSound.order_le hIn) hEnd hNot with
    ⟨_, hFreed, hBecomes⟩
  rcases LiveAllocator.call_sound hSound (.free index order) hIn with ⟨_, _, hCall, hAfter, _⟩
  rw [hFree] at hFreed
  cases hFreed
  rw [LiveAllocator.call, hFree] at hCall
  cases hCall
  exact ⟨hAfter, hBecomes.len, hBecomes.covers⟩

/- A block whose pages are in a higher block. -/
theorem div_pow_of_le {p o index : Nat} (hLe : order ≤ o) (hp : p / 2 ^ order = index) :
    p / 2 ^ o = index * 2 ^ order / 2 ^ o := by
  have hSplit := div_pow_add p order (o - order)
  have hFirst := div_pow_add (index * 2 ^ order) order (o - order)
  rw [Nat.add_sub_cancel' hLe] at hSplit hFirst
  rw [hSplit, hFirst, hp, first_page]

/-
  After a page came back the tracker is right exactly when the blocks that the page completes were
  not marked full.
-/
theorem Tracked.freed_iff {page : RegionPage} {tracker : RegionTracker}
    (hTracked : Tracked memory.allocators)
    (hAt : memory.allocators.regionAllocators[page.region]? = some old)
    (hPages : ∀ p, allocator.Free p ↔ old.Free p ∨ p / 2 ^ page.pageOrder = page.pageIndex)
    (hFull : ∀ o i, tracker.full o i = if o ≤ page.pageOrder ∧ i = page.region then false
      else memory.allocators.regionTracker.full o i) :
    Tracked ((memory.setRegion page.region allocator).setTracker tracker).allocators ↔
      MergesTracked memory page := by
  have hIndex := (List.getElem?_eq_some_iff.mp hAt).1
  constructor
  · -- the block that comes together is wholly free afterwards
    intro hAfter other hOther o j hHigher _ hRest
    rw [hAt] at hOther
    cases hOther
    have hUnset : tracker.full o page.region = false :=
      @hAfter page.region allocator (getElem?_set_self hIndex) o j
        (fun p hp => (hPages p).mpr (hRest p hp).symm)
    rw [hFull, if_neg (fun h => absurd h.1 (Nat.not_le_of_lt hHigher))] at hUnset
    exact hUnset
  · intro hMerges k current hCurrent o j hWhole
    change (List.set ..)[k]? = _ at hCurrent
    change tracker.full o k = false
    rw [hFull]
    by_cases hk : k = page.region
    · subst hk
      rw [getElem?_set_self hIndex] at hCurrent
      cases hCurrent
      by_cases hLow : o ≤ page.pageOrder
      · rw [if_pos ⟨hLow, rfl⟩]
      rw [if_neg (fun h => hLow h.1)]
      have hHigher : page.pageOrder < o := Nat.lt_of_not_le hLow
      have hOld : ∀ p, p / 2 ^ o = j → p / 2 ^ page.pageOrder = page.pageIndex ∨ old.Free p :=
        fun p hp => ((hPages p).mp (hWhole p hp)).symm
      -- the block holds the page that is freed, or it does not
      by_cases hHolds : page.pageIndex * 2 ^ page.pageOrder / 2 ^ o = j
      · refine hMerges old hAt o j hHigher ?_ hOld
        intro p hp
        rw [div_pow_of_le hHigher.le hp, hHolds]
      · have hWas : old.WhollyFree o j := by
          intro p hp
          rcases hOld p hp with hIs | hFreeOld
          · refine absurd ?_ hHolds
            rw [← div_pow_of_le hHigher.le hIs, hp]
          · exact hFreeOld
        exact hTracked hAt hWas
    · rw [getElem?_set_ne (fun h => hk h.symm)] at hCurrent
      rw [if_neg (fun h => hk h.2)]
      exact hTracked hCurrent hWhole

theorem free_spec {page : RegionPage} (hSound : Sound memory live) (hLive : page ∈ live)
    (hFree : memory.freeHelper page = some after) :
    Sound after (live.erase page) ∧ after.layout = memory.layout ∧
      (Tracked memory.allocators → (Tracked after.allocators ↔ MergesTracked memory page)) := by
  rcases bind_eq_some_iff.mp hFree with ⟨old, hAt, hRest⟩
  rcases bind_eq_some_iff.mp hRest with ⟨_, hBlock, hMarks⟩
  rcases bind_eq_some_iff.mp hMarks with ⟨tracker, hMark, hSome⟩
  cases hSome
  rcases hSound.tracker with ⟨regions, hTracker⟩
  rcases markFree_spec hTracker hMark with ⟨hMarked, hFull⟩
  have hIn : (page.pageOrder, page.pageIndex) ∈ liveIn live page.region := mem_liveIn.mpr hLive
  rcases freed_sound (hSound.sound.regions hAt) hIn hBlock with ⟨hAfter, hLen, hPages⟩
  have hErase : liveIn (live.erase page) page.region =
      (liveIn live page.region).erase (page.pageOrder, page.pageIndex) := by
    ext block
    rcases block with ⟨o, j⟩
    rcases page with ⟨_, _, _⟩
    rw [mem_liveIn, Finset.mem_erase, Finset.mem_erase, mem_liveIn]
    simp [and_comm]
  refine ⟨(hSound.setRegion hAt (hErase ▸ hAfter) hLen ?_).setTracker hMarked, rfl,
    fun hTracked => Tracked.freed_iff hTracked hAt hPages hFull⟩
  intro other hOther
  rw [Finset.mem_erase, and_iff_right]
  rintro rfl
  exact hOther rfl

-- Growth

variable {layout : DatabaseLayout}

theorem sizeOf_bounds (hValid : layout.Valid) (i : Nat) :
    0 < sizeOf layout i ∧ sizeOf layout i ≤ layout.fullRegionLayout.numPages := by
  unfold sizeOf
  split
  · exact ⟨hValid.fullPages, Nat.le_refl _⟩
  · exact hValid.last_bounds

theorem regionLayout_size (hLt : i < layout.numRegions) :
    ∃ region, layout.regionLayout i = some region ∧ region.numPages = sizeOf layout i := by
  refine ⟨_, layout.regionLayout_eq hLt, ?_⟩
  rw [sizeOf]
  exact apply_ite RegionLayout.numPages ..

/- A region that is resized without losing a page in use. -/
theorem resized_sound {resized : BuddyAllocator} {blocks : Finset (Nat × Nat)} {newSize : Nat}
    (hSound : LiveAllocator.Sound ⟨old, blocks⟩ capacity) (hPos : 0 < newSize)
    (hLe : newSize ≤ capacity) (hFree : ∀ p, newSize ≤ p → p < old.len → old.Free p)
    (hResize : old.resize newSize = some resized) :
    LiveAllocator.Sound ⟨resized, blocks⟩ capacity ∧ resized.len = newSize ∧ ∀ p, resized.Free p ↔
        p < newSize ∧ (old.Free p ∨ old.len ≤ p) := by
  have hConsistent : old.Consistent capacity := hSound.consistent
  rcases resize_spec hConsistent hPos hLe hFree with ⟨_, hOther, _, hLen, hPages⟩
  rcases LiveAllocator.call_sound hSound (.resize newSize) ⟨hPos, hLe, hFree⟩ with
    ⟨_, _, hCall, hAfter, _⟩
  rw [hResize] at hOther
  cases hOther
  rw [LiveAllocator.call, hResize] at hCall
  cases hCall
  exact ⟨hAfter, hLen, hPages⟩

theorem new_region_sound {numPages : Nat} (hPos : 0 < numPages) (hLe : numPages ≤ capacity)
    (hCapacity : capacity ≤ maxPageIndex + 1)
    (hNew : BuddyAllocator.new numPages capacity = some allocator) :
    LiveAllocator.Sound ⟨allocator, ∅⟩ capacity ∧ allocator.len = numPages := by
  rcases new_spec hPos hLe hCapacity with ⟨_, hOther, _, hLen, _⟩
  rw [hNew] at hOther
  cases hOther
  exact ⟨(LiveAllocator.Reachable.new hPos hLe hNew).sound hCapacity, hLen⟩

/- A region is an old one or the one put behind them. -/
theorem concat_cases {allocators : List BuddyAllocator} {current : BuddyAllocator}
    (hAt : (allocators ++ [allocator])[i]? = some current) :
    (i < allocators.length ∧ allocators[i]? = some current) ∨
      (i = allocators.length ∧ current = allocator) := by
  by_cases hLt : i < allocators.length
  · rw [getElem?_append_left hLt] at hAt
    exact Or.inl ⟨hLt, hAt⟩
  · have hIndex := (List.getElem?_eq_some_iff.mp hAt).1
    rw [length_append, length_singleton] at hIndex
    have hLast : i = allocators.length := by omega
    subst hLast
    rw [getElem?_concat_length] at hAt
    cases hAt
    exact Or.inr ⟨rfl, rfl⟩

theorem RegionsSound.append {allocators : List BuddyAllocator}
    (hSound : RegionsSound allocators live capacity)
    (hNew : LiveAllocator.Sound ⟨allocator, ∅⟩ capacity) :
    RegionsSound (allocators ++ [allocator]) live capacity where
  regions := by
    intro i current hAt
    rcases concat_cases hAt with ⟨_, hOld⟩ | ⟨rfl, rfl⟩
    · exact hSound.regions hOld
    · have hNone : liveIn live allocators.length = ∅ := by
        refine Finset.eq_empty_of_forall_notMem ?_
        rintro ⟨_, _⟩ hIn
        exact absurd (hSound.inside (mem_liveIn.mp hIn)) (Nat.lt_irrefl _)
      rw [hNone]
      exact hNew
  inside := by
    intro page hIn
    have hOld := hSound.inside hIn
    rw [length_append]
    omega

theorem Tracked.markHighest {before changed : Allocators} {highest : Nat}
    (hTracked : Tracked before) (hConsistent : allocator.Consistent capacity)
    (hHighest : allocator.highestFreeOrder = some (some highest))
    (hAt : changed.regionAllocators[i]? = some allocator)
    (hOthers : ∀ k, k ≠ i → changed.regionAllocators[k]? = before.regionAllocators[k]?)
    (hFull : ∀ o k, changed.regionTracker.full o k = if o ≤ highest ∧ k = i then false
      else before.regionTracker.full o k) :
    Tracked changed := by
  intro k current hCurrent order index hFree
  rw [hFull]
  by_cases hk : k = i
  · subst hk
    rw [hAt] at hCurrent
    cases hCurrent
    rw [if_pos ⟨highestFreeOrder_spec hConsistent hHighest hFree, rfl⟩]
  · rw [if_neg (fun h => hk h.2)]
    rw [hOthers k hk] at hCurrent
    exact hTracked hCurrent hFree

/- The allocators after the first `n` regions have grown. -/
structure Growing
    (before : Allocators) (live : Finset RegionPage) (newLayout : DatabaseLayout) (n : Nat)
    (state : Allocators) :
    Prop where
  length : state.regionAllocators.length = max before.regionAllocators.length n
  sound : RegionsSound state.regionAllocators live newLayout.fullRegionLayout.numPages
  done : ∀ {i allocator}, i < n → state.regionAllocators[i]? = some allocator →
      allocator.len = sizeOf newLayout i
  tracker : ∃ regions, state.regionTracker.Sound regions
  tracked : Tracked before → Tracked state

variable {newLayout : DatabaseLayout}

theorem Growing.step {before state changed : Allocators} {n : Nat}
    (hValid : newLayout.Valid) (hGrowing : Growing before live newLayout n state)
    (hLt : n < newLayout.numRegions)
    (hStep : Allocators.growRegion newLayout before.regionAllocators.length state n =
        some changed) :
    Growing before live newLayout (n + 1) changed := by
  have hLength := hGrowing.length
  rcases sizeOf_bounds hValid n with ⟨hPos, hLe⟩
  rcases hGrowing.tracker with ⟨regions, hTracker⟩
  rcases regionLayout_size hLt with ⟨_, hRegion, hSize⟩
  rw [Allocators.growRegion, hRegion, bind_eq_bind, bind_some, hSize] at hStep
  by_cases hOld : n < before.regionAllocators.length
  · rw [if_pos hOld] at hStep
    rcases bind_eq_some_iff.mp hStep with ⟨allocator, hAt, hRest⟩
    by_cases hShort : sizeOf newLayout n < allocator.len
    · rw [if_pos hShort] at hRest
      cases hRest
    rw [if_neg hShort] at hRest
    by_cases hSame : sizeOf newLayout n = allocator.len
    · rw [if_neg (fun h => h hSame)] at hRest
      cases hRest
      refine ⟨by omega, hGrowing.sound, ?_, hGrowing.tracker, hGrowing.tracked⟩
      intro i current hi hCurrent
      by_cases hn : i = n
      · subst hn
        rw [hAt] at hCurrent
        cases hCurrent
        exact hSame.symm
      · exact hGrowing.done (by omega) hCurrent
    rw [if_pos hSame] at hRest
    rcases bind_eq_some_iff.mp hRest with ⟨_, hResize, hHigh⟩
    rcases bind_eq_some_iff.mp hHigh with ⟨_, hHighest, hTake⟩
    rcases bind_eq_some_iff.mp hTake with ⟨_, rfl, hMarks⟩
    rcases bind_eq_some_iff.mp hMarks with ⟨_, hMark, hSome⟩
    cases hSome
    rcases resized_sound (hGrowing.sound.regions hAt) hPos hLe
      (fun p hp hBelow => by omega) hResize with ⟨hAfter, hLen, _⟩
    have hIndex := (List.getElem?_eq_some_iff.mp hAt).1
    rcases markFree_spec hTracker hMark with ⟨hMarked, hFull⟩
    refine ⟨?_, hGrowing.sound.set hIndex hAfter (fun _ _ => Iff.rfl), ?_, ⟨regions, hMarked⟩,
      fun hTracked => Tracked.markHighest (hGrowing.tracked hTracked) hAfter.consistent hHighest
        (getElem?_set_self hIndex) (fun k hk => getElem?_set_ne (fun h => hk h.symm)) hFull⟩
    · change (List.set ..).length = _
      rw [length_set]
      omega
    · intro i current hi hCurrent
      change (List.set ..)[i]? = _ at hCurrent
      by_cases hn : i = n
      · subst hn
        rw [getElem?_set_self hIndex] at hCurrent
        cases hCurrent
        exact hLen
      · rw [getElem?_set_ne (fun h => hn h.symm)] at hCurrent
        exact hGrowing.done (by omega) hCurrent
  · rw [if_neg hOld] at hStep
    rcases bind_eq_some_iff.mp hStep with ⟨_, hNew, hHigh⟩
    rcases bind_eq_some_iff.mp hHigh with ⟨_, hHighest, hTake⟩
    rcases bind_eq_some_iff.mp hTake with ⟨_, rfl, hRooms⟩
    rcases bind_eq_some_iff.mp hRooms with ⟨room, hRoom, hMarks⟩
    rcases bind_eq_some_iff.mp hMarks with ⟨tracker, hMark, hSome⟩
    cases hSome
    rcases new_region_sound hPos hLe hValid.capacity hNew with ⟨hAfter, hLen⟩
    have hEnd : state.regionAllocators.length = n := by omega
    rcases reach_spec hTracker hRoom with ⟨count, hRoomSound, hRoomFull⟩
    rcases markFree_spec hRoomSound hMark with ⟨hMarked, hFull⟩
    refine ⟨?_, hGrowing.sound.append hAfter, ?_, ⟨count, hMarked⟩, fun hTracked => ?_⟩
    · rw [length_append, length_singleton]
      omega
    · intro i current hi hCurrent
      rcases concat_cases hCurrent with ⟨hOldRegion, hAtOld⟩ | ⟨hLast, rfl⟩
      · exact hGrowing.done (by omega) hAtOld
      · rw [hLast, hEnd]
        exact hLen
    · intro k current hCurrent order index hFree
      change tracker.full order k = false
      rw [hFull]
      rcases concat_cases hCurrent with ⟨hOldRegion, hAtOld⟩ | ⟨hLast, rfl⟩
      · rw [if_neg (fun h => by omega), hRoomFull]
        exact hGrowing.tracked hTracked hAtOld hFree
      · rw [if_pos ⟨highestFreeOrder_spec hAfter.consistent hHighest hFree, hLast.trans hEnd⟩]

theorem Growing.run {before state : Allocators} (hValid : newLayout.Valid)
    (hStart : Growing before live newLayout 0 before) (n : Nat) (hLe : n ≤ newLayout.numRegions)
    (hRun : (List.range n).foldlM (Allocators.growRegion newLayout
        before.regionAllocators.length) before = some state) :
    Growing before live newLayout n state := by
  induction n generalizing state with
  | zero =>
    cases hRun
    exact hStart
  | succ n ih =>
    rw [range_succ, foldlM_append] at hRun
    rcases bind_eq_some_iff.mp hRun with ⟨_, hMiddle, hStep⟩
    rw [foldlM_cons] at hStep
    rcases bind_eq_some_iff.mp hStep with ⟨next, hNext, hDone⟩
    cases hDone
    exact (ih (by omega) hMiddle).step hValid (by omega) hNext

variable (hSound : Sound memory live)
include hSound

variable {allocators : Allocators}

theorem resizeTo_extends (hExtends : memory.layout.Extends newLayout)
    (hResize : memory.allocators.resizeTo newLayout = some allocators) :
    Sound ⟨newLayout, allocators⟩ live ∧ (Tracked memory.allocators → Tracked allocators) := by
  have hRegions := hExtends.regions
  have hLength := hSound.length
  have hGrown : memory.allocators.growTo newLayout = some allocators →
        Sound ⟨newLayout, allocators⟩ live ∧ (Tracked memory.allocators → Tracked allocators) := by
    intro hGrow
    have hStart : Growing memory.allocators live newLayout 0 memory.allocators := by
      refine ⟨by omega, ?_, nofun, hSound.tracker, id⟩
      rw [hExtends.full]
      exact hSound.sound
    have hDone := Growing.run hExtends.valid hStart newLayout.numRegions (Nat.le_refl _) hGrow
    have hEnd := hDone.length
    refine ⟨⟨hExtends.valid, ?_, hDone.sound, ?_, hDone.tracker⟩, hDone.tracked⟩
    · change allocators.regionAllocators.length = newLayout.numRegions
      omega
    · intro i allocator hAt
      have hIndex := (List.getElem?_eq_some_iff.mp hAt).1
      change i < allocators.regionAllocators.length at hIndex
      exact hDone.done (by omega) hAt
  rw [Allocators.resizeTo, if_neg (by omega)] at hResize
  by_cases hEqual : newLayout.numRegions = memory.allocators.regionAllocators.length
  · rw [if_pos hEqual] at hResize
    rcases bind_eq_some_iff.mp hResize with ⟨last, hLast, hRest⟩
    rw [getLast?_eq_getElem?] at hLast
    have hLastLen := hSound.sizes hLast
    rw [sizeOf, if_neg (by omega)] at hLastLen
    have hMore := hExtends.last (by omega)
    rw [if_neg (by omega)] at hRest
    by_cases hNoop : newLayout.lastRegion.numPages = last.len
    · rw [if_pos hNoop] at hRest
      cases hRest
      refine ⟨⟨hExtends.valid, hEqual.symm, ?_, ?_, hSound.tracker⟩, id⟩
      · change RegionsSound _ _ newLayout.fullRegionLayout.numPages
        rw [hExtends.full]
        exact hSound.sound
      · intro i allocator hAt
        have hOld := hSound.sizes hAt
        rw [hOld, sizeOf, sizeOf]
        change _ = if i + 1 < newLayout.numRegions then
          newLayout.fullRegionLayout.numPages
          else newLayout.lastRegion.numPages
        rw [hExtends.full, ← hLength, ← hEqual, hNoop, hLastLen]
    · rw [if_neg hNoop] at hRest
      exact hGrown hRest
  · rw [if_neg hEqual] at hResize
    exact hGrown hResize

theorem grow_spec (hGrow : memory.grow order = some after) :
    Sound after live ∧ memory.layout.Extends after.layout ∧ (Tracked memory.allocators →
        Tracked after.allocators) := by
  rcases bind_eq_some_iff.mp hGrow with ⟨_, hLayout, hRest⟩
  rcases bind_eq_some_iff.mp hRest with ⟨oldLen, _, hMore⟩
  rcases bind_eq_some_iff.mp hMore with ⟨newLen, _, hIf⟩
  have hExtends := DatabaseLayout.grownLayout_extends hSound.layout hLayout
  by_cases hLe : oldLen ≤ newLen
  · rw [if_pos hLe] at hIf
    rcases bind_eq_some_iff.mp hIf with ⟨_, hResize, hSome⟩
    cases hSome
    rcases resizeTo_extends hSound hExtends hResize with ⟨hAfter, hTracked⟩
    exact ⟨hAfter, hExtends, hTracked⟩
  · rw [if_neg hLe] at hIf
    cases hIf

-- Shrinking

theorem Sound.last {last : BuddyAllocator}
    (hAt : memory.allocators.regionAllocators[ memory.layout.numRegions - 1]? = some last) :
    last.len = memory.layout.lastRegion.numPages := by
  have hRegions := hSound.layout.regions
  have hLen := hSound.sizes hAt
  rwa [sizeOf, if_neg (by omega)] at hLen

theorem resizeTo_fewer {last : BuddyAllocator}
    (hAt : memory.allocators.regionAllocators[ memory.layout.numRegions - 1]? = some last)
    (hValid : newLayout.Valid) (hFull : newLayout.fullRegionLayout = memory.layout.fullRegionLayout)
    (hSame : newLayout.numRegions = memory.layout.numRegions)
    (hLe : newLayout.lastRegion.numPages ≤ last.len)
    (hFree : ∀ p, newLayout.lastRegion.numPages ≤ p → p < last.len → last.Free p)
    (hResize : memory.allocators.resizeTo newLayout = some allocators) :
    Sound ⟨newLayout, allocators⟩ live ∧ (Tracked memory.allocators → Tracked allocators) := by
  have hLength := hSound.length
  have hRegions := hSound.layout.regions
  have hLastLen := hSound.last hAt
  have hEnd : memory.allocators.regionAllocators.getLast? = some last := by
    rw [getLast?_eq_getElem?, hLength]
    exact hAt
  rw [Allocators.resizeTo, if_neg (by omega), if_pos (by omega), hEnd, bind_eq_bind,
    bind_some] at hResize
  by_cases hLess : newLayout.lastRegion.numPages < last.len
  · rw [if_pos hLess, Allocators.shrinkTo, show memory.allocators.regionAllocators.length -
        newLayout.numRegions = 0 by omega,
      take_of_length_le (by omega), range'_zero, foldlM_nil] at hResize
    have hRest : Allocators.resizeLast memory.allocators
        newLayout.lastRegion = some allocators := hResize
    rw [Allocators.resizeLast, hEnd, bind_eq_bind, bind_some, if_pos hLess] at hRest
    rcases bind_eq_some_iff.mp hRest with ⟨resized, hResized, hSome⟩
    cases hSome
    have hPos := hValid.last_bounds
    rw [hFull] at hPos
    rcases resized_sound (hSound.sound.regions hAt) hPos.1 hPos.2 hFree hResized with
      ⟨hAfter, hOtherLen, hOtherFree⟩
    have hSet : memory.allocators.regionAllocators.dropLast ++
        [resized] = memory.allocators.regionAllocators.set
          (memory.layout.numRegions - 1) resized := by
      rw [dropLast_eq_take, hLength, set_eq_take_append_cons_drop,
        if_pos (by omega), drop_of_length_le (by omega)]
    have hIndex := (List.getElem?_eq_some_iff.mp hAt).1
    rw [hSet]
    refine ⟨⟨hValid, ?_, ?_, ?_, hSound.tracker⟩, ?_⟩
    · change (List.set ..).length = newLayout.numRegions
      rw [length_set]
      omega
    · change RegionsSound (List.set ..) _ newLayout.fullRegionLayout.numPages
      rw [hFull]
      exact hSound.sound.set hIndex hAfter (fun _ _ => Iff.rfl)
    · intro i current hCurrent
      change (List.set ..)[i]? = _ at hCurrent
      change current.len = sizeOf newLayout i
      rw [sizeOf]
      by_cases hi : i = memory.layout.numRegions - 1
      · subst hi
        rw [getElem?_set_self hIndex] at hCurrent
        cases hCurrent
        rw [if_neg (by omega)]
        exact hOtherLen
      · rw [getElem?_set_ne (fun h => hi h.symm)] at hCurrent
        have hLt := (List.getElem?_eq_some_iff.mp hCurrent).1
        have hOld := hSound.sizes hCurrent
        rw [sizeOf, if_pos (by omega)] at hOld
        rw [if_pos (by omega), hFull]
        exact hOld
    · have hKept : ∀ p, resized.Free p → last.Free p := by
        intro p hp
        rcases (hOtherFree p).mp hp with ⟨hBelow, hOld | hAbove⟩
        · exact hOld
        · change last.len ≤ p at hAbove
          omega
      intro hTracked
      exact Tracked.setRegion hTracked hAt hKept
  · rw [if_neg hLess, if_pos (by omega)] at hResize
    cases hResize
    refine ⟨⟨hValid, hLength.trans hSame.symm, ?_, ?_, hSound.tracker⟩, id⟩
    · change RegionsSound _ _ newLayout.fullRegionLayout.numPages
      rw [hFull]
      exact hSound.sound
    · intro i current hCurrent
      have hOld := hSound.sizes hCurrent
      change current.len = sizeOf newLayout i
      rw [hOld, sizeOf, sizeOf, hFull, hSame, show newLayout.lastRegion.numPages =
          memory.layout.lastRegion.numPages by omega]

theorem resizeTo_dropped {last : BuddyAllocator}
    (hAt : memory.allocators.regionAllocators[ memory.layout.numRegions - 1]? = some last)
    (hValid : newLayout.Valid) (hFull : newLayout.fullRegionLayout = memory.layout.fullRegionLayout)
    (hFewer : newLayout.numRegions + 1 = memory.layout.numRegions)
    (hLastPages : newLayout.lastRegion.numPages = memory.layout.fullRegionLayout.numPages)
    (hFree : ∀ p, p < last.len → last.Free p)
    (hResize : memory.allocators.resizeTo newLayout = some allocators) :
    Sound ⟨newLayout, allocators⟩ live ∧ (Tracked memory.allocators → Tracked allocators) := by
  have hLength := hSound.length
  have hRegions := hValid.regions
  rcases hSound.tracker with ⟨regions, hTracker⟩
  rw [Allocators.resizeTo, if_pos (by omega), Allocators.shrinkTo,
    show memory.allocators.regionAllocators.length - newLayout.numRegions = 1 by omega] at hResize
  rcases bind_eq_some_iff.mp hResize with ⟨tracker, hMarks, hRest⟩
  have hMark : memory.allocators.regionTracker.markFull 0 newLayout.numRegions = some tracker := by
    rw [range'_one, foldlM_cons] at hMarks
    rcases bind_eq_some_iff.mp hMarks with ⟨_, hMarked, hDone⟩
    cases hDone
    exact hMarked
  rcases markFull_spec hTracker hMark with ⟨hMarked, hMarkedFull⟩
  have hKept : ∀ i, i < newLayout.numRegions → (memory.allocators.regionAllocators.take
        newLayout.numRegions)[i]? = memory.allocators.regionAllocators[i]? :=
    fun i hi => getElem?_take_of_lt hi
  have hTakeLen : (memory.allocators.regionAllocators.take newLayout.numRegions).length =
        newLayout.numRegions := by
    rw [length_take]
    omega
  have hSizes : ∀ i current, (memory.allocators.regionAllocators.take
        newLayout.numRegions)[i]? = some current → i < newLayout.numRegions ∧
            memory.allocators.regionAllocators[i]? = some current ∧
            current.len = memory.layout.fullRegionLayout.numPages := by
    intro i current hCurrent
    have hi := (List.getElem?_eq_some_iff.mp hCurrent).1
    rw [hTakeLen] at hi
    rw [hKept i hi] at hCurrent
    have hOld := hSound.sizes hCurrent
    rw [sizeOf, if_pos (by omega)] at hOld
    exact ⟨hi, hCurrent, hOld⟩
  -- the region that is now the last one has its full size
  have hSame : allocators = ⟨tracker, memory.allocators.regionAllocators.take
        newLayout.numRegions⟩ := by
    rcases bind_eq_some_iff.mp hRest with ⟨end_, hEnd, hIf⟩
    rw [getLast?_eq_getElem?] at hEnd
    have hEndLen := (hSizes _ _ hEnd).2.2
    rw [if_neg (by omega)] at hIf
    cases hIf
    rfl
  subst hSame
  have hLive : ∀ page ∈ live, page.region < newLayout.numRegions := by
    rintro ⟨region, index, order⟩ hIn
    have hInside := hSound.sound.inside hIn
    change region < _ at hInside
    change region < _
    by_contra hDropped
    have hIs : region = memory.layout.numRegions - 1 := by omega
    subst hIs
    have hLast := hSound.sound.regions hAt
    have hBlock : (order, index) ∈ liveIn live (memory.layout.numRegions - 1) := mem_liveIn.mpr hIn
    have hEnd := hLast.within hBlock
    change (index + 1) * 2 ^ order ≤ last.len at hEnd
    have hTwo := Nat.two_pow_pos order
    rw [Nat.add_mul] at hEnd
    have hBelow : index * 2 ^ order < last.len := by omega
    exact (hLast.taken _ hBelow).mp ⟨order, by rw [first_page]; exact hBlock⟩ (hFree _ hBelow)
  refine ⟨⟨hValid, hTakeLen, ⟨?_, ?_⟩, ?_, ⟨regions, hMarked⟩⟩, ?_⟩
  · intro i current hCurrent
    change LiveAllocator.Sound _ newLayout.fullRegionLayout.numPages
    rw [hFull]
    exact hSound.sound.regions (hSizes i current hCurrent).2.1
  · intro page hIn
    change _ < (List.take ..).length
    rw [hTakeLen]
    exact hLive page hIn
  · intro i current hCurrent
    have hCurrentLen := (hSizes i current hCurrent).2.2
    change current.len = sizeOf newLayout i
    rw [sizeOf, hFull, hLastPages, ite_self]
    exact hCurrentLen
  · intro hTracked i current hCurrent order index hWhole
    rcases hSizes i current hCurrent with ⟨hi, hOld, _⟩
    change tracker.full order i = false
    rw [hMarkedFull, if_neg (fun h => by omega)]
    exact hTracked hOld hWhole

theorem tryShrink_spec {force done : Bool} (hShrink : memory.tryShrink force = some (done, after)) :
    Sound after live ∧ (Tracked memory.allocators → Tracked after.allocators) := by
  rcases bind_eq_some_iff.mp hShrink with ⟨last, hAt, hRest⟩
  have hLast := hSound.sound.regions hAt
  have hLen := hSound.last hAt
  have hPos := hSound.layout.last_bounds
  rcases trailingFreePages_spec hLast.consistent with ⟨trailing, hTrailing, hLe, hFree, _⟩
  change last.trailingFreePages = some trailing at hTrailing
  change trailing ≤ last.len at hLe
  rw [hTrailing, bind_eq_bind, bind_some] at hRest
  by_cases hZero : trailing = 0
  · rw [if_pos hZero] at hRest
    cases hRest
    exact ⟨hSound, id⟩
  rw [if_neg hZero] at hRest
  by_cases hFew : trailing < last.len / 2 ∧ force = false
  · rw [if_pos hFew] at hRest
    cases hRest
    exact ⟨hSound, id⟩
  rw [if_neg hFew] at hRest
  have hCount : InMemoryState.reduceBy memory.layout.numRegions trailing last.len force ≤ trailing ∧
      (InMemoryState.reduceBy memory.layout.numRegions
        trailing last.len force = last.len → 1 < memory.layout.numRegions) := by
    unfold InMemoryState.reduceBy
    split
    · rename_i hWhole
      exact ⟨Nat.le_refl _, fun _ => hWhole.1⟩
    · split
      · exact ⟨min_le_right _ _, fun h => by omega⟩
      · exact ⟨by omega, fun h => by omega⟩
  generalize InMemoryState.reduceBy memory.layout.numRegions
    trailing last.len force = count at hCount hRest
  rcases bind_eq_some_iff.mp hRest with ⟨newLayout, hReduce, hMore⟩
  rcases bind_eq_some_iff.mp hMore with ⟨allocators, hResize, hLens⟩
  rcases bind_eq_some_iff.mp hLens with ⟨newLen, _, hOld⟩
  rcases bind_eq_some_iff.mp hOld with ⟨oldLen, _, hIf⟩
  have hAfter : after = ⟨newLayout, allocators⟩ := by
    by_cases hShorter : newLen ≤ oldLen
    · rw [if_pos hShorter] at hIf
      cases hIf
      rfl
    · rw [if_neg hShorter] at hIf
      cases hIf
  subst hAfter
  rcases DatabaseLayout.reduceLastRegion_spec hSound.layout
    (by omega) (fun h => hCount.2 (by omega)) hReduce with
    ⟨hValid, hFull, ⟨hLess, hSame, hPages⟩ | ⟨hAll, hFewer, hPages⟩⟩
  · refine resizeTo_fewer hSound hAt hValid hFull hSame (by omega) ?_ hResize
    intro p hp hBelow
    exact hFree p (by change last.len - trailing ≤ p; omega) hBelow
  · refine resizeTo_dropped hSound hAt hValid hFull hFewer hPages ?_ hResize
    intro p hp
    exact hFree p (by change last.len - trailing ≤ p; omega) hp

-- Allocation With Growth

theorem allocateHelper_spec {lowest resizes : Bool}
    (hAllocate : memory.allocateHelper order lowest resizes = some (found, after)) :
    (match found with
      | none => Sound after live
      | some page =>
        Sound after (insert page live) ∧ page ∉ live) ∧
      (Tracked memory.allocators → Tracked after.allocators) := by
  rcases bind_eq_some_iff.mp hAllocate with ⟨⟨first, tried⟩, hFirst, hRest⟩
  rcases allocateHelperRetry_spec hSound hFirst with ⟨_, hRetried, hTracked⟩
  cases first with
  | some page =>
    cases hRest
    exact ⟨⟨hRetried.1, hRetried.2.1⟩, hTracked⟩
  | none =>
    cases resizes with
    | false =>
      cases hRest
      exact ⟨hRetried.1, hTracked⟩
    | true =>
      rcases bind_eq_some_iff.mp hRest with ⟨grown, hGrow, hAgain⟩
      rcases grow_spec hRetried.1 hGrow with ⟨hGrown, _, hGrownTracked⟩
      rcases bind_eq_some_iff.mp hAgain with ⟨⟨second, last⟩, hSecond, hDone⟩
      rcases allocateHelperRetry_spec hGrown hSecond with ⟨_, hLast, hLastTracked⟩
      cases second with
      | none => cases hDone
      | some page =>
        cases hDone
        exact ⟨⟨hLast.1, hLast.2.1⟩, fun h => hLastTracked (hGrownTracked (hTracked h))⟩

/- The regions of `new`, all of them free. -/
structure Opening (layout : DatabaseLayout) (n : Nat) (state : Allocators) : Prop where
  length : state.regionAllocators.length = n
  sound : RegionsSound state.regionAllocators ∅ layout.fullRegionLayout.numPages
  sizes : ∀ {i allocator}, state.regionAllocators[i]? = some allocator →
      allocator.len = sizeOf layout i
  tracker : ∃ regions, state.regionTracker.Sound regions
  tracked : Tracked state

omit hSound

theorem Opening.step {n : Nat} {state changed : Allocators} (hValid : layout.Valid)
    (hOpening : Opening layout n state) (hLt : n < layout.numRegions)
    (hStep : Allocators.newRegion layout state n = some changed) :
    Opening layout (n + 1) changed := by
  have hEnd := hOpening.length
  rcases sizeOf_bounds hValid n with ⟨hPos, hLe⟩
  rcases hOpening.tracker with ⟨regions, hTracker⟩
  rcases regionLayout_size hLt with ⟨_, hRegion, hSize⟩
  rw [Allocators.newRegion, hRegion, bind_eq_bind, bind_some, hSize] at hStep
  rcases bind_eq_some_iff.mp hStep with ⟨_, hNew, hMarks⟩
  rcases bind_eq_some_iff.mp hMarks with ⟨tracker, hMark, hSome⟩
  cases hSome
  rcases new_region_sound hPos hLe hValid.capacity hNew with ⟨hAfter, hLen⟩
  rcases markFree_spec hTracker hMark with ⟨hMarked, hFull⟩
  refine ⟨?_, hOpening.sound.append hAfter, ?_, ⟨regions, hMarked⟩, ?_⟩
  · rw [length_append, length_singleton, hEnd]
  · intro i current hCurrent
    rcases concat_cases hCurrent with ⟨_, hOld⟩ | ⟨hLast, rfl⟩
    · exact hOpening.sizes hOld
    · rw [hLast, hEnd]
      exact hLen
  · intro i current hCurrent order index hFree
    change tracker.full order i = false
    rw [hFull]
    rcases concat_cases hCurrent with ⟨hi, hOld⟩ | ⟨hLast, rfl⟩
    · rw [if_neg (fun h => by omega)]
      exact hOpening.tracked hOld hFree
    · rw [if_pos ⟨(LiveAllocator.whollyFree_bounds hAfter.consistent hFree).1, hLast.trans hEnd⟩]

/- The allocators of a layout in which nothing is in use. -/
theorem new_spec (hValid : layout.Valid)
    (hRegions : layout.numRegions ≤ maxRegions) (hNew : Allocators.new layout = some allocators) :
    Sound ⟨layout, allocators⟩ ∅ ∧ Tracked allocators := by
  have hStart : Opening layout 0 ⟨.new (max initialRegions layout.numRegions)
        (maxMaxPageOrder + 1), []⟩ := by
    refine ⟨rfl, ⟨nofun, fun hIn => absurd hIn (Finset.notMem_empty _)⟩, nofun,
      ⟨_, RegionTracker.new_sound (max_le (by decide) hRegions)⟩, nofun⟩
  have hRun : ∀ n ≤ layout.numRegions, ∀ state, (List.range n).foldlM (Allocators.newRegion layout)
        ⟨.new (max initialRegions layout.numRegions) (maxMaxPageOrder + 1), []⟩ = some state →
        Opening layout n state := by
    intro n
    induction n with
    | zero =>
      intro _ state hRun
      cases hRun
      exact hStart
    | succ n ih =>
      intro hLe state hRun
      rw [range_succ, foldlM_append] at hRun
      rcases bind_eq_some_iff.mp hRun with ⟨middle, hMiddle, hStep⟩
      rw [foldlM_cons] at hStep
      rcases bind_eq_some_iff.mp hStep with ⟨next, hNext, hDone⟩
      cases hDone
      exact (ih (by omega) middle hMiddle).step hValid (by omega) hNext
  have hDone := hRun _ (Nat.le_refl _) _ hNew
  exact ⟨⟨hValid, hDone.length, hDone.sound, hDone.sizes, hDone.tracker⟩, hDone.tracked⟩

end Regions

end Redbx

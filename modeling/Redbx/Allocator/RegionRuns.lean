import Mathlib.Data.Finset.Card
import Mathlib.Data.Finset.Dedup
import Redbx.Allocator.RegionOps

/-
  Whole runs of the allocators of a file: allocations with growth, frees, aborts, and commits that
  shrink the file.

  The tracker is right as long as no page is freed that merges into a block of an order that is
  marked full.

  Key theorems include:
    * `PageRegions.free_blocks_are_found`, `PageRegions.merged_block_is_not_found`
-/

namespace Redbx

open List Option

-- Runs

/- The pages in use, and those allocated since the last commit. -/
structure PageRegions where
  memory : InMemoryState
  live : Finset RegionPage
  allocatedSinceCommit : Finset RegionPage

inductive RegionEvent where
  | allocate (order : Nat) (lowest transactional resizes : Bool)
  | free (page : RegionPage)
  | abort (pages : List RegionPage)
  | commit (shrink : Option Bool)

namespace PageRegions

open Regions

/- The page found, if any, comes into use. -/
def handOut (self : PageRegions) (transactional : Bool) (memory : InMemoryState) :
    Option RegionPage → PageRegions
  | none => { self with memory := memory }
  | some page =>
    ⟨memory, insert page self.live, if transactional then
        insert page self.allocatedSinceCommit
      else
        self.allocatedSinceCommit⟩

/- The loop of a rollback over the pages, in some order. -/
def rollback (self : PageRegions) : List RegionPage → Option PageRegions
  | [] => some { self with allocatedSinceCommit := ∅ }
  | page :: rest => do
    let memory ← self.memory.rollbackPage page
    rollback ⟨memory, self.live.erase page, self.allocatedSinceCommit⟩ rest

/- A commit shrinks the file if it is asked to. -/
def shrink (self : PageRegions) : Option Bool → Option InMemoryState
  | none => some self.memory
  | some force => do
    let (_, memory) ← self.memory.tryShrink force
    some memory

def step (self : PageRegions) : RegionEvent → Option PageRegions
  | .allocate order lowest transactional resizes => do
    let (found, memory) ← self.memory.allocateHelper order lowest resizes
    some (self.handOut transactional memory found)
  | .free page => do
    let memory ← self.memory.freeHelper page
    some ⟨memory, self.live.erase page, self.allocatedSinceCommit.erase page⟩
  | .abort pages => self.rollback pages
  | .commit policy => do
    let memory ← self.shrink policy
    some ⟨memory, self.live, ∅⟩

/-
  A page that is freed is in use, and a rollback goes over the pages allocated since the last
  commit.
-/
def Allowed (self : PageRegions) : RegionEvent → Prop
  | .allocate _ _ _ _ => True
  | .free page => page ∈ self.live
  | .abort pages =>
    pages.Nodup ∧ pages.toFinset = self.allocatedSinceCommit
  | .commit _ => True

instance (self : PageRegions) (event : RegionEvent) : Decidable (self.Allowed event) :=
  match event with
  | .allocate _ _ _ _ => inferInstanceAs (Decidable True)
  | .free page =>
    inferInstanceAs (Decidable (page ∈ self.live))
  | .abort pages =>
    inferInstanceAs (Decidable (pages.Nodup ∧ pages.toFinset = self.allocatedSinceCommit))
  | .commit _ => inferInstanceAs (Decidable True)

/- A file in which nothing is in use. -/
def opened (layout : DatabaseLayout) : Option PageRegions := do
  let allocators ← Allocators.new layout
  some ⟨⟨layout, allocators⟩, ∅, ∅⟩

def run (self : PageRegions) : List RegionEvent → Option PageRegions
  | [] => some self
  | event :: rest =>
    if self.Allowed event then do
      let after ← self.step event
      run after rest
    else
      none

/- Each page of a rollback, in the state it is freed in. -/
def SafeRollback (memory : InMemoryState) : List RegionPage → Prop
  | [] => True
  | page :: rest =>
    MergesTracked memory page ∧ ∀ after, memory.rollbackPage page = some after →
        SafeRollback after rest

/- No page is freed into a block of an order marked full. -/
def Safe (self : PageRegions) : RegionEvent → Prop
  | .allocate _ _ _ _ => True
  | .free page => MergesTracked self.memory page
  | .abort pages => SafeRollback self.memory pages
  | .commit _ => True

/- The states of a file opened with a layout. -/
inductive SafeRun : PageRegions → Prop
  | new {layout : DatabaseLayout} {self : PageRegions} (hValid : layout.Valid)
      (hRegions : layout.numRegions ≤ maxRegions) (hOpened : opened layout = some self) :
      SafeRun self
  | step {self after : PageRegions} (event : RegionEvent) (hRun : SafeRun self)
      (hAllowed : self.Allowed event) (hSafe : self.Safe event)
      (hStep : self.step event = some after) :
      SafeRun after

/- The regions are sound, and so is the tracker. -/
structure Good (state : PageRegions) : Prop where
  sound : Sound state.memory state.live
  tracked : Tracked state.memory.allocators
  uncommitted : state.allocatedSinceCommit ⊆ state.live

variable {self after : PageRegions}

theorem rollback_spec (pages : List RegionPage) (hSound : Sound self.memory self.live)
    (hNodup : pages.Nodup) (hLive : ∀ page ∈ pages, page ∈ self.live)
    (hRollback : self.rollback pages = some after) :
    Sound after.memory after.live ∧ after.allocatedSinceCommit ⊆ after.live ∧
      (Tracked self.memory.allocators → SafeRollback self.memory pages →
        Tracked after.memory.allocators) := by
  induction pages generalizing self with
  | nil =>
    cases hRollback
    exact ⟨hSound, Finset.empty_subset _, fun hTracked _ => hTracked⟩
  | cons page rest ih =>
    rcases bind_eq_some_iff.mp hRollback with ⟨memory, hPage, hRest⟩
    rcases nodup_cons.mp hNodup with ⟨hNotIn, hNodupRest⟩
    have hFree := hPage
    rw [rollbackPage_eq] at hFree
    rcases free_spec hSound (hLive page (mem_cons_self ..)) hFree with ⟨hAfter, _, hIff⟩
    have hLiveRest : ∀ other ∈ rest, other ∈ self.live.erase page := by
      intro other hOther
      refine Finset.mem_erase.mpr ⟨?_, hLive other (mem_cons_of_mem _ hOther)⟩
      rintro rfl
      exact hNotIn hOther
    rcases ih hAfter hNodupRest hLiveRest hRest with ⟨hEnd, hNone, hTrack⟩
    exact ⟨hEnd, hNone, fun hTracked hSafe =>
      hTrack ((hIff hTracked).mpr hSafe.1) (hSafe.2 memory hPage)⟩

/- Every step keeps the regions sound, and one that meets the condition keeps the tracker right. -/
theorem step_spec (hSound : Sound self.memory self.live)
    (hUncommitted : self.allocatedSinceCommit ⊆ self.live) (event : RegionEvent)
    (hAllowed : self.Allowed event) (hStep : self.step event = some after) :
    Sound after.memory after.live ∧ after.allocatedSinceCommit ⊆ after.live ∧
      (Tracked self.memory.allocators → self.Safe event → Tracked after.memory.allocators) := by
  cases event with
  | allocate _ _ transactional =>
    rcases bind_eq_some_iff.mp hStep with ⟨⟨found, _⟩, hAllocate, hSome⟩
    cases hSome
    rcases allocateHelper_spec hSound hAllocate with ⟨hFound, hTracked⟩
    cases found with
    | none => exact ⟨hFound, hUncommitted, fun hBefore _ => hTracked hBefore⟩
    | some page =>
      refine ⟨hFound.1, ?_, fun hBefore _ => hTracked hBefore⟩
      change (if transactional then insert page self.allocatedSinceCommit
        else self.allocatedSinceCommit) ⊆ insert page self.live
      cases transactional with
      | true => exact Finset.insert_subset_insert _ hUncommitted
      | false => exact hUncommitted.trans (Finset.subset_insert _ _)
  | free page =>
    rcases bind_eq_some_iff.mp hStep with ⟨_, hFree, hSome⟩
    cases hSome
    rcases free_spec hSound hAllowed hFree with ⟨hAfter, _, hIff⟩
    exact ⟨hAfter, Finset.erase_subset_erase _ hUncommitted, fun hBefore => (hIff hBefore).mpr⟩
  | abort pages =>
    refine rollback_spec pages hSound hAllowed.1 (fun page hIn => hUncommitted ?_) hStep
    rw [← hAllowed.2]
    exact List.mem_toFinset.mpr hIn
  | commit policy =>
    rcases bind_eq_some_iff.mp hStep with ⟨_, hShrink, hSome⟩
    cases hSome
    cases policy with
    | none =>
      cases hShrink
      exact ⟨hSound, Finset.empty_subset _, fun hBefore _ => hBefore⟩
    | some =>
      rcases bind_eq_some_iff.mp hShrink with ⟨⟨_, _⟩, hTry, hTake⟩
      cases hTake
      rcases tryShrink_spec hSound hTry with ⟨hAfter, hTracked⟩
      exact ⟨hAfter, Finset.empty_subset _, fun hBefore _ => hTracked hBefore⟩

theorem run_sound {events : List RegionEvent} (hSound : Sound self.memory self.live)
    (hUncommitted : self.allocatedSinceCommit ⊆ self.live) (hRun : self.run events = some after) :
    Sound after.memory after.live := by
  induction events generalizing self with
  | nil =>
    cases hRun
    exact hSound
  | cons event rest ih =>
    rw [run] at hRun
    split at hRun
    · next hAllowed =>
      rcases bind_eq_some_iff.mp hRun with ⟨next, hStep, hRest⟩
      rcases step_spec hSound hUncommitted event hAllowed hStep with ⟨hNext, hSubset, _⟩
      exact ih hNext hSubset hRest
    · cases hRun

theorem SafeRun.good (hRun : SafeRun self) : self.Good := by
  induction hRun with
  | new hValid hRegions hOpened =>
    rcases bind_eq_some_iff.mp hOpened with ⟨_, hNew, hSome⟩
    cases hSome
    rcases new_spec hValid hRegions hNew with ⟨hSound, hTracked⟩
    exact ⟨hSound, hTracked, Finset.empty_subset _⟩
  | step event hRun hAllowed hSafe hStep ih =>
    rcases step_spec ih.sound ih.uncommitted event hAllowed hStep with ⟨hSound, hSubset, hTracked⟩
    exact ⟨hSound, hTracked ih.tracked hSafe, hSubset⟩

/-
  As long as no page is freed into a larger block of an order that is marked full, no region with a
  free block is marked full for its order or a lower one, the file grows only when no region has a
  free block that is large enough, and a page can be freed without breaking this exactly when it is
  not freed into such a block.
-/
theorem free_blocks_are_found (hRun : SafeRun self) : (∀ (i : Nat) (allocator : BuddyAllocator),
      self.memory.allocators.regionAllocators[i]? = some allocator →
      ∀ k index, (k, index) ∈ allocator.blocks → ∀ order ≤ k,
          self.memory.allocators.regionTracker.full order i = false) ∧
      (∀ order lowest tried, self.memory.allocateHelperRetry order lowest = some (none, tried) →
        ∀ (i : Nat) (allocator : BuddyAllocator),
          self.memory.allocators.regionAllocators[i]? = some allocator →
          ∀ k index, order ≤ k → (k, index) ∉ allocator.blocks) ∧
      ∀ page ∈ self.live, ∀ memory, self.memory.freeHelper page = some memory →
        (Tracked memory.allocators ↔ MergesTracked self.memory page) := by
  have hGood := hRun.good
  refine ⟨?_, ?_, ?_⟩
  · intro i allocator hAt k index hIn order hLe
    exact hGood.tracked hAt (BuddyAllocator.whollyFree_of_block hIn hLe)
  · intro order lowest tried hRetry i allocator hAt k index hLe hIn
    exact no_block_of_retry hGood.sound hGood.tracked hRetry
      hAt (BuddyAllocator.whollyFree_of_block hIn hLe)
  · intro page hIn memory hFree
    exact (free_spec hGood.sound hIn hFree).2.2 hGood.tracked

/- A region of two pages, of the usual capacity. -/
def twoPages : DatabaseLayout := ⟨⟨2 ^ 20, 0, 4096⟩, 0, some ⟨2, 0, 4096⟩⟩

theorem twoPages_valid : twoPages.Valid where
  pageSize := by decide
  fullPages := by decide
  capacity := by decide
  trailing := by
    intro region hIs
    cases hIs
    decide
  regions := by decide

/- A page of the region may be freed into the pair of both pages. -/
theorem mergesTracked_twoPages
    {memory : InMemoryState}
    {live : Finset RegionPage}
    (hSound : Sound memory live)
    (hLen : memory.allocators.regionAllocators[0]?.map BuddyAllocator.len = some 2)
    (hPair : memory.allocators.regionTracker.full 1 0 = false) :
    MergesTracked memory ⟨0, 0, 0⟩ := by
  intro allocator hAt order index hOrder hInside hFree
  by_cases hOne : order = 1
  · rw [hOne]
    exact hPair
  · -- a larger block would reach beyond the region
    have hIndex : index = 0 := by
      rw [← hInside 0 (by simp), Nat.zero_div]
    have hThird : 2 / 2 ^ order = index := by
      rw [hIndex]
      refine Nat.div_eq_of_lt (lt_of_lt_of_le (by decide : 2 < 2 ^ 2) ?_)
      exact Nat.pow_le_pow_right (by decide) (by change 0 < order at hOrder; omega)
    rw [hAt] at hLen
    cases hFree 2 hThird with
    | inl hFirst => exact absurd hFirst (by decide)
    | inr hTwo =>
      have hLt : 2 < allocator.len :=
        (hSound.sound.regions hAt).consistent.sized.buddies.covers_lt hTwo
      have hTwoPages : allocator.len = 2 := Option.some.inj hLen
      omega

/- One page is taken and freed again, and the pair of pages is found. -/
theorem freed_pair_is_found : ∃ self : PageRegions, SafeRun self ∧ self.live.card = 0 ∧
      self.memory.allocators.regionTracker.full 1 0 = false := by
  have hCheck : ((opened twoPages).bind fun start =>
      (start.step (.allocate 0 false true true)).bind fun taken =>
        (taken.step (.free ⟨0, 0, 0⟩)).bind fun self =>
          self.memory.allocators.regionAllocators[0]?.map fun allocator =>
            (decide (⟨0, 0, 0⟩ ∈ taken.live),
              taken.memory.allocators.regionAllocators[0]?.map BuddyAllocator.len,
              taken.memory.allocators.regionTracker.full 1 0,
              self.live.card, allocator.free[1]?.map (·.bit 0))) =
      some (true, some 2, false, 0, some false) := by
    decide +kernel
  rcases bind_eq_some_iff.mp hCheck with ⟨start, hOpened, hRest⟩
  rcases bind_eq_some_iff.mp hRest with ⟨taken, hStep, hRest⟩
  rcases bind_eq_some_iff.mp hRest with ⟨self, hFree, hMap⟩
  rcases map_eq_some_iff.mp hMap with ⟨allocator, hAt, hEq⟩
  simp only [Prod.mk.injEq] at hEq
  rcases hEq with ⟨hIn, hLen, hPair, hCard, hBits⟩
  rcases map_eq_some_iff.mp hBits with ⟨bitmap, hBitmap, hBit⟩
  have hTaken := SafeRun.step (.allocate 0 false true true)
    (SafeRun.new twoPages_valid (by decide) hOpened) trivial trivial hStep
  have hRun := SafeRun.step (.free ⟨0, 0, 0⟩) hTaken (of_decide_eq_true hIn)
    (mergesTracked_twoPages hTaken.good.sound hLen hPair) hFree
  exact ⟨self, hRun, hCard, (free_blocks_are_found hRun).1 0 allocator hAt 1 0
      ⟨bitmap, hBitmap, hBit⟩ 1 (Nat.le_refl 1)⟩

/-
  A page and a pair of pages are allocated, for which the file grows and orders from two on stay
  marked full. Freed again they merge into a block of order two, which the next allocation does not
  find: the file would grow once more.
-/
theorem merged_block_is_not_found :
    ∃ (start self : PageRegions) (tried : InMemoryState) (allocator : BuddyAllocator),
      opened twoPages = some start ∧ start.run [.allocate 0 false true true,
          .allocate 1 false true true, .free ⟨0, 0, 0⟩, .free ⟨0, 1, 1⟩] = some self ∧
        self.memory.allocators.regionAllocators[0]? = some allocator ∧
        (2, 0) ∈ allocator.blocks ∧
        self.memory.allocators.regionTracker.full 2 0 = true ∧
        self.memory.allocateHelperRetry 2 false = some (none, tried) := by
  have hCheck : ((opened twoPages).bind fun start =>
      (start.run [.allocate 0 false true true, .allocate 1 false true true,
        .free ⟨0, 0, 0⟩, .free ⟨0, 1, 1⟩]).bind fun self =>
        self.memory.allocators.regionAllocators[0]?.bind fun allocator =>
            (self.memory.allocateHelperRetry 2 false).map fun result =>
                (allocator.free[2]?.map (·.bit 0), self.memory.allocators.regionTracker.full 2 0,
                  result.1)) =
      some (some false, true, none) := by
    decide +kernel
  rcases bind_eq_some_iff.mp hCheck with ⟨start, hOpened, hRest⟩
  rcases bind_eq_some_iff.mp hRest with ⟨self, hRun, hMore⟩
  rcases bind_eq_some_iff.mp hMore with ⟨allocator, hAt, hMap⟩
  rcases map_eq_some_iff.mp hMap with ⟨⟨found, tried⟩, hRetry, hEq⟩
  simp only [Prod.mk.injEq] at hEq
  rcases hEq with ⟨hBits, hFull, rfl⟩
  rcases map_eq_some_iff.mp hBits with ⟨bitmap, hBitmap, hBit⟩
  exact ⟨start, self, tried, allocator, hOpened, hRun, hAt, ⟨bitmap, hBitmap, hBit⟩, hFull, hRetry⟩

end PageRegions

end Redbx

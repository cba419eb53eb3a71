import Mathlib.Data.Finset.Card
import Mathlib.Data.Finset.Basic
import Redbx.Allocator.Resize

/-
  Whole runs of the buddy allocator.

  Beside the allocator we keep the blocks that were handed out and not given back. In every state
  reached, a page is free or in exactly one of these.

  Key theorems include:
    * `LiveAllocator.Reachable.sound`, `LiveAllocator.buddy_allocator_invariants`
-/

namespace Redbx

open Finset

-- Calls

inductive BuddyCall where
  | alloc (order : Nat)
  | allocLowest (order : Nat)
  | recordAlloc (page order : Nat)
  | free (page order : Nat)
  | resize (newSize : Nat)
  deriving DecidableEq

/- An allocator and the blocks `(order, index)` in use. -/
structure LiveAllocator where
  allocator : BuddyAllocator
  live : Finset (Nat × Nat)

namespace LiveAllocator

open BuddyAllocator

/- The block found, if any, comes into use. -/
def handOut (self : LiveAllocator) (order : Nat) (found : Option Nat)
    (allocator : BuddyAllocator) : LiveAllocator :=
  match found with
  | none => ⟨allocator, self.live⟩
  | some index => ⟨allocator, insert (order, index) self.live⟩

def call (self : LiveAllocator) : BuddyCall → Option (Option Nat × LiveAllocator)
  | .alloc order => do
    let (found, allocator) ← self.allocator.alloc order
    some (found, self.handOut order found allocator)
  | .allocLowest order => do
    let (found, allocator) ← self.allocator.allocLowest order
    some (found, self.handOut order found allocator)
  | .recordAlloc page order => do
    let allocator ← self.allocator.recordAlloc page order
    some (none, self.handOut order (some page) allocator)
  | .free page order => do
    let allocator ← self.allocator.freeBlock page order
    some (none, ⟨allocator, self.live.erase (order, page)⟩)
  | .resize newSize => do
    let allocator ← self.allocator.resize newSize
    some (none, ⟨allocator, self.live⟩)

/- What the caller has to keep to. -/
def Allowed (self : LiveAllocator) (capacity : Nat) : BuddyCall → Prop
  | .alloc _ => True
  | .allocLowest _ => True
  | .recordAlloc page order =>
    self.allocator.WhollyFree order page
  | .free page order => (order, page) ∈ self.live
  | .resize newSize =>
    0 < newSize ∧ newSize ≤ capacity ∧ ∀ p, newSize ≤ p → p < self.allocator.len →
        self.allocator.Free p

/- The states after `new` and any allowed calls. -/
inductive Reachable (capacity : Nat) : LiveAllocator → Prop
  | new {numPages : Nat} {allocator : BuddyAllocator} (hPos : 0 < numPages)
      (hLe : numPages ≤ capacity) (hNew : BuddyAllocator.new numPages capacity = some allocator) :
      Reachable capacity ⟨allocator, ∅⟩
  | call {self after : LiveAllocator} {found : Option Nat} (event : BuddyCall)
      (hReach : Reachable capacity self) (hAllowed : self.Allowed capacity event)
      (hCall : self.call event = some (found, after)) :
      Reachable capacity after

-- Free Pages And Live Blocks

/- A page is free or in exactly one live block. -/
structure Sound (state : LiveAllocator) (capacity : Nat) : Prop where
  consistent : state.allocator.Consistent capacity
  order_le : ∀ {o j}, (o, j) ∈ state.live → o ≤ state.allocator.maxOrder
  within : ∀ {o j}, (o, j) ∈ state.live → (j + 1) * 2 ^ o ≤ state.allocator.len
  single : ∀ {o k p}, (o, p / 2 ^ o) ∈ state.live → (k, p / 2 ^ k) ∈ state.live → o = k
  taken : ∀ p, p < state.allocator.len → (Covers ↑state.live p ↔ ¬ state.allocator.Free p)

/- What is handed out, and what comes back when it is freed. -/
structure HandsOut (before : LiveAllocator) (order index : Nat) (after : LiveAllocator) : Prop where
  free : before.allocator.WhollyFree order index
  disjoint : ∀ {o j}, (o, j) ∈ before.live → ∀ p, p / 2 ^ order = index → p / 2 ^ o ≠ j
  covers : ∀ p, after.allocator.Free p ↔ before.allocator.Free p ∧ p / 2 ^ order ≠ index
  back : ∃ allocator, after.allocator.freeBlock index order = some allocator ∧
      allocator.blocks = before.allocator.blocks

/- What a call returns and does to the free pages. -/
def Effect (self : LiveAllocator) (found : Option Nat) (after : LiveAllocator) : BuddyCall → Prop
  | .alloc order =>
    (found = none ∧ after.allocator = self.allocator ∧
      ∀ index, ¬ self.allocator.WhollyFree order index) ∨
    ∃ index, found = some index ∧ self.HandsOut order index after
  | .allocLowest order =>
    (found = none ∧ after.allocator = self.allocator ∧
      ∀ index, ¬ self.allocator.WhollyFree order index) ∨
    ∃ index, found = some index ∧ self.HandsOut order index after
  | .recordAlloc page order => self.HandsOut order page after
  | .free page order =>
    ∀ p, after.allocator.Free p ↔ self.allocator.Free p ∨ p / 2 ^ order = page
  | .resize newSize =>
    ∀ p, after.allocator.Free p ↔ p < newSize ∧ (self.allocator.Free p ∨ self.allocator.len ≤ p)

variable {self : LiveAllocator} {capacity : Nat}

variable {allocator : BuddyAllocator}

/- `alloc` fails only without a wholly free block. -/
theorem alloc_spec (hConsistent : allocator.Consistent capacity) (order : Nat) :
    (allocator.alloc order = some (none, allocator) ∧ ∀ index, ¬ allocator.WhollyFree order index) ∨
      ∃ index after, allocator.alloc order = some (some index, after) ∧
          allocator.WhollyFree order index ∧
          allocator.Becomes after capacity allocator.len fun p => allocator.Free p ∧
              p / 2 ^ order ≠ index := by
  rcases allocInner_spec hConsistent.sized order with
    ⟨hFail, hNo⟩ | ⟨d, index, after, hAlloc, hIn, _, _, hTaken⟩
  · exact Or.inl ⟨hFail, not_whollyFree hConsistent hNo⟩
  · refine Or.inr ⟨index * 2 ^ d, after, hAlloc, ?_, hTaken⟩
    intro p hp
    refine Buddies.covers_of_mem hIn ?_
    rw [div_pow_add, hp, first_page]

theorem whollyFree_bounds {order index : Nat} (hConsistent : allocator.Consistent capacity)
    (hFree : allocator.WhollyFree order index) :
    order ≤ allocator.maxOrder ∧ (index + 1) * 2 ^ order ≤ allocator.len := by
  refine ⟨?_, ?_⟩
  · by_contra hOrder
    refine not_whollyFree hConsistent ?_ index hFree
    intro o j ho hIn
    have hLe := hConsistent.sized.buddies.order_le hIn
    omega
  · have hPos := Nat.two_pow_pos order
    have hLast : ((index + 1) * 2 ^ order - 1) / 2 ^ order = index := by
      rw [div_pow_eq_iff, Nat.add_mul]
      omega
    have hInside := hConsistent.sized.buddies.covers_lt (hFree _ hLast)
    omega

theorem freeBlock_spec {order page : Nat} (hConsistent : allocator.Consistent capacity)
    (hOrder : order ≤ allocator.maxOrder) (hEnd : (page + 1) * 2 ^ order ≤ allocator.len)
    (hTaken : ∀ p, p / 2 ^ order = page → ¬ allocator.Free p) :
    ∃ after, allocator.freeBlock page order = some after ∧
      allocator.Becomes after capacity allocator.len fun p =>
        allocator.Free p ∨ p / 2 ^ order = page := by
  rcases freeInner_spec hConsistent.sized hOrder hEnd hTaken with ⟨after, hFree, hFreed⟩
  refine ⟨after, ?_, hFreed⟩
  rcases getBit_spec hConsistent.sized.bitmaps hOrder (block_le_iff.mp hEnd) with ⟨bit, hGet, hBit⟩
  have hTrue : bit = true := by
    rw [← Bool.not_eq_false]
    intro hFalse
    exact Buddies.not_mem_of_uncovered hTaken (hBit.mp hFalse)
  rw [freeBlock, hGet, hTrue]
  exact hFree

/- A free block that is taken comes into use. -/
theorem handOut_sound {order index : Nat} (hSound : self.Sound capacity)
    (hFree : self.allocator.WhollyFree order index)
    (hTaken : self.allocator.Becomes allocator capacity self.allocator.len fun p =>
        self.allocator.Free p ∧ p / 2 ^ order ≠ index) :
    (self.handOut order (some index) allocator).Sound capacity ∧ self.HandsOut order index
        (self.handOut order (some index) allocator) := by
  have hConsistent := hSound.consistent
  rcases whollyFree_bounds hConsistent hFree with ⟨hOrder, hEnd⟩
  have hLen := hTaken.len
  have hMax := hTaken.maxOrder
  -- the pages of a live block are not free
  have hApart : ∀ {o j}, (o, j) ∈ self.live → ∀ p, p / 2 ^ order = index → p / 2 ^ o ≠ j := by
    intro o j hIn p hp hj
    have hBelow := hConsistent.sized.buddies.covers_lt (hFree p hp)
    exact (hSound.taken p hBelow).mp ⟨o, hj ▸ hIn⟩ (hFree p hp)
  have hAfter := hConsistent.of_becomes hTaken
  refine ⟨⟨hAfter, ?_, ?_, ?_, ?_⟩, ⟨hFree, hApart, hTaken.covers, ?_⟩⟩
  · intro o j hIn
    change o ≤ allocator.maxOrder
    rw [hMax]
    rcases mem_insert.mp hIn with hNew | hOld
    · cases hNew
      exact hOrder
    · exact hSound.order_le hOld
  · intro o j hIn
    change (j + 1) * 2 ^ o ≤ allocator.len
    rw [hLen]
    rcases mem_insert.mp hIn with hNew | hOld
    · cases hNew
      exact hEnd
    · exact hSound.within hOld
  · intro o k p hIn hOther
    rcases mem_insert.mp hIn with hNew | hOld
    · rcases Prod.mk.inj hNew with ⟨rfl, hp⟩
      rcases mem_insert.mp hOther with hNew' | hOld'
      · exact (Prod.mk.inj hNew').1.symm
      · exact absurd rfl (hApart hOld' p hp)
    · rcases mem_insert.mp hOther with hNew' | hOld'
      · rcases Prod.mk.inj hNew' with ⟨rfl, hp⟩
        exact absurd rfl (hApart hOld p hp)
      · exact hSound.single hOld hOld'
  · intro p hp
    change p < allocator.len at hp
    rw [hLen] at hp
    change Covers (↑(insert (order, index) self.live)) p ↔ ¬ Covers allocator.blocks p
    rw [coe_insert, covers_insert, hTaken.covers, hSound.taken p hp]
    by_cases hBlock : p / 2 ^ order = index
    · simp [hBlock]
    · simp [hBlock]
  · change ∃ back, allocator.freeBlock index order = some back ∧ _
    rcases freeBlock_spec hAfter (by rw [hMax]; exact hOrder) (by rw [hLen]; exact hEnd)
      (fun p hp hIs => ((hTaken.covers p).mp hIs).2 hp) with
      ⟨back, hBack, hFreed⟩
    refine ⟨back, hBack, ?_⟩
    rw [hLen] at hFreed
    have hBuddies := hFreed.sized.buddies
    rw [hFreed.maxOrder, hMax] at hBuddies
    refine hBuddies.eq_of_covers hConsistent.sized.buddies ?_
    intro p
    rw [hFreed.covers, Free, hTaken.covers]
    constructor
    · rintro (⟨hOld, _⟩ | hp)
      · exact hOld
      · exact hFree p hp
    · intro hOld
      by_cases hp : p / 2 ^ order = index
      · exact Or.inr hp
      · exact Or.inl ⟨hOld, hp⟩

theorem call_sound
    (hSound : self.Sound capacity) (event : BuddyCall) (hAllowed : self.Allowed capacity event) :
    ∃ found after, self.call event = some (found, after) ∧ after.Sound capacity ∧
      self.Effect found after event := by
  have hConsistent := hSound.consistent
  cases event with
  | alloc order =>
    rcases alloc_spec hConsistent order with ⟨hFail, hNo⟩ | ⟨index, _, hAlloc, hFree, hTaken⟩
    · refine ⟨none, self, ?_, hSound, Or.inl ⟨rfl, rfl, hNo⟩⟩
      rw [call, hFail]
      rfl
    · rcases handOut_sound hSound hFree hTaken with ⟨hAfter, hHands⟩
      refine ⟨some index, _, ?_, hAfter, Or.inr ⟨index, rfl, hHands⟩⟩
      rw [call, hAlloc]
      rfl
  | allocLowest order =>
    rcases allocLowest_spec hConsistent order with ⟨hFail, hNo⟩ |
        ⟨index, _, hAlloc, hFree, _, hTaken⟩
    · refine ⟨none, self, ?_, hSound, Or.inl ⟨rfl, rfl, hNo⟩⟩
      rw [call, hFail]
      rfl
    · rcases handOut_sound hSound hFree hTaken with ⟨hAfter, hHands⟩
      refine ⟨some index, _, ?_, hAfter, Or.inr ⟨index, rfl, hHands⟩⟩
      rw [call, hAlloc]
      rfl
  | recordAlloc =>
    have hOrder := (whollyFree_bounds hConsistent hAllowed).1
    rcases hConsistent.sized.buddies.exists_block hOrder hAllowed with ⟨d, _, hIn⟩
    rcases recordAllocInner_spec d hConsistent.sized hIn with ⟨_, hRecord, hTaken⟩
    rcases handOut_sound hSound hAllowed hTaken with ⟨hAfter, hHands⟩
    refine ⟨none, _, ?_, hAfter, hHands⟩
    rw [call, recordAlloc, if_pos hOrder, hRecord]
    rfl
  | free page order =>
    have hEnd := hSound.within hAllowed
    have hNot : ∀ p, p / 2 ^ order = page → ¬ self.allocator.Free p := by
      intro p hp
      have hBelow := (div_pow_eq_iff.mp hp).2
      exact (hSound.taken p (by omega)).mp ⟨order, hp ▸ hAllowed⟩
    rcases freeBlock_spec hConsistent (hSound.order_le hAllowed) hEnd hNot with
      ⟨allocator, hFree, hFreed⟩
    have hLen := hFreed.len
    refine ⟨none, ⟨allocator, self.live.erase (order, page)⟩, ?_,
      ⟨hConsistent.of_becomes hFreed, ?_, ?_, ?_, ?_⟩, hFreed.covers⟩
    · rw [call, hFree]
      rfl
    · intro o j hIn
      change o ≤ allocator.maxOrder
      rw [hFreed.maxOrder]
      exact hSound.order_le (mem_of_mem_erase hIn)
    · intro o j hIn
      change (j + 1) * 2 ^ o ≤ allocator.len
      rw [hLen]
      exact hSound.within (mem_of_mem_erase hIn)
    · intro o k p hIn hOther
      exact hSound.single (mem_of_mem_erase hIn) (mem_of_mem_erase hOther)
    · intro p hp
      change p < allocator.len at hp
      rw [hLen] at hp
      change Covers (↑(self.live.erase (order, page))) p ↔ ¬ Covers allocator.blocks p
      rw [coe_erase, covers_without hSound.single hAllowed, hFreed.covers, hSound.taken p hp]
      tauto
  | resize newSize =>
    rcases hAllowed with ⟨hPos, hLe, hDropped⟩
    rcases resize_spec hConsistent hPos hLe hDropped with ⟨allocator, hResize, hAfter, hLen, hFree⟩
    have hMax : allocator.maxOrder = self.allocator.maxOrder := by
      have hUsable := hAfter.usable
      rw [hConsistent.usable] at hUsable
      exact (Option.some.inj hUsable).symm
    -- the last page of a live block is not dropped
    have hWithin : ∀ {o j}, (o, j) ∈ self.live → (j + 1) * 2 ^ o ≤ newSize := by
      intro o j hIn
      have hTwo := Nat.two_pow_pos o
      have hEnd := hSound.within hIn
      have hLast : ((j + 1) * 2 ^ o - 1) / 2 ^ o = j := by
        rw [div_pow_eq_iff, Nat.add_mul]
        omega
      have hBelow : (j + 1) * 2 ^ o - 1 < self.allocator.len := by
        rw [Nat.add_mul] at hEnd ⊢
        omega
      have hNot := (hSound.taken _ hBelow).mp ⟨o, by rw [hLast]; exact hIn⟩
      by_contra hOver
      exact hNot (hDropped _ (by omega) hBelow)
    refine ⟨none, ⟨allocator, self.live⟩, ?_, ⟨hAfter, ?_, ?_, hSound.single, ?_⟩, hFree⟩
    · rw [call, hResize]
      rfl
    · intro o j hIn
      change o ≤ allocator.maxOrder
      rw [hMax]
      exact hSound.order_le hIn
    · intro o j hIn
      change (j + 1) * 2 ^ o ≤ allocator.len
      rw [hLen]
      exact hWithin hIn
    · intro p hp
      change p < allocator.len at hp
      rw [hLen] at hp
      change Covers (↑self.live) p ↔ ¬ allocator.Free p
      rw [hFree]
      by_cases hOld : p < self.allocator.len
      · rw [hSound.taken p hOld]
        have hNot : ¬ self.allocator.len ≤ p := by omega
        simp [hp, hNot]
      · refine ⟨?_, fun hIs => absurd ⟨hp, Or.inr (by omega)⟩ hIs⟩
        rintro ⟨o, hIn⟩
        have hEnd := hSound.within hIn
        have hAt := (div_pow_eq_iff.mp (rfl : p / 2 ^ o = p / 2 ^ o)).2
        omega

/- Every state reached is sound. -/
theorem Reachable.sound
    (hCapacity : capacity ≤ maxPageIndex + 1) (hReach : Reachable capacity self) :
    self.Sound capacity := by
  induction hReach with
  | @new numPages allocator hPos hLe hNew =>
    rcases new_spec hPos hLe hCapacity with ⟨start, hStart, hConsistent, hLen, hFree⟩
    rw [hNew] at hStart
    cases hStart
    refine ⟨hConsistent, ?_, ?_, ?_, ?_⟩
    · intro o j hIn
      exact absurd hIn (notMem_empty _)
    · intro o j hIn
      exact absurd hIn (notMem_empty _)
    · intro o k p hIn
      exact absurd hIn (notMem_empty _)
    · intro p hp
      change p < allocator.len at hp
      rw [hLen] at hp
      refine ⟨?_, fun hNot => absurd ((hFree p).mpr hp) hNot⟩
      rintro ⟨o, hIn⟩
      exact absurd hIn (notMem_empty _)
  | call event _ hAllowed hCall ih =>
    rcases call_sound ih event hAllowed with ⟨_, _, hDone, hSound, _⟩
    rw [hCall] at hDone
    cases hDone
    exact hSound

/-
  In every state reached by `new` and allowed calls: a page is free at one order at most, no two
  free buddies are left below the highest order, live blocks lie inside the region and apart from
  each other and from the free pages, and every allowed call returns and does what it should.
-/
theorem buddy_allocator_invariants
    (hCapacity : capacity ≤ maxPageIndex + 1) (hReach : Reachable capacity self) :
    (∀ o k p, (o, p / 2 ^ o) ∈ self.allocator.blocks →
        (k, p / 2 ^ k) ∈ self.allocator.blocks → o = k) ∧
      (∀ o j, o < self.allocator.maxOrder → (o, 2 * j) ∈ self.allocator.blocks →
        (o, 2 * j + 1) ∉ self.allocator.blocks) ∧
      (∀ o j, (o, j) ∈ self.live → (j + 1) * 2 ^ o ≤ self.allocator.len) ∧
      (∀ o k p, (o, p / 2 ^ o) ∈ self.live → (k, p / 2 ^ k) ∈ self.live → o = k) ∧
      (∀ p, p < self.allocator.len → ((∃ o, (o, p / 2 ^ o) ∈ self.live) ↔
          ¬ self.allocator.Free p)) ∧
      ∀ event, self.Allowed capacity event → ∃ found after,
          self.call event = some (found, after) ∧ self.Effect found after event := by
  have hSound := hReach.sound hCapacity
  have hBuddies := hSound.consistent.sized.buddies
  refine ⟨fun o k p => hBuddies.single, fun o j => hBuddies.merged, fun o j => hSound.within,
    fun o k p => hSound.single, hSound.taken, ?_⟩
  intro event hAllowed
  rcases call_sound hSound event hAllowed with ⟨found, after, hCall, _, hEffect⟩
  exact ⟨found, after, hCall, hEffect⟩

theorem new_region_hands_out_a_page :
    ∃ allocator, BuddyAllocator.new 3 4 = some allocator ∧ ∃ index after,
        call ⟨allocator, ∅⟩ (.alloc 0) = some (some index, after) := by
  have hFits : 3 ≤ 4 := by decide
  rcases new_spec (by decide) hFits (by decide) with ⟨allocator, hNew, _, _, hFree⟩
  refine ⟨allocator, hNew, ?_⟩
  rcases buddy_allocator_invariants (by decide) (Reachable.new (by decide) hFits hNew) with
    ⟨_, _, _, _, _, hCalls⟩
  rcases hCalls (.alloc 0) trivial with ⟨found, after, hCall, hNone | ⟨index, rfl, _⟩⟩
  · refine absurd ?_ (hNone.2.2 0)
    intro p hp
    exact (hFree p).mpr (by omega)
  · exact ⟨index, after, hCall⟩

/-
  The free blocks depend only on which pages are in use, not on the calls that led there: a region
  that is built up again from its pages is as it was.
-/
theorem free_blocks_determined {other : LiveAllocator} (hCapacity : capacity ≤ maxPageIndex + 1)
    (hReach : Reachable capacity self) (hOther : Reachable capacity other)
    (hLen : self.allocator.len = other.allocator.len)
    (hSame : ∀ p, Covers ↑self.live p ↔ Covers ↑other.live p) :
    self.allocator.blocks = other.allocator.blocks := by
  have hSound := hReach.sound hCapacity
  have hSound' := hOther.sound hCapacity
  have hBuddies := hSound.consistent.sized.buddies
  have hBuddies' := hSound'.consistent.sized.buddies
  have hOrder : self.allocator.maxOrder = other.allocator.maxOrder :=
    Option.some.inj (hSound.consistent.usable.symm.trans hSound'.consistent.usable)
  rw [← hOrder, ← hLen] at hBuddies'
  refine hBuddies.eq_of_covers hBuddies' fun p => ?_
  by_cases hIn : p < self.allocator.len
  · have hFree := hSound.taken p hIn
    rw [hSame, hSound'.taken p (hLen ▸ hIn)] at hFree
    exact (not_iff_not.mp hFree).symm
  · exact iff_of_false (fun hFree => hIn (hBuddies.covers_lt hFree))
      fun hFree => hIn (hBuddies'.covers_lt hFree)

/- A page is taken and given back. -/
theorem freed_page_leaves_same_blocks : ∃ allocator taken after,
    BuddyAllocator.new 3 4 = some allocator ∧
      call ⟨allocator, ∅⟩ (.alloc 0) = some (some 2, taken) ∧
      taken.call (.free 2 0) = some (none, after) ∧
      after.allocator.blocks = allocator.blocks := by
  have hCheck : ((BuddyAllocator.new 3 4).bind fun allocator =>
      (call ⟨allocator, ∅⟩ (.alloc 0)).bind fun taken =>
        (taken.2.call (.free 2 0)).map fun after => (taken.1, decide ((0, 2) ∈ taken.2.live), after.1,
          after.2.live.card, allocator.len, after.2.allocator.len)) =
      some (some 2, true, none, 0, 3, 3) := by
    decide +kernel
  rcases Option.bind_eq_some_iff.mp hCheck with ⟨allocator, hNew, hRest⟩
  rcases Option.bind_eq_some_iff.mp hRest with ⟨⟨found, taken⟩, hTake, hMap⟩
  rcases Option.map_eq_some_iff.mp hMap with ⟨⟨none', after⟩, hFree, hEq⟩
  simp only [Prod.mk.injEq, decide_eq_true_eq] at hEq
  rcases hEq with ⟨rfl, hLive, rfl, hNone, hBefore, hLen⟩
  have hStart := Reachable.new (by decide) (by decide : 3 ≤ 4) hNew
  have hTaken := Reachable.call (.alloc 0) hStart trivial hTake
  have hAfter := Reachable.call (.free 2 0) hTaken hLive hFree
  refine ⟨allocator, taken, after, hNew, hTake, hFree, ?_⟩
  exact free_blocks_determined (by decide) hAfter hStart (hLen.trans hBefore.symm)
    fun p => by rw [card_eq_zero.mp hNone]

end LiveAllocator

end Redbx

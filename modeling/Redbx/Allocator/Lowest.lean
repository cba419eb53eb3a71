import Redbx.Allocator.Buddy

/-
  `alloc_lowest` finds the lowest free block.

  The search keeps one block taken, the best so far, and tries the first block of every higher
  order. Since the covered pages determine the family, freeing a trial block puts everything back.

  Key theorems include:
    * `BuddyAllocator.allocLowest_spec`, `BuddyAllocator.alloc_lowest_takes_lowest`
-/

namespace Redbx

open Option

namespace BuddyAllocator

/- A page is marked free at some order. -/
def Free (self : BuddyAllocator) (page : Nat) : Prop := Covers self.blocks page

/- All pages of an aligned block are free. -/
def WhollyFree (self : BuddyAllocator) (order index : Nat) : Prop :=
  ∀ page, page / 2 ^ order = index → self.Free page

variable {origin self : BuddyAllocator} {capacity n order : Nat}

-- The Search

/-
  The state of the search before order `i`: only the best block is taken, it is the left end of a
  free block, and no block of a lower order starts before it.
-/
structure Searching (origin : BuddyAllocator) (capacity n order i : Nat) (state : BuddyAllocator)
    (bestIndexAtOrder : Nat) (best : Nat × Nat) :
    Prop where
  becomes : origin.Becomes state capacity n fun p =>
    Covers origin.blocks p ∧ p / 2 ^ best.2 ≠ best.1
  order_le : order ≤ best.2
  index : bestIndexAtOrder = best.1 * 2 ^ (best.2 - order)
  source : ∃ top index, (top, index) ∈ origin.blocks ∧
    best.2 ≤ top ∧ best.1 = index * 2 ^ (top - best.2)
  least : ∀ o j, order ≤ o → o < i → (o, j) ∈ origin.blocks → bestIndexAtOrder ≤ j * 2 ^ (o - order)

/- A multiple of a power, and a multiple of that. -/
theorem mul_pow_mul_pow {a b c : Nat} (index : Nat) (hab : a ≤ b) (hbc : b ≤ c) :
    index * 2 ^ (c - b) * 2 ^ (b - a) = index * 2 ^ (c - a) := by
  rw [Nat.mul_assoc, ← Nat.pow_add]
  congr 2
  omega

theorem div_pow_of_part {low top index page : Nat} (hLe : low ≤ top)
    (hPage : page / 2 ^ low = index * 2 ^ (top - low)) :
    page / 2 ^ top = index := by
  have hSum : low + (top - low) = top := by omega
  rw [← hSum, div_pow_add, hPage]
  exact first_page _ _

variable {i bestIndexAtOrder : Nat} {best : Nat × Nat}

theorem Searching.still_free (hSized : origin.Sized capacity n)
    (hSearch : Searching origin capacity n order i self bestIndexAtOrder best) {o j : Nat}
    (hIn : (o, j) ∈ origin.blocks) :
    (o, j) ∈ self.blocks ∨ (best.2 ≤ o ∧ bestIndexAtOrder = j * 2 ^ (o - order)) := by
  rcases hSearch.source with ⟨top, index, hTop, hLe, hBest⟩
  have hCovers := hSearch.becomes.covers
  have hMax := hSearch.becomes.maxOrder
  by_cases hSame : (o, j) = (top, index)
  · cases hSame
    refine Or.inr ⟨hLe, ?_⟩
    rw [hSearch.index, hBest, mul_pow_mul_pow _ hSearch.order_le hLe]
  · refine Or.inl (hSized.buddies.mem_of_covered (hMax ▸ hSearch.becomes.sized.buddies)
      (fun p hp => ((hCovers p).mp hp).1) hIn ?_)
    intro p hp
    refine (hCovers p).mpr ⟨Buddies.covers_of_mem hIn hp, ?_⟩
    intro hPart
    -- a page of the best block is in no other free block
    have hInTop : p / 2 ^ top = index := div_pow_of_part hLe (hPart.trans hBest)
    have hOrder : o = top := hSized.buddies.single (hp ▸ hIn) (hInTop ▸ hTop)
    subst hOrder
    exact hSame (by rw [← hp, ← hInTop])

theorem Searching.was_free (hSized : origin.Sized capacity n)
    (hSearch : Searching origin capacity n order i self bestIndexAtOrder best) {o j : Nat}
    (hOrder : order ≤ o) (hIn : (o, j) ∈ self.blocks)
    (hBefore : j * 2 ^ (o - order) < bestIndexAtOrder) :
    (o, j) ∈ origin.blocks := by
  have hCovers := hSearch.becomes.covers
  have hMax := hSearch.becomes.maxOrder
  have hBuddies := hSearch.becomes.sized.buddies
  have hLe : o ≤ origin.maxOrder := by
    rw [← hMax]
    exact hBuddies.order_le hIn
  have hCovered : ∀ p, p / 2 ^ o = j → Covers origin.blocks p :=
    fun p hp => ((hCovers p).mp (Buddies.covers_of_mem hIn hp)).1
  rcases hSized.buddies.exists_block hLe hCovered with ⟨e, _, hUp⟩
  rcases hSearch.still_free hSized hUp with hStill | ⟨_, hEnd⟩
  · have hFirst := first_page o j
    have hSame : o = o + e := by
      apply hBuddies.single (p := j * 2 ^ o)
      · rw [hFirst]
        exact hIn
      · rw [div_pow_add, hFirst]
        exact hStill
    have hZero : e = 0 := by omega
    subst hZero
    simpa using hUp
  · have hLess : j / 2 ^ e * 2 ^ (o + e - order) ≤ j * 2 ^ (o - order) := by
      rw [show o + e - order = e + (o - order) by omega, Nat.pow_add, ← Nat.mul_assoc]
      exact Nat.mul_le_mul_right _ (Nat.div_mul_le_self j _)
    omega

theorem Searching.step (rest : List Nat) (hSized : origin.Sized capacity n) (hOrder : order < i)
    (hSearch : Searching origin capacity n order i self bestIndexAtOrder best) :
    ∃ state bestIndexAtOrder' best', searchLowest (i :: rest) self (2 ^ (i - order))
          bestIndexAtOrder best =
        searchLowest rest state (2 ^ (i + 1 - order)) bestIndexAtOrder' best' ∧
      Searching origin capacity n order (i + 1) state bestIndexAtOrder' best' := by
  have hDouble : 2 ^ (i - order) * 2 = 2 ^ (i + 1 - order) := by
    rw [← Nat.pow_succ]
    congr 1
    omega
  have hCovers := hSearch.becomes.covers
  have hMax := hSearch.becomes.maxOrder
  have hSelf := hSearch.becomes.sized
  rcases hSearch.source with ⟨_, _, hTop, hLe, hBest⟩
  have hTopOrder := hSized.buddies.order_le hTop
  rw [searchLowest]
  rcases allocInner_spec hSelf i with
    ⟨hFail, hNo⟩ | ⟨d, index, middle, hAlloc, hIn, hFirst, hLower, hTaken⟩
  · -- no block of this order or a higher one
    refine ⟨self, bestIndexAtOrder, best, ?_, hSearch.becomes, hSearch.order_le, hSearch.index,
      hSearch.source, ?_⟩
    · rw [hFail, ← hDouble]
      rfl
    · intro o j ho hLt hBlock
      rcases Nat.lt_succ_iff_lt_or_eq.mp hLt with hOld | rfl
      · exact hSearch.least o j ho hOld hBlock
      · rcases hSearch.still_free hSized hBlock with hStill | ⟨_, hEnd⟩
        · exact absurd hStill (hNo o j le_rfl)
        · exact le_of_eq hEnd
  -- blocks of this order, by the one that was found
  have hThis : ∀ j, (i, j) ∈ origin.blocks → index * 2 ^ d ≤ j ∨
        bestIndexAtOrder = j * 2 ^ (i - order) := by
    intro j hBlock
    rcases hSearch.still_free hSized hBlock with hStill | ⟨_, hEnd⟩
    · rcases Nat.eq_zero_or_pos d with rfl | hPos
      · left
        simpa using hFirst j hStill
      · exact absurd hStill (hLower 0 hPos j)
    · exact Or.inr hEnd
  have hMiddle := hTaken.maxOrder
  have hPages : ∀ p, p / 2 ^ i = index * 2 ^ d → Covers self.blocks p := by
    intro p hp
    refine Buddies.covers_of_mem hIn ?_
    rw [div_pow_add, hp, first_page]
  have hFoundOrder : i + d ≤ self.maxOrder := hSelf.buddies.order_le hIn
  by_cases hBetter : index * 2 ^ d * 2 ^ (i - order) < bestIndexAtOrder
  · -- the block found becomes the best one
    have hFresh : ∀ p, p / 2 ^ best.2 = best.1 → ¬ Covers middle.blocks p := by
      intro p hp hCovered
      have hOld := ((hTaken.covers p).mp hCovered).1
      exact ((hCovers p).mp hOld).2 hp
    have hEnd : (best.1 + 1) * 2 ^ best.2 ≤ n := by
      rw [hBest]
      apply hSized.buddies.within_first
      rw [Nat.add_sub_cancel' hLe]
      exact hTop
    rcases freeInner_spec hTaken.sized (show best.2 ≤ middle.maxOrder by omega) hEnd hFresh with
      ⟨state, hFree, hFreed⟩
    have hWas : (i + d, index) ∈ origin.blocks := by
      refine hSearch.was_free hSized (by omega) hIn ?_
      rw [show i + d - order = d + (i - order) by omega, Nat.pow_add, ← Nat.mul_assoc]
      exact hBetter
    refine ⟨state, index * 2 ^ d * 2 ^ (i - order), (index * 2 ^ d, i), ?_, ?_, ?_, rfl, ?_, ?_⟩
    · rw [hAlloc]
      simp only [bind_eq_bind, bind_some, if_pos hBetter, hFree, hDouble]
    · refine ((hSearch.becomes.trans hTaken).trans hFreed).congr ?_
      intro p
      rw [hTaken.covers, hCovers]
      constructor
      · rintro (⟨⟨hOld, _⟩, hNot⟩ | hPart)
        · exact ⟨hOld, hNot⟩
        · refine ⟨Buddies.covers_of_mem hTop (div_pow_of_part hLe (hPart.trans hBest)), ?_⟩
          intro hFound
          exact ((hCovers p).mp (hPages p hFound)).2 hPart
      · rintro ⟨hOld, hNot⟩
        by_cases hPart : p / 2 ^ best.2 = best.1
        · exact Or.inr hPart
        · exact Or.inl ⟨⟨hOld, hPart⟩, hNot⟩
    · exact le_of_lt hOrder
    · refine ⟨i + d, index, hWas, Nat.le_add_right i d, ?_⟩
      simp
    · intro o j ho hLt hBlock
      rcases Nat.lt_succ_iff_lt_or_eq.mp hLt with hOld | rfl
      · have hLeast := hSearch.least o j ho hOld hBlock
        omega
      · rcases hThis j hBlock with hLater | hEnd
        · exact Nat.mul_le_mul_right _ hLater
        · omega
  · -- the block found is put back
    have hFresh : ∀ p, p / 2 ^ i = index * 2 ^ d → ¬ Covers middle.blocks p := by
      intro p hp hCovered
      exact ((hTaken.covers p).mp hCovered).2 hp
    rcases freeInner_spec hTaken.sized (show i ≤ middle.maxOrder by omega)
      (hSelf.buddies.within_first hIn) hFresh with
      ⟨state, hFree, hFreed⟩
    refine ⟨state, bestIndexAtOrder, best, ?_, ?_,
      hSearch.order_le, hSearch.index, hSearch.source, ?_⟩
    · rw [hAlloc]
      simp only [bind_eq_bind, bind_some, if_neg hBetter, hFree, hDouble]
    · refine ((hSearch.becomes.trans hTaken).trans hFreed).congr ?_
      intro p
      rw [hTaken.covers, ← hCovers]
      constructor
      · rintro (⟨hOld, _⟩ | hFound)
        · exact hOld
        · exact hPages p hFound
      · intro hOld
        by_cases hFound : p / 2 ^ i = index * 2 ^ d
        · exact Or.inr hFound
        · exact Or.inl ⟨hOld, hFound⟩
    · intro o j ho hLt hBlock
      rcases Nat.lt_succ_iff_lt_or_eq.mp hLt with hOld | rfl
      · exact hSearch.least o j ho hOld hBlock
      · rcases hThis j hBlock with hLater | hEnd
        · have hScaled := Nat.mul_le_mul_right (2 ^ (o - order)) hLater
          omega
        · exact le_of_eq hEnd

theorem Searching.run (count : Nat) (hSized : origin.Sized capacity n) (hOrder : order < i)
    (hSearch : Searching origin capacity n order i self bestIndexAtOrder best) :
    ∃ state bestIndexAtOrder' best', searchLowest (List.range' i count) self
          (2 ^ (i - order)) bestIndexAtOrder best =
        some (state, bestIndexAtOrder', best') ∧
      Searching origin capacity n order (i + count) state bestIndexAtOrder' best' := by
  induction count generalizing self i bestIndexAtOrder best with
  | zero => exact ⟨self, bestIndexAtOrder, best, rfl, hSearch⟩
  | succ count ih =>
    rw [List.range'_succ]
    rcases hSearch.step (List.range' (i + 1) count) hSized hOrder with ⟨_, _, _, hStep, hNext⟩
    rcases ih (by omega) hNext with ⟨final, index', best'', hRun, hFinal⟩
    refine ⟨final, index', best'', hStep.trans hRun, ?_⟩
    rw [show i + (count + 1) = i + 1 + count by omega]
    exact hFinal

-- Splitting Down

/- Of a taken block all but its left end is freed. -/
theorem splitDown_spec
    (bestOrder : Nat) {index : Nat} (hSized : self.Sized capacity n) (hLe : order ≤ bestOrder)
    (hMax : bestOrder ≤ self.maxOrder) (hEnd : (index + 1) * 2 ^ bestOrder ≤ n)
    (hFresh : ∀ p, p / 2 ^ bestOrder = index → ¬ Covers self.blocks p) :
    ∃ after, splitDown order bestOrder self index = some (index * 2 ^ (bestOrder - order), after) ∧
        self.Becomes after capacity n fun p => Covers self.blocks p ∨
            (p / 2 ^ bestOrder = index ∧ p / 2 ^ order ≠ index * 2 ^ (bestOrder - order)) := by
  induction bestOrder generalizing self index with
  | zero =>
    have hZero : order = 0 := by omega
    subst hZero
    refine ⟨self, by simp [splitDown], hSized, rfl, rfl, ?_⟩
    intro p
    simp
  | succ bestOrder ih =>
    rw [splitDown]
    by_cases hLt : order < bestOrder + 1
    · rw [if_pos hLt]
      rcases splitBlock_spec hSized (by omega) hEnd hFresh with ⟨middle, hSplit, hHalf⟩
      have hMiddle := hHalf.maxOrder
      have hShift : bestOrder + 1 - order = bestOrder - order + 1 := by omega
      have hLeft : ∀ p, p / 2 ^ bestOrder = index * 2 → ¬ Covers middle.blocks p := by
        intro p hp hCovered
        rcases (hHalf.covers p).mp hCovered with hOld | hRight
        · refine hFresh p ?_ hOld
          rw [div_pow_succ]
          omega
        · omega
      have hLeftEnd : (index * 2 + 1) * 2 ^ bestOrder ≤ n := by
        refine le_trans ?_ hEnd
        rw [Nat.pow_succ, Nat.mul_comm (2 ^ bestOrder), ← Nat.mul_assoc]
        apply Nat.mul_le_mul_right
        omega
      rcases ih hHalf.sized (by omega) (by omega) hLeftEnd hLeft with ⟨after, hRest, hRun⟩
      refine ⟨after, ?_, (hHalf.trans hRun).congr ?_⟩
      · simp only [bind_eq_bind, hSplit, bind_some, hRest, hShift, Nat.pow_succ']
        rw [Nat.mul_assoc]
      · intro p
        rw [hHalf.covers, div_pow_succ, hShift, Nat.pow_succ', ← Nat.mul_assoc]
        have hDown : p / 2 ^ bestOrder = p / 2 ^ order / 2 ^ (bestOrder - order) := by
          rw [← div_pow_add]
          congr 2
          omega
        have hNot : p / 2 ^ bestOrder = index * 2 + 1 → p / 2 ^ order ≠
              index * 2 * 2 ^ (bestOrder - order) := by
          intro hRight hEq
          rw [hDown, hEq, first_page] at hRight
          omega
        constructor
        · rintro ((hOld | hRight) | ⟨hBlock, hOff⟩)
          · exact Or.inl hOld
          · exact Or.inr ⟨by omega, hNot hRight⟩
          · exact Or.inr ⟨by omega, hOff⟩
        · rintro (hOld | ⟨hBlock, hOff⟩)
          · exact Or.inl (Or.inl hOld)
          · by_cases hRight : p / 2 ^ bestOrder = index * 2 + 1
            · exact Or.inl (Or.inr hRight)
            · exact Or.inr ⟨by omega, hOff⟩
    · have hEq : order = bestOrder + 1 := by omega
      subst hEq
      refine ⟨self, by simp, hSized, rfl, rfl, ?_⟩
      intro p
      simp

-- The Lowest Block

theorem not_whollyFree
    (hConsistent : self.Consistent capacity) (hNo : ∀ o j, order ≤ o → (o, j) ∉ self.blocks)
    (index : Nat) :
    ¬ self.WhollyFree order index := by
  intro hFree
  by_cases hOrder : order ≤ self.maxOrder
  · rcases hConsistent.sized.buddies.exists_block hOrder hFree with ⟨d, _, hIn⟩
    exact hNo _ _ (by omega) hIn
  · -- such a block is longer than the region
    have hUsable := hConsistent.usable
    have hPos := hConsistent.pos
    have hLe := hConsistent.le
    have hCapacity := hConsistent.capacity_le
    rw [calculateUsableOrder, if_neg (by omega)] at hUsable
    have hMax := Option.some.inj hUsable
    have hLog : Nat.log2 capacity ≤ 20 := by
      have hLt : Nat.log2 capacity < 21 := by
        rw [Nat.log2_lt (by omega)]
        unfold maxPageIndex at hCapacity
        omega
      omega
    have hBelow : capacity < 2 ^ (Nat.log2 capacity + 1) := Nat.lt_log2_self
    have hPow : 2 ^ (Nat.log2 capacity + 1) ≤ 2 ^ order := by
      apply Nat.pow_le_pow_right (by decide)
      unfold maxMaxPageOrder at hMax
      omega
    have hLast : (index * 2 ^ order + (2 ^ order - 1)) / 2 ^ order = index := by
      rw [div_pow_eq_iff, Nat.add_mul]
      omega
    have hInside := hConsistent.sized.buddies.covers_lt (hFree _ hLast)
    omega

/-
  What both ways to allocate do: they fail only without a wholly free block, and else take one out.
-/
theorem allocLowest_spec (hConsistent : self.Consistent capacity) (order : Nat) :
    (self.allocLowest order = some (none, self) ∧ ∀ index, ¬ self.WhollyFree order index) ∨
      ∃ index after, self.allocLowest order = some (some index, after) ∧
          self.WhollyFree order index ∧
          (∀ j < index, ¬ self.WhollyFree order j) ∧
          self.Becomes after capacity self.len fun p => self.Free p ∧ p / 2 ^ order ≠ index := by
  have hSized := hConsistent.sized
  rw [allocLowest]
  rcases allocInner_spec hSized order with
    ⟨hFail, hNo⟩ | ⟨d, index, middle, hAlloc, hIn, hFirst, hLower, hTaken⟩
  · refine Or.inl ⟨?_, not_whollyFree hConsistent hNo⟩
    rw [hFail]
    rfl
  · have hStart : Searching self capacity self.len order (order + 1) middle (index * 2 ^ d)
        (index * 2 ^ d, order) := by
      refine ⟨hTaken, le_rfl, by simp, ⟨order + d, index, hIn, Nat.le_add_right _ _, by simp⟩, ?_⟩
      intro o j ho hLt hBlock
      have hSame : o = order := by omega
      subst hSame
      rcases Nat.eq_zero_or_pos d with rfl | hPos
      · simpa using hFirst j hBlock
      · exact absurd hBlock (hLower 0 hPos j)
    have hMiddle := hTaken.maxOrder
    have hLeMax := hSized.buddies.order_le hIn
    rcases hStart.run (middle.maxOrder - order) hSized (Nat.lt_succ_self order) with
      ⟨state, bestIndex, best, hRun, hSearch⟩
    rw [show order + 1 - order = 1 by omega, Nat.pow_one] at hRun
    rcases hSearch.source with ⟨_, _, hTop, hLe, hBest⟩
    have hTopMax := hSized.buddies.order_le hTop
    have hState := hSearch.becomes.maxOrder
    have hFresh : ∀ p, p / 2 ^ best.2 = best.1 → ¬ Covers state.blocks p := by
      intro p hp hCovered
      exact ((hSearch.becomes.covers p).mp hCovered).2 hp
    have hPages : ∀ p, p / 2 ^ best.2 = best.1 → self.Free p := by
      intro p hp
      exact Buddies.covers_of_mem hTop (div_pow_of_part hLe (hp.trans hBest))
    have hEnd : (best.1 + 1) * 2 ^ best.2 ≤ self.len := by
      have hLast : ((best.1 + 1) * 2 ^ best.2 - 1) / 2 ^ best.2 = best.1 := by
        have hPos := Nat.two_pow_pos best.2
        rw [div_pow_eq_iff, Nat.add_mul]
        omega
      have hInside := hSized.buddies.covers_lt (hPages _ hLast)
      omega
    rcases splitDown_spec best.2 hSearch.becomes.sized hSearch.order_le (by omega) hEnd hFresh with
      ⟨after, hSplit, hDone⟩
    have hPart : ∀ p, p / 2 ^ order = best.1 * 2 ^ (best.2 - order) → p / 2 ^ best.2 = best.1 :=
      fun p hp => div_pow_of_part hSearch.order_le hp
    refine Or.inr ⟨bestIndex, after, ?_, ?_, ?_, ?_⟩
    · rw [hAlloc]
      simp only [bind_eq_bind, bind_some, hRun, hSplit, ← hSearch.index, if_true]
    · intro p hp
      rw [hSearch.index] at hp
      exact hPages p (hPart p hp)
    · intro j hj hFree
      rcases hSized.buddies.exists_block (by omega) hFree with ⟨e, hUp, hBlock⟩
      have hLeast := hSearch.least (order + e) (j / 2 ^ e) (by omega) (by omega) hBlock
      rw [show order + e - order = e by omega] at hLeast
      have hDiv := Nat.div_mul_le_self j (2 ^ e)
      omega
    · refine (hSearch.becomes.trans hDone).congr ?_
      intro p
      rw [hSearch.becomes.covers, hSearch.index]
      constructor
      · rintro (⟨hOld, hNot⟩ | ⟨hBlock, hOff⟩)
        · exact ⟨hOld, fun hp => hNot (hPart p hp)⟩
        · exact ⟨hPages p hBlock, hOff⟩
      · rintro ⟨hOld, hOff⟩
        by_cases hBlock : p / 2 ^ best.2 = best.1
        · exact Or.inr ⟨hBlock, hOff⟩
        · exact Or.inl ⟨hOld, hBlock⟩

/- An operation that keeps the size keeps consistency. -/
theorem Consistent.of_becomes
    {after : BuddyAllocator} {free : Nat → Prop} (hConsistent : self.Consistent capacity)
    (hBecomes : self.Becomes after capacity self.len free) :
    after.Consistent capacity where
  capacity_le := hConsistent.capacity_le
  usable := by
    rw [hBecomes.maxOrder]
    exact hConsistent.usable
  pos := by
    rw [hBecomes.len]
    exact hConsistent.pos
  le := by
    rw [hBecomes.len]
    exact hConsistent.le
  sized := by
    rw [hBecomes.len]
    exact hBecomes.sized

/-
  `alloc_lowest` returns the smallest index of a wholly free block, or nothing if there is none, and
  only the pages of that block stop being free.
-/
theorem alloc_lowest_takes_lowest (hConsistent : self.Consistent capacity) (order : Nat) :
    ∃ found after, self.allocLowest order = some (found, after) ∧ after.Consistent capacity ∧
        (∀ index, found = some index ↔ self.WhollyFree order index ∧
            ∀ j < index, ¬ self.WhollyFree order j) ∧
        ∀ page, after.Free page ↔ self.Free page ∧ found ≠ some (page / 2 ^ order) := by
  rcases allocLowest_spec hConsistent order with
    ⟨hFail, hNo⟩ | ⟨index, after, hAlloc, hFree, hLowest, hBecomes⟩
  · refine ⟨none, self, hFail, hConsistent, ?_, ?_⟩
    · intro index
      simp [hNo index]
    · intro page
      simp
  · refine ⟨some index, after, hAlloc, hConsistent.of_becomes hBecomes, ?_, ?_⟩
    · intro j
      constructor
      · intro hEq
        cases hEq
        exact ⟨hFree, hLowest⟩
      · rintro ⟨hj, hBelow⟩
        rcases Nat.lt_trichotomy index j with hLt | hEq | hGt
        · exact absurd hFree (hBelow index hLt)
        · rw [hEq]
        · exact absurd hj (hLowest j hGt)
    · intro page
      rw [Free, hBecomes.covers]
      simp only [ne_eq, Option.some.injEq, eq_comm]

theorem first_pair_is_lowest :
    ∃ start after, new 3 4 = some start ∧ start.allocLowest 1 = some (some 0, after) := by
  have hFits : 3 ≤ 4 := by decide
  rcases new_spec (by decide) hFits (by decide) with ⟨start, hNew, hConsistent, _, hFree⟩
  rcases alloc_lowest_takes_lowest hConsistent 1 with ⟨found, after, hAlloc, _, hFound, _⟩
  have hFirst : found = some 0 := by
    refine (hFound 0).mpr ⟨?_, fun j hj => absurd hj (by omega)⟩
    intro page hPage
    exact (hFree page).mpr (by omega)
  rw [hFirst] at hAlloc
  exact ⟨start, after, hNew, hAlloc⟩

end BuddyAllocator

end Redbx

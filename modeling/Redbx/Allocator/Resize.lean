import Redbx.Allocator.Lowest

/-
  The free end of a region, and changes of its size.

  `trailing_free_pages` walks back over free blocks, each of which ends where the last one began.
  `resize` walks over the pages that are added or dropped in aligned blocks, and each block is freed
  or taken like any other.

  Key theorems include:
    * `BuddyAllocator.resize_spec`, `BuddyAllocator.resize_to_trailing_free_pages`
-/

namespace Redbx

open List Option

namespace BuddyAllocator

variable {self : BuddyAllocator} {capacity n order page : Nat}

-- The Free End

theorem findFreeFrom_spec
    (orders : Nat) (hSized : self.Sized capacity n) (hOrders : order + orders = self.maxOrder + 1) :
    (self.findFreeFrom orders order (page / 2 ^ order) = some none ∧
      ∀ o, order ≤ o → (o, page / 2 ^ o) ∉ self.blocks) ∨
      ∃ o, self.findFreeFrom orders order (page / 2 ^ order) = some (some o) ∧
        (o, page / 2 ^ o) ∈ self.blocks := by
  induction orders generalizing order with
  | zero =>
    refine Or.inl ⟨rfl, ?_⟩
    intro o ho hIn
    have hLe := hSized.buddies.order_le hIn
    omega
  | succ orders ih =>
    have hOrder : order ≤ self.maxOrder := by omega
    rcases hSized.bitmaps.exists_bitmap hOrder with ⟨bitmap, hAt⟩
    have hLength := hSized.bitmaps.length hAt
    -- the block of this order is not free
    have hRest : (order, page / 2 ^ order) ∉ self.blocks →
        (self.findFreeFrom orders (order + 1) (nextHigherOrder (page / 2 ^ order)) = some none ∧
        ∀ o, order ≤ o → (o, page / 2 ^ o) ∉ self.blocks) ∨
        ∃ o, self.findFreeFrom orders (order + 1) (nextHigherOrder (page / 2 ^ order)) =
          some (some o) ∧
          (o, page / 2 ^ o) ∈ self.blocks := by
      intro hNot
      rw [nextHigherOrder, ← div_pow_succ]
      rcases @ih (order + 1) (by omega) with ⟨hNone, hNo⟩ | hSome
      · refine Or.inl ⟨hNone, ?_⟩
        intro o ho
        rcases Nat.eq_or_lt_of_le ho with rfl | hLt
        · exact hNot
        · exact hNo o hLt
      · exact Or.inr hSome
    rw [findFreeFrom, hAt]
    simp only [bind_eq_bind, bind_some]
    by_cases hLt : page / 2 ^ order < bitmap.len
    · rw [if_pos hLt]
      rcases getBit_spec hSized.bitmaps hOrder (hLength ▸ hLt) with ⟨bit, hGet, hBit⟩
      have hGet' : bitmap.get (page / 2 ^ order) = some bit := by simpa [getBit, hAt] using hGet
      rw [hGet', bind_some]
      cases bit with
      | true =>
        rw [if_pos rfl]
        refine hRest ?_
        intro hIn
        exact Bool.noConfusion (hBit.mpr hIn)
      | false =>
        rw [if_neg Bool.false_ne_true]
        exact Or.inr ⟨order, rfl, hBit.mp rfl⟩
    · rw [if_neg hLt]
      refine hRest ?_
      intro hIn
      have hFits := block_le_iff.mp (hSized.buddies.within hIn)
      omega

theorem findFreeOrder_spec (hSized : self.Sized capacity n) (page : Nat) :
    (self.findFreeOrder page = some none ∧ ¬ self.Free page) ∨
      ∃ o, self.findFreeOrder page = some (some o) ∧ (o, page / 2 ^ o) ∈ self.blocks := by
  have hFrom : 0 + (self.maxOrder + 1) = self.maxOrder + 1 := Nat.zero_add _
  have hFind : (self.findFreeFrom (self.maxOrder + 1) 0 (page / 2 ^ 0) = some none ∧
        ∀ o, 0 ≤ o → (o, page / 2 ^ o) ∉ self.blocks) ∨
        ∃ o, self.findFreeFrom (self.maxOrder + 1) 0 (page / 2 ^ 0) = some (some o) ∧
          (o, page / 2 ^ o) ∈ self.blocks :=
    findFreeFrom_spec _ hSized hFrom
  rw [Nat.pow_zero, Nat.div_one] at hFind
  rcases hFind with ⟨hNone, hNo⟩ | hSome
  · refine Or.inl ⟨hNone, ?_⟩
    rintro ⟨o, hIn⟩
    exact hNo o (Nat.zero_le o) hIn
  · exact Or.inr hSome

/- The end of the region, or the start of a free block. -/
def Boundary (self : BuddyAllocator) (n page : Nat) : Prop :=
  page = n ∨ ∃ o j, (o, j) ∈ self.blocks ∧ j * 2 ^ o = page

/- A free block that reaches a boundary ends there. -/
theorem Boundary.block_end
    {o : Nat} (hSized : self.Sized capacity n) (hBoundary : self.Boundary n (page + 1))
    (hIn : (o, page / 2 ^ o) ∈ self.blocks) :
    (page / 2 ^ o + 1) * 2 ^ o = page + 1 := by
  have hEnd := hSized.buddies.within hIn
  have hPage := div_pow_eq_iff.mp (rfl : page / 2 ^ o = page / 2 ^ o)
  rcases hBoundary with hLast | ⟨k, j, hNext, hStart⟩
  · omega
  · by_contra hNot
    -- the page after would be in both blocks
    have hBoth : (page + 1) / 2 ^ o = page / 2 ^ o := div_pow_eq_iff.mpr ⟨by omega, by omega⟩
    have hFirst : (page + 1) / 2 ^ k = j := by
      rw [← hStart]
      exact first_page k j
    have hOrder : o = k := hSized.buddies.single (p := page + 1) (hBoth ▸ hIn) (hFirst ▸ hNext)
    subst hOrder
    rw [hBoth] at hFirst
    rw [← hFirst] at hStart
    omega

theorem trailingFrom_spec {freePages nextPage : Nat} (hSized : self.Sized capacity n)
    (hSum : freePages + (nextPage + 1) = n) (hAbove : ∀ p, nextPage < p → p < n → self.Free p)
    (hBoundary : self.Boundary n (nextPage + 1)) :
    ∃ trailing, self.trailingFrom freePages nextPage = some trailing ∧ trailing ≤ n ∧
        (∀ p, n - trailing ≤ p → p < n → self.Free p) ∧
        (trailing < n → ¬ self.Free (n - trailing - 1)) := by
  induction nextPage using Nat.strongRecOn generalizing freePages with
  | ind nextPage ih =>
    rw [trailingFrom]
    rcases findFreeOrder_spec hSized nextPage with ⟨hNone, hNot⟩ | ⟨o, hSome, hIn⟩
    · refine ⟨freePages, ?_, by omega, ?_, ?_⟩
      · rw [hNone]
        rfl
      · intro p hp hLt
        exact hAbove p (by omega) hLt
      · intro _
        rw [show n - freePages - 1 = nextPage by omega]
        exact hNot
    · have hEnd := hBoundary.block_end hSized hIn
      rw [Nat.add_mul, Nat.one_mul] at hEnd
      have hPos := Nat.two_pow_pos o
      have hCovered : ∀ p, nextPage / 2 ^ o * 2 ^ o ≤ p → p < n → self.Free p := by
        intro p hp hLt
        by_cases hIs : p ≤ nextPage
        · refine Buddies.covers_of_mem hIn (div_pow_eq_iff.mpr ⟨hp, ?_⟩)
          rw [Nat.add_mul, Nat.one_mul]
          omega
        · exact hAbove p (by omega) hLt
      rw [hSome]
      simp only [bind_eq_bind, bind_some]
      by_cases hFirst : nextPage < 2 ^ o
      · rw [if_pos hFirst]
        refine ⟨freePages + 2 ^ o, rfl, by omega, ?_, ?_⟩
        · intro p _ hLt
          exact hCovered p (by omega) hLt
        · omega
      · rw [if_neg hFirst]
        refine ih (nextPage - 2 ^ o) (by omega) (by omega) ?_ ?_
        · intro p hp hLt
          exact hCovered p (by omega) hLt
        · refine Or.inr ⟨o, nextPage / 2 ^ o, hIn, ?_⟩
          omega

theorem trailingFreePages_spec (hConsistent : self.Consistent capacity) :
    ∃ trailing, self.trailingFreePages = some trailing ∧ trailing ≤ self.len ∧
        (∀ p, self.len - trailing ≤ p → p < self.len → self.Free p) ∧
        (trailing < self.len → ¬ self.Free (self.len - trailing - 1)) := by
  have hPos := hConsistent.pos
  rw [trailingFreePages, if_neg (by omega)]
  refine trailingFrom_spec hConsistent.sized (by omega) ?_ (Or.inl (by omega))
  intro p hp hLt
  omega

-- Other Lengths Of The Bitmaps

theorem resizeBitmaps_spec (bitmaps : List BtreeBitmap) (pages : Nat)
    (hBitmaps : ∀ i bitmap, bitmaps[i]? = some bitmap → bitmap.Sound ∧ pages / 2 ^ i ≤ bitmap.room ∧
        ∀ k, pages / 2 ^ i ≤ k → bitmap.bit k = true) :
    ∃ resized, resizeBitmaps bitmaps pages = some resized ∧ resized.length = bitmaps.length ∧
      ∀ i bitmap, resized[i]? = some bitmap →
        ∃ old, bitmaps[i]? = some old ∧ bitmap.Sound ∧ bitmap.len = pages / 2 ^ i ∧
          bitmap.room = old.room ∧
          ∀ k, bitmap.bit k = old.bit k := by
  induction bitmaps generalizing pages with
  | nil => exact ⟨[], rfl, rfl, fun i bitmap h => by cases h⟩
  | cons first rest ih =>
    rcases hBitmaps 0 first rfl with ⟨hSound, hRoom, hSet⟩
    rw [Nat.pow_zero, Nat.div_one] at hRoom hSet
    rcases BtreeBitmap.resize_spec pages hSound hRoom hSet
      with ⟨changed, hResize, hSound', hLen, hRoom', hBit⟩
    have hHalf : ∀ i, nextHigherOrder pages / 2 ^ i = pages / 2 ^ (i + 1) := by
      intro i
      rw [nextHigherOrder, Nat.div_div_eq_div_mul, ← Nat.pow_succ']
    rcases ih (nextHigherOrder pages) (by
      intro i bitmap hGet
      rw [hHalf]
      exact hBitmaps (i + 1) bitmap hGet) with
      ⟨resized, hRest, hLength, hOthers⟩
    refine ⟨changed :: resized, ?_, ?_, ?_⟩
    · simp only [resizeBitmaps, hResize, bind_eq_bind, bind_some, hRest]
    · rw [length_cons, length_cons, hLength]
    · intro i bitmap hGet
      cases i with
      | zero =>
        cases hGet
        refine ⟨first, rfl, hSound', ?_, hRoom', hBit⟩
        rw [hLen, Nat.pow_zero, Nat.div_one]
      | succ i =>
        rcases hOthers i bitmap hGet with ⟨old, hOld, hGood, hLen', hOther⟩
        refine ⟨old, hOld, hGood, ?_, hOther⟩
        rw [hLen', hHalf]

theorem resizeBitmaps_sized {pages : Nat} (hSized : self.Sized capacity n) (hLe : pages ≤ capacity)
    (hFits : ∀ {o j}, (o, j) ∈ self.blocks → (j + 1) * 2 ^ o ≤ pages) :
    ∃ bitmaps, resizeBitmaps self.free pages = some bitmaps ∧
      Sized { self with free := bitmaps } capacity pages ∧
      blocks { self with free := bitmaps } = self.blocks := by
  rcases resizeBitmaps_spec self.free pages (by
    intro o bitmap hAt
    refine ⟨hSized.bitmaps.sound hAt, le_trans (Nat.div_le_div_right hLe)
        (hSized.bitmaps.room hAt), ?_⟩
    intro k hk
    rw [← Bool.not_eq_false]
    intro hBit
    have hEnd := block_le_iff.mp (hFits ⟨bitmap, hAt, hBit⟩)
    omega) with ⟨bitmaps, hResize, hLength, hEach⟩
  have hBlocks : blocks { self with free := bitmaps } = self.blocks := by
    ext ⟨o, j⟩
    constructor
    · rintro ⟨bitmap, hAt, hBit⟩
      rcases hEach o bitmap hAt with ⟨old, hOld, _, _, _, hSame⟩
      exact ⟨old, hOld, by rw [← hSame]; exact hBit⟩
    · rintro ⟨old, hOld, hBit⟩
      have hLt : o < bitmaps.length := by
        rw [hLength]
        exact (List.getElem?_eq_some_iff.mp hOld).1
      have hAt := getElem?_eq_getElem hLt
      rcases hEach o _ hAt with ⟨old', hOld', _, _, _, hSame⟩
      rw [hOld] at hOld'
      cases hOld'
      exact ⟨_, hAt, by rw [hSame]; exact hBit⟩
  refine ⟨bitmaps, hResize, ⟨⟨?_, ?_, ?_, ?_⟩, ?_⟩, hBlocks⟩
  · rw [hLength]
    exact hSized.bitmaps.orders
  · intro o bitmap hAt
    rcases hEach o bitmap hAt with ⟨_, _, hSound, _⟩
    exact hSound
  · intro o bitmap hAt
    rcases hEach o bitmap hAt with ⟨_, _, _, hLen, _⟩
    exact hLen
  · intro o bitmap hAt
    rcases hEach o bitmap hAt with ⟨old, hOld, _, _, hRoom, _⟩
    rw [hRoom]
    exact hSized.bitmaps.room hOld
  · rw [hBlocks]
    exact ⟨hSized.buddies.order_le, hFits, hSized.buddies.single, hSized.buddies.merged⟩

-- Resizing

theorem walk_parts
    {σ : Type} {op : σ → Nat → Nat → Option σ} {maxOrder limit start : Nat} {s s' : σ} (hWalk : (do
        let (s, processed) ← alignUp op maxOrder limit s start
        fillOrders op limit maxOrder s processed) =
      some (s', limit)) :
    ∃ t p, alignUp op maxOrder limit s start = some (t, p) ∧
      fillOrders op limit maxOrder t p = some (s', limit) := by
  rcases bind_eq_some_iff.mp hWalk with ⟨⟨t, p⟩, hAlign, hFill⟩
  exact ⟨t, p, hAlign, hFill⟩

variable {newSize : Nat}

theorem grow_spec (hConsistent : self.Consistent capacity) (hGrow : self.len < newSize)
    (hLe : newSize ≤ capacity) :
    ∃ after, self.resize newSize = some after ∧ after.Consistent capacity ∧ after.len = newSize ∧
      ∀ p, after.Free p ↔ self.Free p ∨ (self.len ≤ p ∧ p < newSize) := by
  have hSized := hConsistent.sized
  have hPos := hConsistent.pos
  rcases resizeBitmaps_sized hSized hLe (by
    intro o j hIn
    exact le_trans (hSized.buddies.within hIn)
      (le_of_lt hGrow)) with ⟨bitmaps, hResize, hStart, hBlocks⟩
  -- the pages from the old end up to `p` have been freed
  rcases walk_rule (fun state p => self.len ≤ p ∧
      Becomes { self with free := bitmaps } state capacity newSize fun q =>
          self.Free q ∨ (self.len ≤ q ∧ q < p))
    (by
      rintro state j o hOrder hEnd ⟨hFrom, hState⟩
      have hTwo := Nat.two_pow_pos o
      have hMax := hState.maxOrder
      have hFresh : ∀ q, q / 2 ^ o = j → ¬ Covers state.blocks q := by
        intro q hq hCovered
        have hAt := (div_pow_eq_iff.mp hq).1
        rcases (hState.covers q).mp hCovered with hOld | hNew
        · have hBelow := hSized.buddies.covers_lt hOld
          omega
        · omega
      rcases freeInner_spec hState.sized (show o ≤ state.maxOrder by rw [hMax]; exact hOrder)
        hEnd hFresh with ⟨next, hFree, hNext⟩
      rw [Nat.add_mul, Nat.one_mul] at hEnd ⊢
      refine ⟨next, hFree, by omega, (hState.trans hNext).congr ?_⟩
      intro q
      rw [hState.covers, div_pow_eq_iff, Nat.add_mul, Nat.one_mul]
      constructor
      · rintro ((hOld | hMid) | hIs)
        · exact Or.inl hOld
        · exact Or.inr (by omega)
        · exact Or.inr (by omega)
      · rintro (hOld | hNew)
        · exact Or.inl (Or.inl hOld)
        · by_cases hq : q < j * 2 ^ o
          · exact Or.inl (Or.inr ⟨hNew.1, hq⟩)
          · exact Or.inr (by omega))
    { self with free := bitmaps } self.len (le_of_lt hGrow)
    ⟨le_rfl, hStart, rfl, rfl, by
      intro q
      rw [hBlocks]
      constructor
      · exact Or.inl
      · rintro (hOld | hNew)
        · exact hOld
        · omega⟩ with ⟨final, hWalk, _, hFinal⟩
  rcases walk_parts hWalk with ⟨_, _, hAlign, hFill⟩
  refine ⟨{ final with len := newSize }, ?_, ⟨hConsistent.capacity_le, ?_, ?_, hLe, ?_⟩, rfl,
    hFinal.covers⟩
  · rw [resize, if_pos hGrow, hResize]
    simp only [bind_eq_bind, bind_some,
      if_neg (show ¬ self.len = 0 by omega), hAlign, hFill, if_true]
  · rw [hConsistent.usable]
    exact congrArg some hFinal.maxOrder.symm
  · exact lt_trans hPos hGrow
  · exact ⟨⟨hFinal.sized.bitmaps.orders, hFinal.sized.bitmaps.sound, hFinal.sized.bitmaps.length,
      hFinal.sized.bitmaps.room⟩, hFinal.sized.buddies⟩

theorem shrink_spec
    (hConsistent : self.Consistent capacity) (hPos : 0 < newSize) (hShrink : newSize ≤ self.len)
    (hDropped : ∀ p, newSize ≤ p → p < self.len → self.Free p) :
    ∃ after, self.resize newSize = some after ∧ after.Consistent capacity ∧ after.len = newSize ∧
      ∀ p, after.Free p ↔ self.Free p ∧ p < newSize := by
  have hSized := hConsistent.sized
  -- the pages from the new end up to `p` have been taken
  rcases walk_rule (fun state p => newSize ≤ p ∧
      self.Becomes state capacity self.len fun q => self.Free q ∧ ¬ (newSize ≤ q ∧ q < p))
    (by
      rintro state j o hOrder hEnd ⟨hFrom, hState⟩
      have hTwo := Nat.two_pow_pos o
      have hMax := hState.maxOrder
      have hCovered : ∀ q, q / 2 ^ o = j → Covers state.blocks q := by
        intro q hq
        rcases div_pow_eq_iff.mp hq with ⟨hAt, hBelow⟩
        refine (hState.covers q).mpr ⟨hDropped q (by omega) (by omega), ?_⟩
        omega
      rcases hState.sized.buddies.exists_block (show o ≤ state.maxOrder by rw [hMax]; exact hOrder)
        hCovered with ⟨d, _, hIn⟩
      rcases recordAllocInner_spec d hState.sized hIn with ⟨next, hRecord, hNext⟩
      rw [Nat.add_mul, Nat.one_mul]
      refine ⟨next, hRecord, by omega, (hState.trans hNext).congr ?_⟩
      intro q
      rw [hState.covers, Ne, div_pow_eq_iff, Nat.add_mul, Nat.one_mul]
      constructor
      · rintro ⟨⟨hOld, hNot⟩, hOff⟩
        exact ⟨hOld, by omega⟩
      · rintro ⟨hOld, hNot⟩
        exact ⟨⟨hOld, by omega⟩, by omega⟩)
    self newSize hShrink
    ⟨le_rfl, hSized, rfl, rfl, by
      intro q
      constructor
      · intro hOld
        exact ⟨hOld, by omega⟩
      · exact And.left⟩ with ⟨taken, hWalk, _, hTaken⟩
  rcases walk_parts hWalk with ⟨_, _, hAlign, hFill⟩
  have hInside : ∀ q, taken.Free q ↔ self.Free q ∧ q < newSize := by
    intro q
    rw [Free, hTaken.covers]
    constructor
    · rintro ⟨hOld, hNot⟩
      have hBelow := hSized.buddies.covers_lt hOld
      exact ⟨hOld, by omega⟩
    · rintro ⟨hOld, hLt⟩
      exact ⟨hOld, by omega⟩
  rcases resizeBitmaps_sized hTaken.sized (le_trans hShrink hConsistent.le) (by
      intro o j hIn
      have hLast : ((j + 1) * 2 ^ o - 1) / 2 ^ o = j := by
        have hTwo := Nat.two_pow_pos o
        rw [div_pow_eq_iff, Nat.add_mul]
        omega
      have hFree := (hInside _).mp (Buddies.covers_of_mem hIn hLast)
      have hTwo := Nat.two_pow_pos o
      rw [Nat.add_mul] at hFree ⊢
      omega) with ⟨bitmaps, hResize, hSmall, hBlocks⟩
  refine ⟨{ taken with free := bitmaps, len := newSize }, ?_,
    ⟨hConsistent.capacity_le, ?_, hPos, le_trans hShrink hConsistent.le, ?_⟩, rfl, ?_⟩
  · rw [resize, if_neg (by omega), hAlign]
    simp only [bind_eq_bind, bind_some, hFill, if_true, hResize]
  · rw [hConsistent.usable]
    exact congrArg some hTaken.maxOrder.symm
  · exact ⟨⟨hSmall.bitmaps.orders, hSmall.bitmaps.sound,
      hSmall.bitmaps.length, hSmall.bitmaps.room⟩, hSmall.buddies⟩
  · intro q
    rw [← hInside q]
    change Covers (blocks { taken with free := bitmaps }) q ↔ _
    rw [hBlocks]
    exact Iff.rfl

/-
  To a size between one page and the capacity, when only free pages are dropped: kept pages stay as
  they are, and added ones are free.
-/
theorem resize_spec
    (hConsistent : self.Consistent capacity) (hPos : 0 < newSize) (hLe : newSize ≤ capacity)
    (hDropped : ∀ p, newSize ≤ p → p < self.len → self.Free p) :
    ∃ after, self.resize newSize = some after ∧ after.Consistent capacity ∧ after.len = newSize ∧
      ∀ p, after.Free p ↔ p < newSize ∧ (self.Free p ∨ self.len ≤ p) := by
  have hBelow : ∀ p, self.Free p → p < self.len :=
    fun p hp => hConsistent.sized.buddies.covers_lt hp
  by_cases hGrow : self.len < newSize
  · rcases grow_spec hConsistent hGrow hLe with ⟨after, hResize, hAfter, hLen, hFree⟩
    refine ⟨after, hResize, hAfter, hLen, ?_⟩
    intro p
    rw [hFree]
    constructor
    · rintro (hOld | hNew)
      · have hLt := hBelow p hOld
        exact ⟨by omega, Or.inl hOld⟩
      · exact ⟨hNew.2, Or.inr hNew.1⟩
    · rintro ⟨hLt, hOld | hNew⟩
      · exact Or.inl hOld
      · exact Or.inr ⟨hNew, hLt⟩
  · rcases shrink_spec hConsistent hPos (by omega) hDropped
      with ⟨after, hResize, hAfter, hLen, hFree⟩
    refine ⟨after, hResize, hAfter, hLen, ?_⟩
    intro p
    rw [hFree]
    constructor
    · rintro ⟨hOld, hLt⟩
      exact ⟨hLt, Or.inl hOld⟩
    · rintro ⟨hLt, hOld | hNew⟩
      · exact ⟨hOld, hLt⟩
      · omega

/-
  `trailing_free_pages` counts the free pages at the end; to any size that drops at most these,
  `resize` does not panic, keeps the state of the kept pages, and frees exactly the added ones.
-/
theorem resize_to_trailing_free_pages (hConsistent : self.Consistent capacity) :
    ∃ trailing, self.trailingFreePages = some trailing ∧ trailing ≤ self.len ∧
        (∀ p, self.len - trailing ≤ p → p < self.len → self.Free p) ∧
        (trailing < self.len → ¬ self.Free (self.len - trailing - 1)) ∧
        ∀ newSize, 0 < newSize → self.len - trailing ≤ newSize → newSize ≤ capacity →
          ∃ after, self.resize newSize = some after ∧ after.Consistent capacity ∧
            after.len = newSize ∧
            (∀ p, p < self.len → p < newSize → (after.Free p ↔ self.Free p)) ∧
            ∀ p, self.len ≤ p → (after.Free p ↔ p < newSize) := by
  rcases trailingFreePages_spec hConsistent with ⟨trailing, hCount, hLe, hFree, hLast⟩
  refine ⟨trailing, hCount, hLe, hFree, hLast, ?_⟩
  intro newSize hPos hKeep hCapacity
  rcases resize_spec hConsistent hPos hCapacity (fun p hp hLt => hFree p (by omega) hLt) with
    ⟨after, hResize, hAfter, hLen, hAll⟩
  refine ⟨after, hResize, hAfter, hLen, ?_, ?_⟩
  · intro p hOld hNew
    rw [hAll]
    constructor
    · rintro ⟨_, hIs | hBeyond⟩
      · exact hIs
      · omega
    · intro hIs
      exact ⟨hNew, Or.inl hIs⟩
  · intro p hp
    rw [hAll]
    exact ⟨And.left, fun hLt => ⟨hLt, Or.inr hp⟩⟩

theorem new_region_shrinks_to_one_page :
    ∃ start after, new 3 4 = some start ∧ start.trailingFreePages = some 3 ∧
      start.resize 1 = some after := by
  have hFits : 3 ≤ 4 := by decide
  rcases new_spec (by decide) hFits (by decide) with ⟨start, hNew, hConsistent, hLen, hFree⟩
  rcases resize_to_trailing_free_pages hConsistent with ⟨trailing, hCount, hLe, _, hLast, hResize⟩
  have hAll : trailing = 3 := by
    by_contra hNot
    refine hLast (by omega) ?_
    exact (hFree _).mpr (by omega)
  subst hAll
  rcases hResize 1 (by decide) (by omega) (by decide) with ⟨after, hAfter, _⟩
  exact ⟨start, after, hNew, hCount, hAfter⟩

end BuddyAllocator

end Redbx

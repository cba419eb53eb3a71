import Redbx.Allocator.Bitmap
import Redbx.Core.Blocks

/-
  The buddy allocator of a region.

  There is one bitmap for each order, and an unset bit is a free block. An operation that fails an
  assertion, or goes past a bitmap, gives `none`.

  The free blocks are a family as in `Core.Blocks`, and every operation is described by the family
  it leaves: it is again one of merged buddies, and covers the pages it should.

  Key theorems include:
    * `freeInner_spec`, `new_spec`
-/

namespace Redbx

open List Option

-- The Allocator

/- `MAX_MAX_PAGE_ORDER`. -/
def maxMaxPageOrder : Nat := 20

/- `MAX_PAGE_INDEX`: the pages of a region have 20 bits. -/
def maxPageIndex : Nat := 0x000FFFFF

/- The highest order of a region; panics without pages. -/
def calculateUsableOrder (pages : Nat) : Option Nat :=
  if pages = 0 then none
  else some (min maxMaxPageOrder (Nat.log2 pages))

def nextHigherOrder (pageNumber : Nat) : Nat := pageNumber / 2

def buddyPage (pageNumber : Nat) : Nat := pageNumber ^^^ 1

structure BuddyAllocator where
  free : List BtreeBitmap
  len : Nat
  maxOrder : Nat
  deriving DecidableEq

namespace BuddyAllocator

variable (self : BuddyAllocator)

/- Whether a block is marked as not free. -/
def getBit (page order : Nat) : Option Bool := do
  let bitmap ← self.free[order]?
  bitmap.get page

def setBit (page order : Nat) : Option BuddyAllocator := do
  let bitmap ← self.free[order]?
  let bitmap ← bitmap.set page
  some { self with free := self.free.set order bitmap }

def clearBit (page order : Nat) : Option BuddyAllocator := do
  let bitmap ← self.free[order]?
  let bitmap ← bitmap.clear page
  some { self with free := self.free.set order bitmap }

/- The bitmaps of `new`, lowest order first. -/
def newBitmaps : (orders pages capacity : Nat) → List BtreeBitmap
  | 0, _, _ => []
  | orders + 1, pages, capacity =>
    .new pages capacity :: newBitmaps orders (nextHigherOrder pages) (nextHigherOrder capacity)

/- The pages are marked free from the highest order down. -/
def new (numPages maxPageCapacity : Nat) : Option BuddyAllocator := do
  let maxOrder ← calculateUsableOrder maxPageCapacity
  let (self, accounted) ← fillOrders clearBit numPages maxOrder
      ⟨newBitmaps (maxOrder + 1) numPages maxPageCapacity, numPages, maxOrder⟩ 0
  if accounted = numPages then some self else none

/- The search of `highest_free_order` below an order. -/
def highestFreeBelow (self : BuddyAllocator) : Nat → Option (Option Nat)
  | 0 => some none
  | order + 1 => do
    let bitmap ← self.free[order]?
    if bitmap.hasUnset then some (some order)
    else self.highestFreeBelow order

def highestFreeOrder : Option (Option Nat) :=
  self.highestFreeBelow (self.maxOrder + 1)

/- The search of `find_free_order` from an order on. -/
def findFreeFrom (self : BuddyAllocator) : (orders order page : Nat) → Option (Option Nat)
  | 0, _, _ => some none
  | orders + 1, order, page => do
    let bitmap ← self.free[order]?
    if page < bitmap.len then
      if ← bitmap.get page then
        self.findFreeFrom orders (order + 1) (nextHigherOrder page)
      else
        some (some order)
    else
      self.findFreeFrom orders (order + 1) (nextHigherOrder page)

def findFreeOrder (page : Nat) : Option (Option Nat) :=
  self.findFreeFrom (self.maxOrder + 1) 0 page

/- The loop of `trailing_free_pages`. -/
def trailingFrom (self : BuddyAllocator) (freePages nextPage : Nat) : Option Nat := do
  match ← self.findFreeOrder nextPage with
  | none => some freePages
  | some order =>
    if nextPage < 2 ^ order then
      some (freePages + 2 ^ order)
    else
      self.trailingFrom (freePages + 2 ^ order) (nextPage - 2 ^ order)
termination_by nextPage
decreasing_by
  have hPos := Nat.two_pow_pos order
  omega

/- Underflows without pages. -/
def trailingFreePages : Option Nat :=
  if self.len = 0 then none
  else self.trailingFrom 0 (self.len - 1)

/-
  Splitting a block that is not free any more: its right half becomes free, and the left half is
  returned.
-/
def splitBlock (upperPage order : Nat) : Option (Nat × BuddyAllocator) := do
  let free1 := upperPage * 2
  let free2 := upperPage * 2 + 1
  if (← self.getBit free1 order) &&
      (← self.getBit free2 order) then
    let self ← self.clearBit free2 order
    some (free1, self)
  else
    none

def allocInner (self : BuddyAllocator) (order : Nat) : Option (Option Nat × BuddyAllocator) :=
  if self.maxOrder < order then
    some (none, self)
  else do
    let bitmap ← self.free[order]?
    match ← bitmap.alloc with
    | some (page, bitmap) =>
      some (some page, { self with free := self.free.set order bitmap })
    | none =>
      -- allocate a higher order page and split it
      match ← self.allocInner (order + 1) with
      | (none, self) => some (none, self)
      | (some upperPage, self) => do
        let (page, self) ← self.splitBlock upperPage order
        some (some page, self)
termination_by self.maxOrder + 1 - order

def alloc (order : Nat) : Option (Option Nat × BuddyAllocator) :=
  self.allocInner order

def recordAllocInner (self : BuddyAllocator) (pageNumber order : Nat) : Option BuddyAllocator :=
  if self.free.length ≤ order then
    none
  else do
    if ← self.getBit pageNumber order then
      -- split the parent page
      let upperPage := nextHigherOrder pageNumber
      let self ← self.recordAllocInner upperPage (order + 1)
      let free1 := upperPage * 2
      let free2 := upperPage * 2 + 1
      if free1 = pageNumber then
        self.clearBit free2 order
      else if free2 = pageNumber then
        self.clearBit free1 order
      else
        none
    else
      self.setBit pageNumber order
termination_by self.free.length - order

def recordAlloc (pageNumber order : Nat) : Option BuddyAllocator :=
  if order ≤ self.maxOrder then
    self.recordAllocInner pageNumber order
  else
    none

/- The orders from `order` up to the highest are left. -/
def freeUpward : (orders : Nat) → BuddyAllocator → (pageNumber order : Nat) → Option BuddyAllocator
  | 0, _, _, _ => none
  | orders + 1, self, pageNumber, order =>
    if order = self.maxOrder then
      self.clearBit pageNumber order
    else do
      let bitmap ← self.free[order]?
      let buddy := buddyPage pageNumber
      if bitmap.len ≤ buddy then
        self.clearBit pageNumber order
      else if ← bitmap.get buddy then
        self.clearBit pageNumber order
      else
        -- merge into a higher order page
        let self ← self.setBit buddy order
        freeUpward orders self (nextHigherOrder pageNumber) (order + 1)

def freeInner (pageNumber order : Nat) : Option BuddyAllocator :=
  freeUpward (self.maxOrder + 1 - order) self pageNumber order

/- `free`: the block must not be free already. -/
def freeBlock (pageNumber order : Nat) : Option BuddyAllocator := do
  if ← self.getBit pageNumber order then
    self.freeInner pageNumber order
  else
    none

/-
  The loop of `alloc_lowest`: a trial block of every higher order, of which the better one is kept.
-/
def searchLowest :
    List Nat → BuddyAllocator → (multiplier bestIndexAtOrder : Nat) → (best : Nat × Nat) →
      Option (BuddyAllocator × Nat × (Nat × Nat))
  | [], self, _, bestIndexAtOrder, best =>
    some (self, bestIndexAtOrder, best)
  | i :: rest, self, multiplier, bestIndexAtOrder, best => do
    match ← self.allocInner i with
    | (some index, self) =>
      if index * multiplier < bestIndexAtOrder then
        let self ← self.freeInner best.1 best.2
        searchLowest rest self (multiplier * 2) (index * multiplier) (index, i)
      else
        let self ← self.freeInner index i
        searchLowest rest self (multiplier * 2) bestIndexAtOrder best
    | (none, self) =>
      searchLowest rest self (multiplier * 2) bestIndexAtOrder best

/- Split a page until it has the requested order. -/
def splitDown (order : Nat) :
    (bestOrder : Nat) → BuddyAllocator → (index : Nat) → Option (Nat × BuddyAllocator)
  | 0, self, index => some (index, self)
  | bestOrder + 1, self, index =>
    if order < bestOrder + 1 then do
      let (index, self) ← self.splitBlock index bestOrder
      splitDown order bestOrder self index
    else
      some (index, self)

def allocLowest (order : Nat) : Option (Option Nat × BuddyAllocator) := do
  match ← self.allocInner order with
  | (none, self) => some (none, self)
  | (some index, self) => do
    let (self, bestIndexAtOrder, best) ← searchLowest
        (List.range' (order + 1) (self.maxOrder - order)) self 2 index (index, order)
    let (index, self) ← splitDown order best.2 self best.1
    if index = bestIndexAtOrder then
      some (some index, self)
    else
      none

/- All bitmaps get the length that belongs to the pages. -/
def resizeBitmaps : List BtreeBitmap → Nat → Option (List BtreeBitmap)
  | [], _ => some []
  | bitmap :: rest, pagesForOrder => do
    let bitmap ← bitmap.resize pagesForOrder true
    let rest ← resizeBitmaps rest (nextHigherOrder pagesForOrder)
    some (bitmap :: rest)

/-
  `resize`. The walk over the new pages, or over the pages that go, is that of `Core.Blocks`; it
  shifts by 32 bits when it starts at page zero.
-/
def resize (newSize : Nat) : Option BuddyAllocator :=
  if self.len < newSize then do
    let bitmaps ← resizeBitmaps self.free newSize
    if self.len = 0 then
      none
    else do
      let (self', processed) ← alignUp freeInner self.maxOrder newSize
          { self with free := bitmaps } self.len
      let (self', processed) ← fillOrders freeInner newSize self.maxOrder self' processed
      if processed = newSize then
        some { self' with len := newSize }
      else
        none
  else do
    let (self', processed) ← alignUp recordAllocInner self.maxOrder self.len self newSize
    let (self', processed) ← fillOrders recordAllocInner self.len self.maxOrder self' processed
    if processed = self.len then
      let bitmaps ← resizeBitmaps self'.free newSize
      some { self' with free := bitmaps, len := newSize }
    else
      none

-- The Free Blocks

/- The blocks that are marked free. -/
def blocks : Set (Nat × Nat) :=
  { block | ∃ bitmap, self.free[block.1]? = some bitmap ∧ bitmap.bit block.2 = false }

/- Bitmaps for `n` pages, with room for the capacity. -/
structure Bitmaps (before : BuddyAllocator) (capacity n : Nat) : Prop where
  orders : before.free.length = before.maxOrder + 1
  sound : ∀ {order : Nat} {bitmap : BtreeBitmap}, before.free[order]? = some bitmap → bitmap.Sound
  length : ∀ {order : Nat} {bitmap : BtreeBitmap}, before.free[order]? = some bitmap →
      bitmap.len = n / 2 ^ order
  room : ∀ {order : Nat} {bitmap : BtreeBitmap}, before.free[order]? = some bitmap →
      capacity / 2 ^ order ≤ bitmap.room

/- Bitmaps whose free blocks are merged buddies. -/
structure Sized (before : BuddyAllocator) (capacity n : Nat) : Prop where
  bitmaps : before.Bitmaps capacity n
  buddies : Buddies before.blocks before.maxOrder n

/- What an operation leaves: an allocator of the same size whose free pages are the given ones. -/
structure Becomes (before after : BuddyAllocator) (capacity n : Nat) (free : Nat → Prop) :
    Prop where
  sized : after.Sized capacity n
  len : after.len = before.len
  maxOrder : after.maxOrder = before.maxOrder
  covers : ∀ page, Covers after.blocks page ↔ free page

variable {self : BuddyAllocator} {capacity n order page : Nat}

variable (hBitmaps : self.Bitmaps capacity n)
include hBitmaps

theorem Bitmaps.exists_bitmap (hOrder : order ≤ self.maxOrder) :
    ∃ bitmap, self.free[order]? = some bitmap := by
  have hLt : order < self.free.length := by
    rw [hBitmaps.orders]
    omega
  exact ⟨_, getElem?_eq_getElem hLt⟩

theorem Bitmaps.exists_page (hOrder : order ≤ self.maxOrder) (hPage : page < n / 2 ^ order) :
    ∃ bitmap, self.free[order]? = some bitmap ∧ page < bitmap.len := by
  rcases hBitmaps.exists_bitmap hOrder with ⟨bitmap, hAt⟩
  rw [← hBitmaps.length hAt] at hPage
  exact ⟨bitmap, hAt, hPage⟩

theorem getBit_spec (hOrder : order ≤ self.maxOrder) (hPage : page < n / 2 ^ order) :
    ∃ bit, self.getBit page order = some bit ∧ (bit = false ↔ (order, page) ∈ self.blocks) := by
  rcases hBitmaps.exists_page hOrder hPage with ⟨bitmap, hAt, hLt⟩
  refine ⟨bitmap.bit page, ?_, ?_⟩
  · rw [getBit, hAt]
    exact BtreeBitmap.get_eq (hBitmaps.sound hAt) hLt
  · constructor
    · intro hBit
      exact ⟨bitmap, hAt, hBit⟩
    · rintro ⟨other, hOther, hBit⟩
      rw [hAt] at hOther
      cases hOther
      exact hBit

variable {bitmap changed : BtreeBitmap}

theorem Bitmaps.replace (hAt : self.free[order]? = some bitmap) (hSound : changed.Sound)
    (hLen : changed.len = bitmap.len) (hRoom : changed.room = bitmap.room) :
    Bitmaps { self with free := self.free.set order changed } capacity n := by
  have hLt : order < self.free.length := by
    rcases List.getElem?_eq_some_iff.mp hAt with ⟨hLt, _⟩
    exact hLt
  have hCases : ∀ {o b}, (self.free.set order changed)[o]? = some b →
      (o = order ∧ b = changed) ∨ self.free[o]? = some b := by
    intro o b hGet
    rw [getElem?_set] at hGet
    by_cases ho : order = o
    · rw [if_pos ho, if_pos (ho ▸ hLt)] at hGet
      cases hGet
      exact Or.inl ⟨ho.symm, rfl⟩
    · rw [if_neg ho] at hGet
      exact Or.inr hGet
  refine ⟨?_, ?_, ?_, ?_⟩
  · rw [length_set]
    exact hBitmaps.orders
  · intro o b hGet
    rcases hCases hGet with ⟨_, rfl⟩ | hOld
    · exact hSound
    · exact hBitmaps.sound hOld
  · intro o b hGet
    rcases hCases hGet with ⟨rfl, rfl⟩ | hOld
    · rw [hLen]
      exact hBitmaps.length hAt
    · exact hBitmaps.length hOld
  · intro o b hGet
    rcases hCases hGet with ⟨rfl, rfl⟩ | hOld
    · rw [hRoom]
      exact hBitmaps.room hAt
    · exact hBitmaps.room hOld

omit hBitmaps in
theorem mem_blocks_replace (hAt : self.free[order]? = some bitmap) (o j : Nat) :
    (o, j) ∈ blocks { self with free := self.free.set order changed } ↔
      if o = order then changed.bit j = false
      else (o, j) ∈ self.blocks := by
  have hLt : order < self.free.length := by
    rcases List.getElem?_eq_some_iff.mp hAt with ⟨hLt, _⟩
    exact hLt
  unfold blocks
  simp only [Set.mem_ofPred_eq, getElem?_set]
  by_cases ho : o = order
  · subst ho
    simp [hLt]
  · have hNe : order ≠ o := fun h => ho h.symm
    simp [ho, hNe]

omit hBitmaps in
theorem mem_blocks_changed {value : Bool} (hAt : self.free[order]? = some bitmap)
    (hBit : ∀ k, changed.bit k = if k = page then value else bitmap.bit k) (o j : Nat) :
    (o, j) ∈ blocks { self with free := self.free.set order changed } ↔
      if (o, j) = (order, page) then value = false
      else (o, j) ∈ self.blocks := by
  rw [mem_blocks_replace hAt]
  by_cases ho : o = order
  · subst ho
    rw [if_pos rfl, hBit]
    by_cases hj : j = page
    · simp [hj]
    · simp [hj, blocks, hAt]
  · simp [ho]

theorem setBit_spec (hOrder : order ≤ self.maxOrder) (hPage : page < n / 2 ^ order) :
    ∃ after, self.setBit page order = some after ∧ after.Bitmaps capacity n ∧ after.len = self.len ∧
      after.maxOrder = self.maxOrder ∧
      after.blocks = self.blocks \ {(order, page)} := by
  rcases hBitmaps.exists_page hOrder hPage with ⟨bitmap, hAt, hLt⟩
  rcases BtreeBitmap.set_spec (hBitmaps.sound hAt) hLt with
    ⟨changed, hSet, hSound, hLen, hRoom, hBit⟩
  refine ⟨{ self with free := self.free.set order changed },
    ?_, hBitmaps.replace hAt hSound hLen hRoom, rfl, rfl, ?_⟩
  · simp only [setBit, hAt, bind_eq_bind, bind_some, hSet]
  · ext ⟨o, j⟩
    rw [mem_blocks_changed hAt hBit]
    by_cases hSame : (o, j) = (order, page)
    · simp [hSame]
    · simp [hSame]

theorem clearBit_spec (hOrder : order ≤ self.maxOrder) (hPage : page < n / 2 ^ order) :
    ∃ after, self.clearBit page order = some after ∧
      after.Bitmaps capacity n ∧ after.len = self.len ∧
      after.maxOrder = self.maxOrder ∧
      after.blocks = insert (order, page) self.blocks := by
  rcases hBitmaps.exists_page hOrder hPage with ⟨bitmap, hAt, hLt⟩
  rcases BtreeBitmap.clear_spec (hBitmaps.sound hAt) hLt with
    ⟨changed, hClear, hSound, hLen, hRoom, hBit⟩
  refine ⟨{ self with free := self.free.set order changed },
    ?_, hBitmaps.replace hAt hSound hLen hRoom, rfl, rfl, ?_⟩
  · simp only [clearBit, hAt, bind_eq_bind, bind_some, hClear]
  · ext ⟨o, j⟩
    rw [mem_blocks_changed hAt hBit]
    by_cases hSame : (o, j) = (order, page)
    · simp [hSame]
    · simp [hSame]

-- Adding And Removing Free Blocks

omit hBitmaps

/- A block that is marked free and has no free buddy. -/
theorem clearBit_becomes (hSized : self.Sized capacity n) (hOrder : order ≤ self.maxOrder)
    (hEnd : (page + 1) * 2 ^ order ≤ n)
    (hFresh : ∀ p, p / 2 ^ order = page → ¬ Covers self.blocks p)
    (hBuddy : order < self.maxOrder → (order, page ^^^ 1) ∉ self.blocks) :
    ∃ after, self.clearBit page order = some after ∧ self.Becomes after capacity n fun p =>
        Covers self.blocks p ∨ p / 2 ^ order = page := by
  rcases clearBit_spec hSized.bitmaps hOrder (block_le_iff.mp hEnd) with
    ⟨after, hClear, hBitmaps, hLen, hMax, hBlocks⟩
  refine ⟨after, hClear, ⟨hBitmaps, ?_⟩, hLen, hMax, ?_⟩
  · rw [hBlocks, hMax]
    exact hSized.buddies.insert hOrder hEnd hFresh hBuddy
  · intro p
    rw [hBlocks]
    exact covers_insert

theorem setBit_becomes (hSized : self.Sized capacity n) (hIn : (order, page) ∈ self.blocks) :
    ∃ after, self.setBit page order = some after ∧ after.blocks = self.blocks \ {(order, page)} ∧
      self.Becomes after capacity n fun p => Covers self.blocks p ∧ p / 2 ^ order ≠ page := by
  rcases setBit_spec hSized.bitmaps (hSized.buddies.order_le hIn)
    (block_le_iff.mp (hSized.buddies.within hIn)) with
    ⟨after, hSet, hBitmaps, hLen, hMax, hBlocks⟩
  refine ⟨after, hSet, hBlocks, ⟨hBitmaps, ?_⟩, hLen, hMax, ?_⟩
  · rw [hBlocks, hMax]
    exact hSized.buddies.diff _
  · intro p
    rw [hBlocks]
    exact hSized.buddies.covers_diff hIn

/- The free pages may be described in another way. -/
theorem Becomes.congr {after : BuddyAllocator} {free free' : Nat → Prop}
    (hBecomes : self.Becomes after capacity n free) (hFree : ∀ p, free p ↔ free' p) :
    self.Becomes after capacity n free' := { hBecomes with
  covers := fun p => (hBecomes.covers p).trans (hFree p) }

theorem Becomes.trans {middle after : BuddyAllocator} {free free' : Nat → Prop}
    (hFirst : self.Becomes middle capacity n free)
    (hSecond : middle.Becomes after capacity n free') :
    self.Becomes after capacity n free' := { hSecond with
  len := hSecond.len.trans hFirst.len
  maxOrder := hSecond.maxOrder.trans hFirst.maxOrder }

/- A block below the highest order of which both halves exist. -/
theorem merged_end
    (hPage : (page + 1) * 2 ^ order ≤ n) (hBuddy : ((page ^^^ 1) + 1) * 2 ^ order ≤ n) :
    (page / 2 + 1) * 2 ^ (order + 1) ≤ n := by
  have hDouble : (page / 2 + 1) * 2 ^ (order + 1) = (2 * (page / 2) + 2) * 2 ^ order := by
    rw [Nat.pow_succ]
    ring
  rw [hDouble]
  rcases xor_one_cases page with ⟨hMod, hXor⟩ | ⟨hMod, hXor⟩
  · rw [hXor] at hBuddy
    have hIndex : 2 * (page / 2) + 2 = page + 1 + 1 := by omega
    rw [hIndex]
    exact hBuddy
  · have hIndex : 2 * (page / 2) + 2 = page + 1 := by omega
    rw [hIndex]
    exact hPage

/-
  Freeing merges upward. The induction is on the orders that are left; a merged block is freed at
  the next order after its other half was taken out.
-/
theorem freeUpward_spec
    (orders : Nat) (hOrders : orders = self.maxOrder + 1 - order) (hSized : self.Sized capacity n)
    (hOrder : order ≤ self.maxOrder) (hEnd : (page + 1) * 2 ^ order ≤ n)
    (hFresh : ∀ p, p / 2 ^ order = page → ¬ Covers self.blocks p) :
    ∃ after, freeUpward orders self page order = some after ∧ self.Becomes after capacity n fun p =>
        Covers self.blocks p ∨ p / 2 ^ order = page := by
  induction orders generalizing self page order with
  | zero => omega
  | succ _ ih =>
    rw [freeUpward]
    by_cases hTop : order = self.maxOrder
    · rw [if_pos hTop]
      exact clearBit_becomes hSized hOrder hEnd hFresh (by omega)
    rw [if_neg hTop]
    rcases hSized.bitmaps.exists_bitmap hOrder with ⟨bitmap, hAt⟩
    have hLength := hSized.bitmaps.length hAt
    rw [hAt]
    simp only [bind_eq_bind, bind_some]
    have hBuddy : buddyPage page = page ^^^ 1 := rfl
    by_cases hOut : bitmap.len ≤ buddyPage page
    · rw [if_pos hOut]
      refine clearBit_becomes hSized hOrder hEnd hFresh ?_
      intro _ hIn
      have hFits := block_le_iff.mp (hSized.buddies.within hIn)
      omega
    rw [if_neg hOut]
    have hBuddyLt : page ^^^ 1 < n / 2 ^ order := by omega
    rcases getBit_spec hSized.bitmaps hOrder hBuddyLt with ⟨bit, hGet, hBit⟩
    have hGet' : bitmap.get (page ^^^ 1) = some bit := by simpa [getBit, hAt] using hGet
    rw [hBuddy, hGet', bind_some]
    cases bit with
    | true =>
      rw [if_pos rfl]
      refine clearBit_becomes hSized hOrder hEnd hFresh ?_
      intro _ hIn
      exact Bool.noConfusion (hBit.mpr hIn)
    | false =>
      rw [if_neg Bool.false_ne_true]
      have hIn := hBit.mp rfl
      rcases setBit_becomes hSized hIn with ⟨middle, hSet, _, hTaken⟩
      rw [hSet, bind_some]
      have hMax := hTaken.maxOrder
      -- the other half was taken out, this one is not free
      have hUncovered : ∀ p, p / 2 ^ (order + 1) = page / 2 → ¬ Covers middle.blocks p := by
        intro p hp hCovers
        rcases (hTaken.covers p).mp hCovers with ⟨hOld, hNot⟩
        rcases div_pow_half.mp hp with hSelf | hOther
        · exact hFresh p hSelf hOld
        · exact hNot hOther
      rcases ih (by omega) hTaken.sized (by omega) (merged_end hEnd (hSized.buddies.within hIn))
        hUncovered with ⟨after, hRest, hFreed⟩
      refine ⟨after, hRest, (hTaken.trans hFreed).congr ?_⟩
      intro p
      rw [hTaken.covers, div_pow_half]
      constructor
      · rintro (⟨hOld, _⟩ | hSelf | hOther)
        · exact Or.inl hOld
        · exact Or.inr hSelf
        · exact Or.inl (Buddies.covers_of_mem hIn hOther)
      · rintro (hOld | hSelf)
        · by_cases hOther : p / 2 ^ order = page ^^^ 1
          · exact Or.inr (Or.inr hOther)
          · exact Or.inl ⟨hOld, hOther⟩
        · exact Or.inr (Or.inl hSelf)

/- Freeing a block adds its pages to the free ones. -/
theorem freeInner_spec (hSized : self.Sized capacity n) (hOrder : order ≤ self.maxOrder)
    (hEnd : (page + 1) * 2 ^ order ≤ n)
    (hFresh : ∀ p, p / 2 ^ order = page → ¬ Covers self.blocks p) :
    ∃ after, self.freeInner page order = some after ∧ self.Becomes after capacity n fun p =>
        Covers self.blocks p ∨ p / 2 ^ order = page :=
  freeUpward_spec _ rfl hSized hOrder hEnd hFresh

/- A taken block is split, and its right half freed. -/
theorem splitBlock_spec (hSized : self.Sized capacity n) (hOrder : order < self.maxOrder)
    (hEnd : (page + 1) * 2 ^ (order + 1) ≤ n)
    (hFresh : ∀ p, p / 2 ^ (order + 1) = page → ¬ Covers self.blocks p) :
    ∃ after, self.splitBlock page order = some (page * 2, after) ∧
      self.Becomes after capacity n fun p => Covers self.blocks p ∨
          p / 2 ^ order = page * 2 + 1 := by
  have hEnd' : (page * 2 + 1 + 1) * 2 ^ order ≤ n := by
    rw [Nat.pow_succ] at hEnd
    calc (page * 2 + 1 + 1) * 2 ^ order
        = (page + 1) * (2 ^ order * 2) := by ring
      _ ≤ n := hEnd
  have hHalf : ∀ half, half / 2 = page → ∀ p, p / 2 ^ order = half → ¬ Covers self.blocks p := by
    intro half hHalf p hp
    apply hFresh p
    rw [div_pow_succ, hp, hHalf]
  have hRight : page * 2 + 1 < n / 2 ^ order := block_le_iff.mp hEnd'
  have hGetTrue : ∀ half, half / 2 = page → half < n / 2 ^ order →
      self.getBit half order = some true := by
    intro half hPart hLt
    rcases getBit_spec hSized.bitmaps (by omega) hLt with ⟨bit, hGet, hBit⟩
    cases bit with
    | true => exact hGet
    | false => exact absurd (hBit.mp rfl) (Buddies.not_mem_of_uncovered (hHalf half hPart))
  have hXor : (page * 2 + 1) ^^^ 1 = page * 2 := by
    have hCases := xor_one_cases (page * 2 + 1)
    omega
  rcases clearBit_becomes hSized (by omega) hEnd' (hHalf _ (by omega)) (by
      intro _
      rw [hXor]
      exact Buddies.not_mem_of_uncovered (hHalf _ (by omega))) with ⟨after, hClear, hBecomes⟩
  refine ⟨after, ?_, hBecomes⟩
  rw [splitBlock]
  simp only [hGetTrue (page * 2) (by omega) (by omega), hGetTrue (page * 2 + 1) (by omega) hRight,
    bind_eq_bind, bind_some, Bool.and_self, if_true, hClear]

theorem splitBlock_taken {d index : Nat} {middle : BuddyAllocator} (hSized : self.Sized capacity n)
    (hIn : (order + 1 + d, index) ∈ self.blocks)
    (hTaken : self.Becomes middle capacity n fun p => Covers self.blocks p ∧
      p / 2 ^ (order + 1) ≠ index * 2 ^ d) :
    ∃ after, middle.splitBlock (index * 2 ^ d) order = some (index * 2 ^ (d + 1), after) ∧
      self.Becomes after capacity n fun p => Covers self.blocks p ∧
          p / 2 ^ order ≠ index * 2 ^ (d + 1) := by
  have hPages : ∀ p, p / 2 ^ (order + 1) = index * 2 ^ d → p / 2 ^ (order + 1 + d) = index := by
    intro p hp
    rw [div_pow_add, hp, first_page]
  have hUncovered : ∀ p, p / 2 ^ (order + 1) = index * 2 ^ d → ¬ Covers middle.blocks p := by
    intro p hp hCovers
    exact ((hTaken.covers p).mp hCovers).2 hp
  have hMax := hTaken.maxOrder
  have hLe := hSized.buddies.order_le hIn
  rcases splitBlock_spec hTaken.sized (by omega) (hSized.buddies.within_first hIn) hUncovered with
    ⟨after, hSplit, hFreed⟩
  rw [Nat.mul_assoc, ← Nat.pow_succ] at hSplit
  refine ⟨after, hSplit, (hTaken.trans hFreed).congr ?_⟩
  intro p
  rw [hTaken.covers, div_pow_succ, Nat.pow_succ, ← Nat.mul_assoc]
  constructor
  · rintro (⟨hOld, hNot⟩ | hRight)
    · exact ⟨hOld, by omega⟩
    · refine ⟨?_, by omega⟩
      refine Buddies.covers_of_mem hIn (hPages p ?_)
      rw [div_pow_succ]
      omega
  · rintro ⟨hOld, hNot⟩
    by_cases hBlock : p / 2 ^ order / 2 = index * 2 ^ d
    · exact Or.inr (by omega)
    · exact Or.inl ⟨hOld, hBlock⟩

-- Allocation

/-
  `alloc_inner` takes the left end of the first block of the lowest order that has one, and fails if
  there is none.
-/
theorem allocInner_spec (hSized : self.Sized capacity n) (order : Nat) :
    (self.allocInner order = some (none, self) ∧ ∀ o j, order ≤ o → (o, j) ∉ self.blocks) ∨
      ∃ d index after, self.allocInner order = some (some (index * 2 ^ d), after) ∧
          (order + d, index) ∈ self.blocks ∧
          (∀ j, (order + d, j) ∈ self.blocks → index ≤ j) ∧
          (∀ e < d, ∀ j, (order + e, j) ∉ self.blocks) ∧
          self.Becomes after capacity n fun p => Covers self.blocks p ∧
              p / 2 ^ order ≠ index * 2 ^ d := by
  induction hLeft : self.maxOrder + 1 - order generalizing order with
  | zero =>
    refine Or.inl ⟨?_, ?_⟩
    · rw [allocInner, if_pos (by omega)]
    · intro o j ho hIn
      have hLe := hSized.buddies.order_le hIn
      omega
  | succ left ih =>
    rw [allocInner, if_neg (by omega)]
    rcases hSized.bitmaps.exists_bitmap (show order ≤ self.maxOrder by omega) with ⟨bitmap, hAt⟩
    rw [hAt]
    simp only [bind_eq_bind, bind_some]
    have hMem : ∀ j, (order, j) ∈ self.blocks ↔ bitmap.bit j = false := by
      intro j
      simp [blocks, hAt]
    rcases BtreeBitmap.alloc_spec (hSized.bitmaps.sound hAt) with
      ⟨hNone, hAll⟩ | ⟨found, changed, hSome, hUnset, hBefore, hSound, hLen, hRoom, hBit⟩
    · rw [hNone, bind_some]
      have hEmpty : ∀ j, (order, j) ∉ self.blocks := by
        intro j hIn
        rw [hMem, hAll j] at hIn
        exact Bool.noConfusion hIn
      rcases ih (order + 1) (by omega) with
        ⟨hFail, hNo⟩ | ⟨d, index, _, hUpper, hIn, hFirst, hLower, hTaken⟩
      · refine Or.inl ⟨?_, ?_⟩
        · rw [hFail, bind_some]
        · intro o j ho
          rcases Nat.eq_or_lt_of_le ho with rfl | hLt
          · exact hEmpty j
          · exact hNo o j hLt
      · -- the block comes from a higher order and is split
        rcases splitBlock_taken hSized hIn hTaken with ⟨after, hSplit, hFreed⟩
        refine Or.inr ⟨d + 1, index, after, ?_, ?_, ?_, ?_, hFreed⟩
        · rw [hUpper, bind_some]
          simp only [hSplit, bind_some]
        · rw [show order + (d + 1) = order + 1 + d by omega]
          exact hIn
        · rw [show order + (d + 1) = order + 1 + d by omega]
          exact hFirst
        · intro e he j
          rcases Nat.eq_zero_or_pos e with rfl | hPos
          · exact hEmpty j
          · rw [show order + e = order + 1 + (e - 1) by omega]
            exact hLower (e - 1) (by omega) j
    · rw [hSome, bind_some]
      have hIn : (order, found) ∈ self.blocks := (hMem found).mpr hUnset
      refine Or.inr ⟨0, found, { self with free := self.free.set order changed },
        by simp, hIn, ?_, ?_, ?_⟩
      · intro j hj
        by_contra hLt
        rw [Nat.add_zero, hMem, hBefore j (by omega)] at hj
        exact Bool.noConfusion hj
      · intro e he
        omega
      · have hBlocks : blocks { self with free := self.free.set order changed } =
            self.blocks \ {(order, found)} := by
          ext ⟨o, j⟩
          rw [mem_blocks_changed hAt hBit]
          by_cases hSame : (o, j) = (order, found)
          · simp [hSame]
          · simp [hSame]
        refine ⟨⟨hSized.bitmaps.replace hAt hSound hLen hRoom, ?_⟩, rfl, rfl, ?_⟩
        · rw [hBlocks]
          exact hSized.buddies.diff _
        · intro p
          rw [hBlocks, hSized.buddies.covers_diff hIn]
          simp

/- `record_alloc_inner` takes a block out of the free block that holds it, `d` orders higher. -/
theorem recordAllocInner_spec
    (d : Nat) (hSized : self.Sized capacity n) (hIn : (order + d, page / 2 ^ d) ∈ self.blocks) :
    ∃ after, self.recordAllocInner page order = some after ∧ self.Becomes after capacity n fun p =>
        Covers self.blocks p ∧ p / 2 ^ order ≠ page := by
  induction d generalizing page order with
  | zero =>
    simp only [Nat.add_zero, Nat.pow_zero, Nat.div_one] at hIn
    have hLe := hSized.buddies.order_le hIn
    have hOrders := hSized.bitmaps.orders
    rcases getBit_spec hSized.bitmaps hLe (block_le_iff.mp (hSized.buddies.within hIn)) with
      ⟨bit, hGet, hBit⟩
    rcases setBit_becomes hSized hIn with ⟨after, hSet, _, hTaken⟩
    refine ⟨after, ?_, hTaken⟩
    rw [recordAllocInner, if_neg (by omega), hGet]
    simp only [bind_eq_bind, bind_some, hBit.mpr hIn, Bool.false_eq_true, if_false, hSet]
  | succ d ih =>
    have hLe := hSized.buddies.order_le hIn
    have hOrders := hSized.bitmaps.orders
    have hFirst := first_page order page
    have hShift : order + (d + 1) = order + 1 + d := by omega
    have hHalve : page / 2 ^ (d + 1) = page / 2 / 2 ^ d := by
      rw [Nat.pow_succ', Nat.div_div_eq_div_mul]
    have hUp : (order + 1 + d, page / 2 / 2 ^ d) ∈ self.blocks := by
      rw [← hShift, ← hHalve]
      exact hIn
    have hPages : ∀ p, p / 2 ^ (order + 1) = page / 2 → Covers self.blocks p := by
      intro p hp
      refine Buddies.covers_of_mem hUp ?_
      rw [div_pow_add, hp]
    have hEnd : (page / 2 + 1) * 2 ^ (order + 1) ≤ n := by
      rw [block_le_iff]
      have hFits := block_le_iff.mp (hSized.buddies.within hUp)
      rw [div_pow_add] at hFits
      by_contra hGe
      have hDiv : n / 2 ^ (order + 1) / 2 ^ d ≤ page / 2 / 2 ^ d := Nat.div_le_div_right (by omega)
      omega
    have hHalfEnd : ∀ half, half / 2 = page / 2 → (half + 1) * 2 ^ order ≤ n := by
      intro half hHalf
      refine le_trans ?_ hEnd
      rw [Nat.pow_succ, Nat.mul_comm (2 ^ order), ← Nat.mul_assoc]
      apply Nat.mul_le_mul_right
      omega
    rcases getBit_spec hSized.bitmaps (show order ≤ self.maxOrder by omega)
      (block_le_iff.mp (hHalfEnd page rfl)) with
      ⟨bit, hGet, hBit⟩
    -- the page is free at a higher order, so not at this one
    have hTrue : bit = true := by
      rw [← Bool.not_eq_false]
      intro hFalse
      have hSame : order = order + (d + 1) := by
        apply hSized.buddies.single (p := page * 2 ^ order)
        · rw [hFirst]
          exact hBit.mp hFalse
        · rw [div_pow_add, hFirst]
          exact hIn
      omega
    have hNext : nextHigherOrder page = page / 2 := rfl
    rcases ih hUp with ⟨middle, hUpper, hTaken⟩
    have hMax := hTaken.maxOrder
    have hUncovered : ∀ half, half / 2 = page / 2 → ∀ p, p / 2 ^ order = half →
        ¬ Covers middle.blocks p := by
      intro half hHalf p hp hCovers
      refine ((hTaken.covers p).mp hCovers).2 ?_
      rw [div_pow_succ, hp, hHalf]
    have hXor := xor_one_cases page
    have hOther : (page ^^^ 1) / 2 = page / 2 := by omega
    have hBack : (page ^^^ 1) ^^^ 1 = page := by
      have hXor' := xor_one_cases (page ^^^ 1)
      omega
    rcases clearBit_becomes hTaken.sized (show order ≤ middle.maxOrder by omega)
      (hHalfEnd _ hOther) (hUncovered _ hOther) (by
        intro _
        rw [hBack]
        exact Buddies.not_mem_of_uncovered (hUncovered page rfl)) with
      ⟨after, hClear, hFreed⟩
    refine ⟨after, ?_, (hTaken.trans hFreed).congr ?_⟩
    · rw [recordAllocInner, if_neg (by omega), hGet]
      simp only [bind_eq_bind, bind_some, hTrue, if_true, hNext, hUpper]
      rcases hXor with ⟨hMod, hEq⟩ | ⟨hMod, hEq⟩
      · have hLeft : page / 2 * 2 = page := by omega
        have hHalf : page / 2 * 2 + 1 = page ^^^ 1 := by omega
        rw [if_pos hLeft, hHalf]
        exact hClear
      · have hLeft : ¬ page / 2 * 2 = page := by omega
        have hRight : page / 2 * 2 + 1 = page := by omega
        have hHalf : page / 2 * 2 = page ^^^ 1 := by omega
        rw [if_neg hLeft, if_pos hRight, hHalf]
        exact hClear
    · intro p
      rw [hTaken.covers]
      constructor
      · rintro (⟨hOld, hNot⟩ | hp)
        · refine ⟨hOld, ?_⟩
          intro hSelf
          exact hNot (div_pow_half.mpr (Or.inl hSelf))
        · refine ⟨hPages p (div_pow_half.mpr (Or.inr hp)), ?_⟩
          omega
      · rintro ⟨hOld, hNot⟩
        by_cases hp : p / 2 ^ (order + 1) = page / 2
        · rcases div_pow_half.mp hp with hSelf | hHalf
          · exact absurd hSelf hNot
          · exact Or.inr hHalf
        · exact Or.inl ⟨hOld, hp⟩

-- A New Allocator

/-
  The state of an allocator of a region: at least one page and at most the capacity, which has an
  index of 20 bits.
-/
structure Consistent (state : BuddyAllocator) (capacity : Nat) : Prop where
  capacity_le : capacity ≤ maxPageIndex + 1
  usable : calculateUsableOrder capacity = some state.maxOrder
  pos : 0 < state.len
  le : state.len ≤ capacity
  sized : state.Sized capacity state.len

theorem getElem?_newBitmaps (orders pages capacity order : Nat) :
    (newBitmaps orders pages capacity)[order]? = if order < orders then
        some (.new (pages / 2 ^ order) (capacity / 2 ^ order))
      else none := by
  induction orders generalizing pages capacity order with
  | zero => simp [newBitmaps]
  | succ _ ih =>
    cases order with
    | zero => simp [newBitmaps]
    | succ =>
      rw [newBitmaps, getElem?_cons_succ, ih, nextHigherOrder, nextHigherOrder,
        Nat.div_div_eq_div_mul, Nat.div_div_eq_div_mul, ← Nat.pow_succ']
      simp

theorem length_newBitmaps (orders pages capacity : Nat) :
    (newBitmaps orders pages capacity).length = orders := by
  induction orders generalizing pages capacity with
  | zero => rfl
  | succ _ ih => rw [newBitmaps, length_cons, ih]

theorem newBitmaps_sized {maxOrder pages : Nat} (hLe : pages ≤ capacity) :
    Sized ⟨newBitmaps (maxOrder + 1) pages capacity, pages, maxOrder⟩ capacity pages ∧
      ∀ block, block ∉ blocks ⟨newBitmaps (maxOrder + 1) pages capacity, pages, maxOrder⟩ := by
  have hNew : ∀ {order : Nat} {bitmap : BtreeBitmap},
      (newBitmaps (maxOrder + 1) pages capacity)[order]? = some bitmap →
      bitmap.Sound ∧ bitmap.len = pages / 2 ^ order ∧ capacity / 2 ^ order ≤ bitmap.room ∧
        ∀ k, bitmap.bit k = true := by
    intro order bitmap hGet
    rw [getElem?_newBitmaps] at hGet
    split at hGet
    · cases hGet
      exact BtreeBitmap.new_sound (Nat.div_le_div_right hLe)
    · cases hGet
  have hNone : ∀ block, block ∉ blocks ⟨newBitmaps (maxOrder + 1) pages capacity, pages,
        maxOrder⟩ := by
    rintro _ ⟨_, hGet, hBit⟩
    rw [(hNew hGet).2.2.2] at hBit
    exact Bool.noConfusion hBit
  refine ⟨⟨⟨?_, ?_, ?_, ?_⟩, ⟨?_, ?_, ?_, ?_⟩⟩, hNone⟩
  · exact length_newBitmaps _ _ _
  · intro order bitmap hGet
    exact (hNew hGet).1
  · intro order bitmap hGet
    exact (hNew hGet).2.1
  · intro order bitmap hGet
    exact (hNew hGet).2.2.1
  · intro o j hIn
    exact absurd hIn (hNone _)
  · intro o j hIn
    exact absurd hIn (hNone _)
  · intro o k p hIn
    exact absurd hIn (hNone _)
  · intro o j _ hIn
    exact absurd hIn (hNone _)

/-
  What holds while the blocks of an order are marked: the pages below `p` are free, and below the
  highest order there is room for one more block at most.
-/
structure Filling (maxOrder capacity n order : Nat) (state : BuddyAllocator) (p : Nat) : Prop where
  sized : state.Sized capacity n
  len : state.len = n
  maxOrder_eq : state.maxOrder = maxOrder
  covers : ∀ page, Covers state.blocks page ↔ page < p
  le : p ≤ n
  dvd : 2 ^ order ∣ p
  once : order < maxOrder → (2 ^ (order + 1) ∣ p ∧ n < p + 2 ^ (order + 1)) ∨ n < p + 2 ^ order

theorem Filling.step {maxOrder p : Nat} (hFilling : Filling maxOrder capacity n order self p)
    (hOrder : order ≤ maxOrder) (hFits : p + 2 ^ order ≤ n) :
    ∃ after, self.clearBit (p / 2 ^ order) order = some after ∧
      Filling maxOrder capacity n order after (p + 2 ^ order) := by
  rcases hFilling.dvd with ⟨j, rfl⟩
  have hPos := Nat.two_pow_pos order
  have hMax := hFilling.maxOrder_eq
  have hPages : ∀ q k, q / 2 ^ order = k → j ≤ k → ¬ Covers self.blocks q := by
    rintro q k hq hk hCovers
    rw [hFilling.covers, Nat.mul_comm, ← Nat.div_lt_iff_lt_mul hPos] at hCovers
    omega
  have hIndex : 2 ^ order * j / 2 ^ order = j := Nat.mul_div_cancel_left j hPos
  have hEnd : (j + 1) * 2 ^ order ≤ n := by
    rw [Nat.add_mul, Nat.one_mul, Nat.mul_comm]
    exact hFits
  rw [hIndex]
  -- below the highest order the block is a left half
  have hBuddy : order < self.maxOrder → (order, j ^^^ 1) ∉ self.blocks := by
    intro hLt
    rcases hFilling.once (by omega) with ⟨hDvd, _⟩ | hFull
    · rw [Nat.pow_succ] at hDvd
      have hEven : 2 ∣ j := Nat.dvd_of_mul_dvd_mul_left hPos hDvd
      have hXor := xor_one_cases j
      refine Buddies.not_mem_of_uncovered ?_
      intro q hq
      exact hPages q _ hq (by omega)
    · omega
  rcases clearBit_becomes hFilling.sized (by omega) hEnd
    (fun q hq => hPages q j hq le_rfl) hBuddy with
    ⟨after, hClear, hBecomes⟩
  refine ⟨after, hClear, hBecomes.sized, ?_, ?_, ?_, hFits, ?_, ?_⟩
  · rw [hBecomes.len, hFilling.len]
  · rw [hBecomes.maxOrder, hMax]
  · intro page
    rw [hBecomes.covers, hFilling.covers, div_pow_eq_iff, Nat.add_mul, Nat.one_mul, Nat.mul_comm j]
    omega
  · exact Nat.dvd_add (Nat.dvd_mul_right _ _) (Nat.dvd_refl _)
  · intro hLt
    refine Or.inr ?_
    rcases hFilling.once hLt with ⟨_, hNext⟩ | hFull
    · rw [Nat.pow_succ] at hNext
      omega
    · omega

/- A new allocator is consistent, and all its pages are free. -/
theorem new_spec {numPages : Nat} (hPos : 0 < numPages) (hLe : numPages ≤ capacity)
    (hCapacity : capacity ≤ maxPageIndex + 1) :
    ∃ after, new numPages capacity = some after ∧ after.Consistent capacity ∧ after.len = numPages ∧
      ∀ page, Covers after.blocks page ↔ page < numPages := by
  have hUsable : calculateUsableOrder capacity =
      some (min maxMaxPageOrder (Nat.log2 capacity)) := by
    rw [calculateUsableOrder, if_neg (by omega)]
  generalize min maxMaxPageOrder (Nat.log2 capacity) = maxOrder at hUsable
  rcases newBitmaps_sized hLe with ⟨hSized, hNone⟩
  have hStart : Filling maxOrder capacity numPages maxOrder
      ⟨newBitmaps (maxOrder + 1) numPages capacity, numPages, maxOrder⟩ 0 := by
    refine ⟨hSized, rfl, rfl, ?_, Nat.zero_le _, Nat.dvd_zero _, fun hLt => absurd hLt (by omega)⟩
    intro page
    refine ⟨?_, fun hLt => absurd hLt (by omega)⟩
    rintro ⟨o, hIn⟩
    exact absurd hIn (hNone _)
  rcases fillOrders_rule (Filling maxOrder capacity numPages)
    (fun order state p hOrder hFits hFilling => hFilling.step hOrder hFits)
    (fun order state p hLt hFull hFilling =>
      ⟨hFilling.sized, hFilling.len, hFilling.maxOrder_eq, hFilling.covers, hFilling.le,
        dvd_trans (pow_dvd_pow 2 (by omega)) hFilling.dvd,
        fun _ => Or.inl ⟨hFilling.dvd, hFull⟩⟩)
    maxOrder le_rfl _ 0 hStart with
    ⟨after, p, hFill, hFilled, hEnd⟩
  have hp : p = numPages := le_antisymm hFilled.le hEnd
  subst hp
  refine ⟨after, ?_, ⟨hCapacity, ?_, ?_, ?_, ?_⟩, hFilled.len, hFilled.covers⟩
  · simp only [new, hUsable, bind_eq_bind, bind_some, hFill, if_true]
  · rw [hUsable, hFilled.maxOrder_eq]
  · rw [hFilled.len]
    exact hPos
  · rw [hFilled.len]
    exact hLe
  · rw [hFilled.len]
    exact hFilled.sized

end BuddyAllocator

end Redbx

import Redbx.Allocator.Regions

/-
  What the region tracker says about the regions.

  Seen from outside the tracker is a function of order and region. The operations that return are
  described by it.

  Key theorems include:
    * `DatabaseLayout.calculate_spec`, `DatabaseLayout.reduceLastRegion_spec`
-/

namespace Redbx

open List Option

-- Bitmaps That Return

namespace BtreeBitmap

variable {bitmap changed : BtreeBitmap} {i : Nat}

theorem lt_of_set (hSet : bitmap.set i = some changed) : i < bitmap.len := by
  by_contra hAbove
  have hNone : bitmap.leaf.set i = none := if_neg hAbove
  rw [set, hNone] at hSet
  cases hSet

theorem lt_of_clear (hClear : bitmap.clear i = some changed) : i < bitmap.len := by
  by_contra hAbove
  have hNone : bitmap.leaf.clear i = none := if_neg hAbove
  rw [clear, hNone] at hClear
  cases hClear

/- The levels that come out have the lengths asked for. -/
theorem resizeParents_room
    (parents : List U64GroupedBitmap) {below : U64GroupedBitmap} {resized : List U64GroupedBitmap}
    {newLen : Nat} (hLinked : Linked below parents) (hDropped : below.len ≤ newLen)
    (hResize : resizeParents true parents newLen = some resized) {leaf : U64GroupedBitmap}
    (hLen : leaf.len = newLen) (hRoot : (resized.getLast?.getD leaf).len ≤ 64) :
    newLen ≤ 64 ^ (parents.length + 1) := by
  induction parents generalizing below resized newLen leaf with
  | nil =>
    cases hResize
    rw [← hLen]
    simpa using hRoot
  | cons parent rest ih =>
    rcases hLinked with ⟨hPadded, hParent, hFull, hRest⟩
    have hWords : parent.len ≤ U64GroupedBitmap.requiredWords newLen := by
      rw [hParent]
      unfold U64GroupedBitmap.requiredWords
      omega
    have hAbove : ∀ k, U64GroupedBitmap.requiredWords newLen ≤ k → parent.bit k = true :=
      fun k hk => (Linked.padded hRest).above k (by omega)
    rcases U64GroupedBitmap.resize_spec _ (Linked.padded hRest) hAbove with
      ⟨level, hLevel, hLevelLen, _, _⟩
    rw [resizeParents, hLevel, bind_eq_bind, bind_some] at hResize
    rcases bind_eq_some_iff.mp hResize with ⟨above, hAboveEq, hSome⟩
    cases hSome
    have hLast : (above.getLast?.getD level).len ≤ 64 := by
      cases above with
      | nil => exact hRoot
      | cons =>
        rw [getLast?_cons_cons] at hRoot
        rw [getLast?_cons] at hRoot ⊢
        exact hRoot
    have hRoom := ih hRest hWords hAboveEq hLevelLen hLast
    rw [length_cons, Nat.pow_succ]
    unfold U64GroupedBitmap.requiredWords at hRoom
    omega

/- A bitmap that can be made longer keeps its bits. -/
theorem lengthened {newLen : Nat} (hSound : bitmap.Sound) (hLonger : bitmap.len ≤ newLen)
    (hResize : bitmap.resize newLen true = some changed) :
    changed.Sound ∧ changed.len = newLen ∧ ∀ k, changed.bit k = bitmap.bit k := by
  have hPadded := Linked.padded hSound
  have hAbove : ∀ k, newLen ≤ k → bitmap.bit k = true :=
    fun k hk => hPadded.above k (le_trans hLonger hk)
  have hRoom : newLen ≤ bitmap.room := by
    rcases U64GroupedBitmap.resize_spec newLen hPadded hAbove with ⟨leaf, hLeaf, hLen, _, _⟩
    have hRest := hResize
    rw [resize, hLeaf, bind_eq_bind, bind_some] at hRest
    rcases bind_eq_some_iff.mp hRest with ⟨parents, hParents, hIf⟩
    by_cases hRoot : (parents.getLast?.getD leaf).len ≤ 64
    · exact resizeParents_room bitmap.parents hSound hLonger hParents hLen hRoot
    · rw [if_neg hRoot] at hIf
      cases hIf
  rcases resize_spec newLen hSound hRoom hAbove with ⟨_, hResult, hAfter, hLen, _, hBit⟩
  rw [hResize] at hResult
  cases hResult
  exact ⟨hAfter, hLen, hBit⟩

end BtreeBitmap

-- The Tracker Seen From Outside

namespace RegionTracker

/- A region is marked full for an order. -/
def full (self : RegionTracker) (order region : Nat) : Bool :=
  (self.orderTrackers[order]?.map (fun bitmap => bitmap.bit region)).getD true

/- Bitmaps for so many regions. -/
def Sound (self : RegionTracker) (regions : Nat) : Prop :=
  ∀ {order : Nat} {bitmap : BtreeBitmap}, self.orderTrackers[order]? = some bitmap →
      bitmap.Sound ∧ bitmap.len = regions

variable {self after : RegionTracker} {regions region order : Nat}

theorem full_eq {bitmap : BtreeBitmap} (hAt : self.orderTrackers[order]? = some bitmap) :
    self.full order region = bitmap.bit region := by
  rw [full, hAt]
  rfl

theorem new_sound {orders : Nat} (hLe : regions ≤ maxRegions) :
    (new regions orders).Sound regions := by
  intro order bitmap hAt
  have hIs := eq_of_mem_replicate (mem_of_getElem? hAt)
  subst hIs
  rcases BtreeBitmap.new_sound hLe with ⟨hSound, hLen, _, _⟩
  exact ⟨hSound, hLen⟩

variable (hSound : self.Sound regions)
include hSound

theorem mark_spec {value : Bool} (hMark : mark value region self order = some after) :
    after.Sound regions ∧ ∀ o i, after.full o i = if o = order ∧ i = region then value
        else self.full o i := by
  rcases bind_eq_some_iff.mp hMark with ⟨bitmap, hAt, hRest⟩
  rcases bind_eq_some_iff.mp hRest with ⟨changed, hChange, hSome⟩
  cases hSome
  have hOld := hSound hAt
  have hChanged : changed.Sound ∧ changed.len = bitmap.len ∧ ∀ k, changed.bit k =
        if k = region then value else bitmap.bit k := by
    cases value with
    | true =>
      rw [put, if_pos rfl] at hChange
      rcases BtreeBitmap.set_spec hOld.1 (BtreeBitmap.lt_of_set hChange) with
        ⟨_, hResult, hIs, hLen, _, hBit⟩
      rw [hChange] at hResult
      cases hResult
      exact ⟨hIs, hLen, hBit⟩
    | false =>
      rw [put, if_neg Bool.false_ne_true] at hChange
      rcases BtreeBitmap.clear_spec hOld.1 (BtreeBitmap.lt_of_clear hChange) with
        ⟨_, hResult, hIs, hLen, _, hBit⟩
      rw [hChange] at hResult
      cases hResult
      exact ⟨hIs, hLen, hBit⟩
  rcases List.getElem?_eq_some_iff.mp hAt with ⟨hIndex, _⟩
  have hNew : (self.orderTrackers.set order changed)[order]? = some changed := by
    rw [getElem?_set_self hIndex]
  refine ⟨?_, ?_⟩
  · intro o other hOther
    by_cases ho : o = order
    · subst ho
      rw [hNew] at hOther
      cases hOther
      exact ⟨hChanged.1, hChanged.2.1.trans hOld.2⟩
    · refine @hSound o other ?_
      rwa [getElem?_set_ne (fun h => ho h.symm)] at hOther
  · intro o i
    by_cases ho : o = order
    · subst ho
      rw [full_eq hNew, full_eq hAt, hChanged.2.2]
      simp
    · have hSame : (self.orderTrackers.set order changed)[o]? = self.orderTrackers[o]? :=
        getElem?_set_ne (fun h => ho h.symm)
      rw [full, hSame, if_neg (fun h => ho h.1)]
      rfl

omit hSound in
theorem marks_spec {value : Bool} (orders : List Nat) (hSound : self.Sound regions)
    (hMarks : orders.foldlM (mark value region) self = some after) :
    after.Sound regions ∧ ∀ o i, after.full o i = if o ∈ orders ∧ i = region then value
        else self.full o i := by
  induction orders generalizing self with
  | nil =>
    cases hMarks
    exact ⟨hSound, fun o i => by simp⟩
  | cons order rest ih =>
    rw [foldlM_cons] at hMarks
    rcases bind_eq_some_iff.mp hMarks with ⟨next, hMark, hRest⟩
    rcases mark_spec hSound hMark with ⟨hNext, hOne⟩
    rcases ih hNext hRest with ⟨hAfter, hAll⟩
    refine ⟨hAfter, ?_⟩
    intro o i
    rw [hAll, hOne]
    by_cases hRegion : i = region
    · by_cases hIn : o ∈ rest
      · simp [hRegion, hIn]
      · by_cases ho : o = order
        · simp [hRegion, ho]
        · simp [hIn, ho]
    · simp [hRegion]

theorem markFree_spec (hMark : self.markFree order region = some after) :
    after.Sound regions ∧ ∀ o i, after.full o i = if o ≤ order ∧ i = region then false
        else self.full o i := by
  rcases marks_spec _ hSound hMark with ⟨hAfter, hFull⟩
  refine ⟨hAfter, ?_⟩
  intro o i
  simp only [hFull, mem_range, Nat.lt_succ_iff]

omit hSound in
theorem full_above (hAbove : self.orderTrackers.length ≤ order) :
    self.full order region = true := by
  rw [full, getElem?_eq_none hAbove]
  rfl

theorem markFull_spec (hMark : self.markFull order region = some after) :
    after.Sound regions ∧ ∀ o i, after.full o i = if order ≤ o ∧ i = region then true
        else self.full o i := by
  by_cases hOrder : order < self.orderTrackers.length
  · rw [markFull, if_pos hOrder] at hMark
    rcases marks_spec _ hSound hMark with ⟨hAfter, hFull⟩
    refine ⟨hAfter, ?_⟩
    intro o i
    rw [hFull]
    by_cases ho : o < self.orderTrackers.length
    · have hMem : o ∈ List.range' order (self.orderTrackers.length - order) ↔ order ≤ o := by
        rw [mem_range'_1]
        omega
      simp only [hMem]
    · rw [full_above (Nat.le_of_not_lt ho)]
      simp
  · rw [markFull, if_neg hOrder] at hMark
    cases hMark

omit hSound in
theorem resizeOrders_spec
    {newCapacity : Nat} (trackers : List BtreeBitmap) {resized : List BtreeBitmap}
    (hSound : ∀ bitmap ∈ trackers, bitmap.Sound ∧ bitmap.len ≤ newCapacity)
    (hResize : resizeOrders newCapacity trackers = some resized) :
    ∀ order : Nat, (∀ bitmap, resized[order]? = some bitmap →
        bitmap.Sound ∧ bitmap.len = newCapacity) ∧
      ∀ region, (resized[order]?.map (fun bitmap => bitmap.bit region)) =
        trackers[order]?.map (fun bitmap => bitmap.bit region) := by
  induction trackers generalizing resized with
  | nil =>
    cases hResize
    intro order
    exact ⟨fun bitmap hAt => by simp at hAt, fun region => rfl⟩
  | cons bitmap rest ih =>
    rcases bind_eq_some_iff.mp hResize with ⟨_, hChange, hRest⟩
    rcases bind_eq_some_iff.mp hRest with ⟨_, hOthers, hSome⟩
    cases hSome
    have hFirst := hSound bitmap (mem_cons_self ..)
    rcases BtreeBitmap.lengthened hFirst.1 hFirst.2 hChange with ⟨hIs, hLen, hBit⟩
    intro order
    cases order with
    | zero =>
      refine ⟨?_, ?_⟩
      · intro other hAt
        cases hAt
        exact ⟨hIs, hLen⟩
      · intro region
        simp [hBit]
    | succ order =>
      simpa using ih (fun other hIn => hSound other (mem_cons_of_mem _ hIn)) hOthers order

theorem resize_spec {newCapacity : Nat} (hLe : regions ≤ newCapacity)
    (hResize : self.resize newCapacity = some after) :
    after.Sound newCapacity ∧ ∀ o i, after.full o i = self.full o i := by
  rcases bind_eq_some_iff.mp hResize with ⟨_, hOrders, hSome⟩
  cases hSome
  have hSpec := resizeOrders_spec self.orderTrackers (by
    intro bitmap hIn
    rcases getElem?_of_mem hIn with ⟨o, hAt⟩
    rcases hSound hAt with ⟨hIs, hLen⟩
    exact ⟨hIs, by omega⟩) hOrders
  refine ⟨fun hAt => (hSpec _).1 _ hAt, ?_⟩
  intro o i
  rw [full, full]
  exact congrArg (·.getD true) ((hSpec o).2 i)

theorem reach_spec (hReach : self.reach region = some after) :
    ∃ n, after.Sound n ∧ ∀ o i, after.full o i = self.full o i := by
  rcases bind_eq_some_iff.mp hReach with ⟨len, hLen, hIf⟩
  by_cases hLt : region < len
  · rw [if_pos hLt] at hIf
    cases hIf
    exact ⟨regions, hSound, fun _ _ => rfl⟩
  · rw [if_neg hLt] at hIf
    rcases map_eq_some_iff.mp hLen with ⟨_, hAt, hEq⟩
    have hOld := (hSound hAt).2
    exact ⟨region + 1, resize_spec hSound (by omega) hIf⟩

theorem findFree_spec {found : Option Nat} (hFind : self.findFree order = some found) :
    (found = none → ∀ i, self.full order i = true) ∧ ∀ region, found = some region →
        self.full order region = false := by
  rcases bind_eq_some_iff.mp hFind with ⟨_, hAt, hFirst⟩
  rcases BtreeBitmap.findFirstUnset_spec (hSound hAt).1 with ⟨hNone, hAll⟩ | ⟨k, hSome, hUnset, _⟩
  · rw [hNone] at hFirst
    cases hFirst
    refine ⟨fun _ i => ?_, nofun⟩
    rw [full_eq hAt, hAll]
  · rw [hSome] at hFirst
    cases hFirst
    refine ⟨nofun, ?_⟩
    rintro _ hRegion
    cases hRegion
    rw [full_eq hAt, hUnset]

end RegionTracker

-- The Highest Free Order

namespace BuddyAllocator

variable {self : BuddyAllocator} {capacity : Nat}

theorem bit_of_no_unset {bitmap : BtreeBitmap} (hNone : bitmap.hasUnset = false) (i : Nat) :
    bitmap.bit i = true := by
  have hWords := List.any_eq_false.mp hNone
  have hMod : i % 64 < 64 := Nat.mod_lt i (by decide)
  have hWord : bitmap.leaf.word (i / 64) = BitVec.allOnes 64 := by
    rw [U64GroupedBitmap.word]
    cases hAt : bitmap.leaf.data[i / 64]? with
    | none => rfl
    | some group => simpa using hWords group (mem_of_getElem? hAt)
  rw [BtreeBitmap.bit, U64GroupedBitmap.bit, hWord, BitVec.getLsbD_allOnes, decide_eq_true hMod]

theorem highestFreeBelow_spec
    (orders : Nat) {highest : Nat} (hHighest : self.highestFreeBelow orders = some (some highest)) :
    ∀ {o j}, o < orders → (o, j) ∈ self.blocks → o ≤ highest := by
  induction orders with
  | zero => cases hHighest
  | succ order ih =>
    rcases bind_eq_some_iff.mp hHighest with ⟨bitmap, hAt, hRest⟩
    intro o j ho hIn
    cases hUnset : bitmap.hasUnset with
    | true =>
      rw [hUnset, if_pos rfl] at hRest
      cases hRest
      omega
    | false =>
      rw [hUnset, if_neg Bool.false_ne_true] at hRest
      refine ih hRest ?_ hIn
      by_contra hSame
      have hEq : o = order := by omega
      subst hEq
      rcases hIn with ⟨other, hOther, hBit⟩
      rw [hAt] at hOther
      cases hOther
      rw [bit_of_no_unset hUnset] at hBit
      cases hBit

theorem highestFreeOrder_spec {highest order index : Nat} (hConsistent : self.Consistent capacity)
    (hHighest : self.highestFreeOrder = some (some highest)) (hFree : self.WhollyFree order index) :
    order ≤ highest := by
  have hOrder := (LiveAllocator.whollyFree_bounds hConsistent hFree).1
  rcases hConsistent.sized.buddies.exists_block hOrder hFree with ⟨d, hLe, hIn⟩
  have hHigh := highestFreeBelow_spec _ hHighest (Nat.lt_succ_of_le hLe) hIn
  omega

theorem page_of_part
    {p order k index : Nat} (hLe : order ≤ k) (hp : p / 2 ^ order = index * 2 ^ (k - order)) :
    p / 2 ^ k = index := by
  have hDiv := div_pow_add p order (k - order)
  rw [Nat.add_sub_cancel' hLe] at hDiv
  rw [hDiv, hp, first_page]

theorem whollyFree_of_block
    {order k index : Nat} (hIn : (k, index) ∈ self.blocks) (hLe : order ≤ k) :
    self.WhollyFree order (index * 2 ^ (k - order)) :=
  fun _ hp => Buddies.covers_of_mem hIn (page_of_part hLe hp)

end BuddyAllocator

-- Layouts

namespace DatabaseLayout

/- Regions with pages, the last one maybe a shorter one. -/
structure Valid (layout : DatabaseLayout) : Prop where
  pageSize : 0 < layout.fullRegionLayout.pageSize
  fullPages : 0 < layout.fullRegionLayout.numPages
  capacity : layout.fullRegionLayout.numPages ≤ maxPageIndex + 1
  trailing : ∀ {region}, layout.trailingPartialRegion = some region →
      0 < region.numPages ∧ region.numPages ≤ layout.fullRegionLayout.numPages ∧
        region.pageSize = layout.fullRegionLayout.pageSize
  regions : 0 < layout.numRegions

/- The pages of all regions. -/
def pages (layout : DatabaseLayout) : Nat :=
  layout.numFullRegions * layout.fullRegionLayout.numPages +
    (layout.trailingPartialRegion.map RegionLayout.numPages).getD 0

/- A layout of at least as many pages. -/
structure Extends (before after : DatabaseLayout) : Prop where
  valid : after.Valid
  full : after.fullRegionLayout = before.fullRegionLayout
  regions : before.numRegions ≤ after.numRegions
  last : before.numRegions = after.numRegions →
    before.lastRegion.numPages ≤ after.lastRegion.numPages

variable {layout after : DatabaseLayout}

theorem usableBytes_eq (hValid : layout.Valid) :
    layout.usableBytes = layout.fullRegionLayout.pageSize * layout.pages := by
  rw [usableBytes, pages, Nat.mul_add, RegionLayout.usableBytes, Nat.mul_left_comm]
  congr 1
  cases hTrailing : layout.trailingPartialRegion with
  | none => rfl
  | some region =>
    have hSize := (hValid.trailing hTrailing).2.2
    change region.pageSize * region.numPages = layout.fullRegionLayout.pageSize * region.numPages
    rw [hSize]

theorem regionLayout_eq {i : Nat} (hLt : i < layout.numRegions) :
    layout.regionLayout i = some (if i + 1 < layout.numRegions then layout.fullRegionLayout
        else layout.lastRegion) := by
  rw [regionLayout, if_pos hLt]
  unfold numRegions at hLt ⊢
  unfold lastRegion
  cases hTrailing : layout.trailingPartialRegion with
  | none =>
    simp only [hTrailing, isSome_none, Bool.false_eq_true, if_false] at hLt
    rw [if_neg (by omega)]
    simp
  | some =>
    simp only [hTrailing, isSome_some, if_true] at hLt ⊢
    by_cases hLast : i = layout.numFullRegions
    · rw [if_pos hLast, if_neg (by omega)]
      rfl
    · rw [if_neg hLast, if_pos (by omega)]

theorem Valid.last_bounds (hValid : layout.Valid) :
    0 < layout.lastRegion.numPages ∧ layout.lastRegion.numPages ≤
        layout.fullRegionLayout.numPages := by
  unfold lastRegion
  cases hTrailing : layout.trailingPartialRegion with
  | none => exact ⟨hValid.fullPages, Nat.le_refl _⟩
  | some =>
    have hBounds := hValid.trailing hTrailing
    exact ⟨hBounds.1, hBounds.2.1⟩

/- The layout for a number of pages. -/
theorem calculate_spec
    {full : RegionLayout} {m : Nat} (hPages : 0 < full.numPages) (hSize : 0 < full.pageSize) :
    calculate (full.pageSize * m) full.numPages full.headerPages full.pageSize =
      some (if m ≤ full.numPages then ⟨full, 0, some ⟨m, full.headerPages, full.pageSize⟩⟩
        else ⟨full, m / full.numPages, if 0 < m % full.numPages then
            some ⟨m % full.numPages, full.headerPages, full.pageSize⟩
          else none⟩) := by
  have hRegion : ∀ {k}, k ≤ full.numPages → RegionLayout.calculate (full.pageSize * k)
        full.numPages full.headerPages full.pageSize =
        some ⟨k, full.headerPages, full.pageSize⟩ := by
    intro k hk
    rw [RegionLayout.calculate, if_pos (by
      rw [Nat.mul_comm]
      exact Nat.mul_le_mul_right _ hk), roundUpToMultipleOf, if_pos (Nat.mul_mod_right ..),
      Nat.mul_div_cancel_left _ hSize]
  rw [calculate, RegionLayout.new, if_pos hPages, bind_eq_bind, bind_some]
  change (if full.pageSize * m ≤ full.pageSize * full.numPages then _ else _) = _
  by_cases hSmall : m ≤ full.numPages
  · rw [if_pos (Nat.mul_le_mul_left _ hSmall), if_pos hSmall, hRegion hSmall]
    rfl
  · have hNot : ¬ full.pageSize * m ≤ full.pageSize * full.numPages :=
      fun hLe => hSmall (Nat.le_of_mul_le_mul_left hLe hSize)
    rw [if_neg hNot, if_neg hSmall]
    have hFull : full.pageSize * m / (full.pageSize * full.numPages) = m / full.numPages :=
      Nat.mul_div_mul_left _ _ hSize
    have hRest : full.pageSize * m - m / full.numPages * (full.pageSize * full.numPages) =
          full.pageSize * (m % full.numPages) := by
      rw [Nat.mod_eq_sub_mul_div, Nat.mul_sub, Nat.mul_left_comm (m / full.numPages),
        Nat.mul_comm (m / full.numPages)]
    simp only [RegionLayout.usableBytes, hFull, hRest]
    by_cases hSome : 0 < m % full.numPages
    · rw [if_pos (Nat.mul_pos hSize hSome), if_pos hSome,
        hRegion (Nat.le_of_lt (Nat.mod_lt _ hPages))]
      rfl
    · have hZero : m % full.numPages = 0 := by omega
      rw [hZero, if_neg (by simp), if_neg (by simp)]

theorem Valid.pages_eq (hValid : layout.Valid) :
    layout.pages = (layout.numRegions - 1) * layout.fullRegionLayout.numPages +
        layout.lastRegion.numPages := by
  have hSome := hValid.regions
  unfold pages lastRegion
  unfold numRegions at hSome ⊢
  cases hTrailing : layout.trailingPartialRegion with
  | none =>
    simp only [hTrailing, isSome_none, Bool.false_eq_true, if_false] at hSome ⊢
    change _ + 0 = _ + layout.fullRegionLayout.numPages
    rw [Nat.add_zero, ← Nat.succ_mul, Nat.succ_eq_add_one, Nat.sub_add_cancel hSome]
  | some => simp

theorem extends_of_le_pages (hValid : layout.Valid) (hAfter : after.Valid)
    (hFull : after.fullRegionLayout = layout.fullRegionLayout)
    (hMore : layout.pages ≤ after.pages) :
    layout.Extends after := by
  have hLast := hValid.last_bounds
  have hAfterLast := hAfter.last_bounds
  have hSome := hValid.regions
  have hAfterSome := hAfter.regions
  rw [hValid.pages_eq, hAfter.pages_eq, hFull] at hMore
  rw [hFull] at hAfterLast
  have hRegions : layout.numRegions ≤ after.numRegions := by
    by_contra hFewer
    have hMul := Nat.mul_le_mul_right layout.fullRegionLayout.numPages
      (show after.numRegions - 1 + 1 ≤ layout.numRegions - 1 by omega)
    rw [Nat.add_mul, Nat.one_mul] at hMul
    omega
  refine ⟨hAfter, hFull, hRegions, ?_⟩
  intro hSame
  rw [hSame] at hMore
  omega

theorem extends_of_pages {m : Nat} (hValid : layout.Valid) (hMore : layout.pages ≤ m)
    (hLayout : calculate (layout.fullRegionLayout.pageSize * m) layout.fullRegionLayout.numPages
      layout.fullRegionLayout.headerPages
      layout.fullRegionLayout.pageSize = some after) :
    layout.Extends after := by
  have hPages := hValid.fullPages
  have hLast := hValid.last_bounds
  have hPos : 0 < m := by
    rw [hValid.pages_eq] at hMore
    omega
  rw [calculate_spec hPages hValid.pageSize] at hLayout
  by_cases hSmall : m ≤ layout.fullRegionLayout.numPages
  · rw [if_pos hSmall] at hLayout
    cases hLayout
    refine extends_of_le_pages hValid ⟨hValid.pageSize, hPages, hValid.capacity, ?_,
        Nat.one_pos⟩ rfl ?_
    · intro region hIs
      cases hIs
      exact ⟨hPos, hSmall, rfl⟩
    · simpa [pages] using hMore
  · rw [if_neg hSmall] at hLayout
    cases hLayout
    have hDiv := Nat.div_add_mod m layout.fullRegionLayout.numPages
    have hMod := Nat.mod_lt m hPages
    have hRegions : 0 < m / layout.fullRegionLayout.numPages := Nat.div_pos (by omega) hPages
    refine extends_of_le_pages hValid ⟨hValid.pageSize, hPages, hValid.capacity, ?_, ?_⟩ rfl ?_
    · intro region hIs
      change (if _ then _ else _) = _ at hIs
      by_cases hRest : 0 < m % layout.fullRegionLayout.numPages
      · rw [if_pos hRest] at hIs
        cases hIs
        exact ⟨hRest, Nat.le_of_lt hMod, rfl⟩
      · rw [if_neg hRest] at hIs
        cases hIs
    · unfold numRegions
      change 0 < if _ then _ + 1 else _
      split
      · exact Nat.succ_pos _
      · exact hRegions
    · refine le_trans hMore (Nat.le_of_eq ?_)
      unfold pages
      change m = m / _ * _ + _
      rw [Nat.mul_comm]
      by_cases hRest : 0 < m % layout.fullRegionLayout.numPages
      · rw [if_pos hRest]
        exact hDiv.symm
      · rw [if_neg hRest]
        change m = layout.fullRegionLayout.numPages * (m / layout.fullRegionLayout.numPages) + 0
        omega

/- Growing asks for more pages, in whole pages. -/
theorem grownLayout_extends
    {memory : InMemoryState} {requiredOrder : Nat} (hValid : memory.layout.Valid)
    (hGrown : memory.grownLayout requiredOrder = some after) :
    memory.layout.Extends after := by
  have hMore : ∃ m, memory.layout.pages ≤ m ∧ InMemoryState.nextDesiredSize memory.layout
        requiredOrder = memory.layout.fullRegionLayout.pageSize * m := by
    unfold InMemoryState.nextDesiredSize
    rw [usableBytes_eq hValid]
    generalize memory.layout.pages = pages
    by_cases hFull : 0 < memory.layout.numFullRegions
    · rw [if_pos hFull]
      cases hTrailing : memory.layout.trailingPartialRegion with
      | none =>
        refine ⟨pages + memory.layout.fullRegionLayout.numPages, Nat.le_add_right _ _, ?_⟩
        rw [Nat.mul_add, Nat.mul_comm memory.layout.fullRegionLayout.numPages]
      | some trailing =>
        rcases hValid.trailing hTrailing with ⟨_, hLe, hSize⟩
        simp only [RegionLayout.usableBytes, hSize]
        rw [Nat.mul_comm memory.layout.fullRegionLayout.numPages, ← Nat.mul_sub]
        split
        · exact ⟨pages + (memory.layout.fullRegionLayout.numPages -
              trailing.numPages), Nat.le_add_right _ _,
            (Nat.mul_add ..).symm⟩
        · refine ⟨pages + 2 * memory.layout.fullRegionLayout.numPages -
              trailing.numPages, by omega, ?_⟩
          rw [Nat.mul_sub, Nat.mul_add, Nat.mul_left_comm 2]
    · rw [if_neg hFull]
      refine ⟨max (pages * 2) (pages + 2 ^ requiredOrder * 2),
        le_trans (Nat.le_add_right _ _) (le_max_right _ _), ?_⟩
      rw [← Nat.mul_max_mul_left, Nat.mul_add, Nat.mul_assoc, Nat.mul_comm (2 ^ requiredOrder),
        Nat.mul_assoc]
  rcases hMore with ⟨m, hLe, hDesired⟩
  rw [InMemoryState.grownLayout, hDesired] at hGrown
  exact extends_of_pages hValid hLe hGrown

/- Taking pages off the last region, maybe all of them. -/
theorem reduceLastRegion_spec
    {count : Nat} (hValid : layout.Valid) (hLe : count ≤ layout.lastRegion.numPages)
    (hKeep : count = layout.lastRegion.numPages → 1 < layout.numRegions)
    (hReduce : layout.reduceLastRegion count = some after) :
    after.Valid ∧ after.fullRegionLayout = layout.fullRegionLayout ∧
      ((count < layout.lastRegion.numPages ∧ after.numRegions = layout.numRegions ∧
          after.lastRegion.numPages = layout.lastRegion.numPages - count) ∨
        (count = layout.lastRegion.numPages ∧ after.numRegions + 1 = layout.numRegions ∧
          after.lastRegion.numPages = layout.fullRegionLayout.numPages)) := by
  have hRegions := hValid.regions
  have hPages := hValid.fullPages
  rw [reduceLastRegion] at hReduce
  unfold lastRegion numRegions at *
  cases hTrailing : layout.trailingPartialRegion with
  | some trailing =>
    rcases hValid.trailing hTrailing with ⟨hPos, hTop, hSize⟩
    simp only [hTrailing, getD_some, isSome_some, if_true] at *
    rw [if_pos hLe] at hReduce
    cases hReduce
    by_cases hAll : count = trailing.numPages
    · have hMany := hKeep hAll
      rw [if_pos (by omega)]
      refine ⟨⟨hValid.pageSize, hPages, hValid.capacity, nofun, ?_⟩, rfl, Or.inr ⟨hAll, rfl, rfl⟩⟩
      change 0 < layout.numFullRegions
      omega
    · rw [if_neg (by omega)]
      refine ⟨⟨hValid.pageSize, hPages, hValid.capacity, ?_, Nat.succ_pos _⟩, rfl,
        Or.inl ⟨by omega, rfl, rfl⟩⟩
      intro region hIs
      cases hIs
      refine ⟨?_, ?_, hSize⟩
      · change 0 < trailing.numPages - count
        omega
      · change trailing.numPages - count ≤ layout.fullRegionLayout.numPages
        omega
  | none =>
    simp only [hTrailing, getD_none, isSome_none, Bool.false_eq_true, if_false] at *
    rw [if_neg (by omega)] at hReduce
    by_cases hLess : count < layout.fullRegionLayout.numPages
    · rw [if_pos hLess, RegionLayout.new, if_pos (by omega)] at hReduce
      cases hReduce
      refine ⟨⟨hValid.pageSize, hPages, hValid.capacity,
        ?_, Nat.succ_pos _⟩, rfl, Or.inl ⟨hLess, ?_, rfl⟩⟩
      · intro region hIs
        cases hIs
        refine ⟨?_, ?_, rfl⟩
        · change 0 < layout.fullRegionLayout.numPages - count
          omega
        · change layout.fullRegionLayout.numPages - count ≤ layout.fullRegionLayout.numPages
          omega
      · exact Nat.sub_add_cancel hRegions
    · have hAll : count = layout.fullRegionLayout.numPages := by omega
      have hMany := hKeep hAll
      rw [if_neg hLess] at hReduce
      cases hReduce
      refine ⟨⟨hValid.pageSize, hPages, hValid.capacity, nofun, ?_⟩, rfl, Or.inr ⟨hAll, ?_, rfl⟩⟩
      · change 0 < layout.numFullRegions - 1
        omega
      · exact Nat.sub_add_cancel hRegions

end DatabaseLayout

end Redbx

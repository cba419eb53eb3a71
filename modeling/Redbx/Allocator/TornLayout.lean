import Redbx.Allocator.Layouts
import Redbx.Core.Bytes

/-
  Opening a file whose header was written in part.

  The layout in the header is five counters of four bytes, and no checksum covers them. A crash
  while the header is written leaves any mixture of their old and new bytes.

  Key theorems include:
    * `LayoutFields.opens_iff`, `LayoutFields.torn_layout_opens_iff`
-/

namespace Redbx

open Bytes List Option

-- The Header

/- The fields of the header that give the layout. -/
structure LayoutFields where
  pageSize : Nat
  regionHeaderPages : Nat
  regionMaxDataPages : Nat
  fullRegions : Nat
  trailingPartialRegionPages : Nat

namespace LayoutFields

def layout (self : LayoutFields) : Option DatabaseLayout := do
  let full ← RegionLayout.new self.regionMaxDataPages self.regionHeaderPages self.pageSize
  let trailing := if 0 < self.trailingPartialRegionPages then
      some ⟨self.trailingPartialRegionPages, self.regionHeaderPages, self.pageSize⟩
    else none
  some ⟨full, self.fullRegions, trailing⟩

/- `set_layout`, which panics on regions of another kind. -/
def setLayout (self : LayoutFields) (layout : DatabaseLayout) : Option LayoutFields := do
  let current ← self.layout
  if current.fullRegionLayout = layout.fullRegionLayout ∧
      ∀ trailing ∈ layout.trailingPartialRegion,
        trailing.headerPages = self.regionHeaderPages ∧ trailing.pageSize = self.pageSize then
    some { self with
      fullRegions := layout.numFullRegions
      trailingPartialRegionPages :=
        (layout.trailingPartialRegion.map RegionLayout.numPages).getD 0 }
  else
    none

def toBytes (self : LayoutFields) : Bytes :=
  toLe 4 self.pageSize ++ (toLe 4 self.regionHeaderPages ++ (toLe 4 self.regionMaxDataPages ++
    (toLe 4 self.fullRegions ++ toLe 4 self.trailingPartialRegionPages)))

def fromBytes (data : Bytes) : LayoutFields where
  pageSize := ofLe (data.slice 0 4)
  regionHeaderPages := ofLe (data.slice 4 4)
  regionMaxDataPages := ofLe (data.slice 8 4)
  fullRegions := ofLe (data.slice 12 4)
  trailingPartialRegionPages := ofLe (data.slice 16 4)

/-
  The part of `TransactionalMemory::new` that is about the layout. It panics when an assertion
  fails.
-/
def openLayout (pageSize : Nat) (data : Bytes) (fileLen : Nat) (recoveryRequired : Bool) :
    Option DatabaseLayout := do
  let header := fromBytes data
  let layout ← header.layout
  let len ← layout.len
  if header.pageSize ≠ pageSize ∨ fileLen < len then
    none
  else if recoveryRequired ∨ len ≠ fileLen then
    let again ← DatabaseLayout.recalculate fileLen layout.fullRegionLayout.headerPages
      layout.fullRegionLayout.numPages pageSize
    let header ← header.setLayout again
    let layout ← header.layout
    if (← layout.len) = fileLen then some layout else none
  else
    some layout

/- The fields of a layout whose regions have no headers. -/
def ofLayout (layout : DatabaseLayout) : LayoutFields where
  pageSize := layout.fullRegionLayout.pageSize
  regionHeaderPages := layout.fullRegionLayout.headerPages
  regionMaxDataPages := layout.fullRegionLayout.numPages
  fullRegions := layout.numFullRegions
  trailingPartialRegionPages := (layout.trailingPartialRegion.map RegionLayout.numPages).getD 0

end LayoutFields

-- Mixtures Of Bytes

/- Each byte is the old or the new one. -/
inductive Mixed : Bytes → Bytes → Bytes → Prop
  | nil : Mixed [] [] []
  | old {x y : UInt8} {a b m : Bytes} (h : Mixed a b m) : Mixed (x :: a) (y :: b) (x :: m)
  | new {x y : UInt8} {a b m : Bytes} (h : Mixed a b m) : Mixed (x :: a) (y :: b) (y :: m)

def larger (x y : UInt8) : UInt8 :=
  if x.toNat ≤ y.toNat then y else x

def smaller (x y : UInt8) : UInt8 :=
  if x.toNat ≤ y.toNat then x else y

/- The largest and the smallest counter among the mixtures. -/
def highest (x y : Nat) : Nat := ofLe (List.zipWith larger (toLe 4 x) (toLe 4 y))

def lowest (x y : Nat) : Nat := ofLe (List.zipWith smaller (toLe 4 x) (toLe 4 y))

namespace Mixed

variable {a b m : Bytes}

theorem bounds (h : Mixed a b m) :
    ofLe (List.zipWith smaller a b) ≤ ofLe m ∧ ofLe m ≤ ofLe (List.zipWith larger a b) := by
  have hByte : ∀ x y : UInt8, (smaller x y).toNat ≤ x.toNat ∧ (smaller x y).toNat ≤ y.toNat ∧
      x.toNat ≤ (larger x y).toNat ∧ y.toNat ≤ (larger x y).toNat := by
    intro x y
    unfold smaller larger
    split <;> omega
  induction h with
  | nil => exact ⟨Nat.le_refl _, Nat.le_refl _⟩
  | @old x y a b m _ ih | @new x y a b m _ ih =>
    have hBounds := hByte x y
    simp only [zipWith_cons_cons, ofLe]
    omega

/- A choice between two bytes makes a mixture. -/
theorem zipWith (pick : UInt8 → UInt8 → UInt8) (hPick : ∀ x y, pick x y = x ∨ pick x y = y)
    (hLength : a.length = b.length) :
    Mixed a b (List.zipWith pick a b) := by
  induction a generalizing b with
  | nil =>
    cases b with
    | nil => exact .nil
    | cons y b => cases hLength
  | cons x a ih =>
    cases b with
    | nil => cases hLength
    | cons y b =>
      have hRest := ih (Nat.succ.inj hLength)
      rw [zipWith_cons_cons]
      rcases hPick x y with hOld | hNew
      · rw [hOld]
        exact .old hRest
      · rw [hNew]
        exact .new hRest

theorem self_eq (h : Mixed a a m) : m = a := by
  induction a generalizing m with
  | nil =>
    cases h
    rfl
  | cons x a ih =>
    cases h with
    | old h => rw [ih h]
    | new h => rw [ih h]

theorem self (a : Bytes) : Mixed a a a := by
  induction a with
  | nil => exact .nil
  | cons x a ih => exact .old ih

theorem length_eq (h : Mixed a b m) : m.length = a.length := by
  induction h with
  | nil => rfl
  | old _ ih | new _ ih => rw [length_cons, length_cons, ih]

theorem append {a' b' m' : Bytes} (h : Mixed a b m) (h' : Mixed a' b' m') :
    Mixed (a ++ a') (b ++ b') (m ++ m') := by
  induction h with
  | nil => exact h'
  | old _ ih => exact .old ih
  | new _ ih => exact .new ih

theorem of_append
    {a' b' : Bytes} (hLength : a.length = b.length) (h : Mixed (a ++ a') (b ++ b') m) :
    ∃ m1 m2, m = m1 ++ m2 ∧ Mixed a b m1 ∧ Mixed a' b' m2 := by
  induction a generalizing b m with
  | nil =>
    cases b with
    | nil => exact ⟨[], m, rfl, .nil, h⟩
    | cons y b => cases hLength
  | cons x a ih =>
    cases b with
    | nil => cases hLength
    | cons y b =>
      cases h with
      | old h =>
        rcases ih (Nat.succ.inj hLength) h with ⟨m1, m2, rfl, h1, h2⟩
        exact ⟨x :: m1, m2, rfl, .old h1, h2⟩
      | new h =>
        rcases ih (Nat.succ.inj hLength) h with ⟨m1, m2, rfl, h1, h2⟩
        exact ⟨y :: m1, m2, rfl, .new h1, h2⟩

end Mixed

-- Opening

namespace LayoutFields

open DatabaseLayout

variable {old new file : DatabaseLayout} {capacity pageSize : Nat}

/- Reading five counters, the first three as they were. -/
theorem fromBytes_parts
    {full trailing : Bytes} (hPage : pageSize < 256 ^ 4) (hCapacity : capacity < 256 ^ 4)
    (hFull : full.length = 4) (hTrailing : trailing.length = 4) :
    fromBytes (toLe 4 pageSize ++ (toLe 4 0 ++ (toLe 4 capacity ++ (full ++ trailing)))) =
      ⟨pageSize, 0, capacity, ofLe full, ofLe trailing⟩ := by
  simp [fromBytes, slice, drop_append, hFull, hTrailing, ofLe_toLe hPage, ofLe_toLe hCapacity,
    drop_eq_nil_of_le, take_of_length_le, show ofLe (toLe 4 0) = 0 from rfl]

theorem layout_of_fields (pageSize full trailing : Nat) (hPages : 0 < capacity) :
    ∃ layout, LayoutFields.layout ⟨pageSize, 0, capacity, full, trailing⟩ = some layout ∧
      layout.fullRegionLayout = ⟨capacity, 0, pageSize⟩ ∧
      layout.len = if full = 0 ∧ trailing = 0 then none
        else some (pageSize * (1 + (full * capacity + trailing))) := by
  refine ⟨_, by rw [layout, RegionLayout.new, if_pos hPages]; rfl, rfl, ?_⟩
  by_cases hTrailing : 0 < trailing
  · simp only [len, numRegions, regionBaseAddress, regionLayout, RegionLayout.len,
      RegionLayout.usableBytes, if_pos hTrailing, isSome_some, if_true,
      Nat.add_sub_cancel, Nat.lt_succ_self, bind_eq_bind, bind_some,
      if_neg (show ¬ (full = 0 ∧ trailing = 0) by omega)]
    congr 1
    ring
  · rcases (show trailing = 0 by omega) with rfl
    cases full with
    | zero => simp [len, numRegions, regionBaseAddress]
    | succ full =>
      simp only [len, numRegions, regionBaseAddress, regionLayout, RegionLayout.len,
        RegionLayout.usableBytes, Nat.lt_irrefl, isSome_none, Bool.false_eq_true,
        if_false, Nat.add_sub_cancel, Nat.lt_succ_self, bind_eq_bind, bind_some,
        Nat.succ_ne_zero, false_and, if_true, if_neg (show full ≠ full + 1 by omega)]
      congr 1
      ring

/- The header takes up a layout and gives it back. -/
theorem layout_setLayout {again : DatabaseLayout} (full trailing : Nat) (hPages : 0 < capacity)
    (hPlain : again.Plain capacity pageSize) :
    ∃ header, setLayout ⟨pageSize, 0, capacity, full, trailing⟩ again = some header ∧
      header.layout = some again := by
  rcases layout_of_fields pageSize full trailing hPages with ⟨_, hCurrent, hFull, _⟩
  refine ⟨⟨pageSize, 0, capacity, again.numFullRegions,
    (again.trailingPartialRegion.map RegionLayout.numPages).getD 0⟩, ?_, ?_⟩
  · rw [setLayout, hCurrent, bind_eq_bind, bind_some, if_pos]
    refine ⟨hFull.trans hPlain.full.symm, fun region hIs => ⟨hPlain.trailing hIs, ?_⟩⟩
    rw [(hPlain.valid.trailing hIs).2.2, hPlain.full]
  · rw [layout, RegionLayout.new, if_pos hPages]
    rcases again with ⟨_, _, last⟩
    cases hPlain.full
    cases last with
    | none => rfl
    | some region =>
      have hBounds := hPlain.valid.trailing rfl
      have hHeader := hPlain.trailing rfl
      rcases region with ⟨numPages, _, _⟩
      cases hBounds.2.2
      cases hHeader
      simp [show 0 < numPages from hBounds.1]

/-
  Whatever the two counters are, the file is opened with the layout of its length exactly when they
  give a layout with regions that is not longer than the file.
-/
theorem opens_iff {full trailing : Nat} {data : Bytes} (hBytes : capacity * pageSize ≤ 2 ^ 32)
    (hFile : file.Plain capacity pageSize)
    (hData : fromBytes data = ⟨pageSize, 0, capacity, full, trailing⟩) :
    (∃ layout, openLayout pageSize data (pageSize * (1 + file.pages)) true = some layout ∧
        layout.len = some (pageSize * (1 + file.pages))) ↔
      full * capacity + trailing ≤ file.pages ∧ ¬ (full = 0 ∧ trailing = 0) := by
  have hPages : 0 < capacity := by simpa [hFile.full] using hFile.valid.fullPages
  have hPage : 0 < pageSize := by simpa [hFile.full] using hFile.valid.pageSize
  rcases layout_of_fields pageSize full trailing hPages with ⟨_, hCurrent, hFull, hLen⟩
  rw [openLayout, hData]
  simp only [hCurrent, bind_eq_bind, bind_some, hFull]
  by_cases hZero : full = 0 ∧ trailing = 0
  · rw [hLen, if_pos hZero]
    simp [hZero]
  · rw [hLen, if_neg hZero, bind_some]
    by_cases hLonger : file.pages < full * capacity + trailing
    · have hLt : pageSize * (1 + file.pages) < pageSize * (1 + (full * capacity + trailing)) :=
        Nat.mul_lt_mul_of_pos_left (by omega) hPage
      rw [if_pos (Or.inr hLt)]
      simp only [reduceCtorEq, false_and, exists_false, false_iff]
      omega
    · have hNot : ¬ pageSize * (1 + file.pages) < pageSize * (1 + (full * capacity + trailing)) :=
        Nat.not_lt.mpr (Nat.mul_le_mul_left _ (by omega))
      rw [if_neg (by simpa using hNot), if_pos (Or.inl trivial)]
      rcases recalculate_pages hBytes hFile with ⟨again, hAgain, hRegions, hSame, hLast, hPlain⟩
      rcases layout_setLayout full trailing hPages hPlain with ⟨_, hSet, hHeader⟩
      have hCount : again.pages = file.pages := by
        rw [hPlain.valid.pages_eq, hFile.valid.pages_eq, hRegions, hSame, hLast]
      have hAgainLen := len_eq hPlain
      rw [hCount] at hAgainLen
      simp only [hAgain, hSet, hHeader, hAgainLen, bind_some, if_true]
      refine ⟨fun _ => ⟨by omega, hZero⟩, fun _ => ⟨again, rfl, hAgainLen⟩⟩

-- One Step

/- A growth or a shrink of the file. -/
inductive Step (old new : DatabaseLayout) : Prop
  | grown {a : Allocators} {r : Nat} (hLayout : InMemoryState.grownLayout ⟨old, a⟩ r = some new)
      (hRegions : new.numRegions ≤ maxRegions)
  | shrunk {trailingFree : Nat} {force : Bool} (hFree : trailingFree ≤ old.lastRegion.numPages)
      (hLayout : old.shrunk trailingFree force = some new)

theorem Step.reachable (hReach : Reachable capacity pageSize old) (hStep : Step old new) :
    Reachable capacity pageSize new := by
  cases hStep with
  | grown hLayout hRegions => exact .grown hReach hLayout hRegions
  | shrunk hFree hLayout => exact .shrunk hReach hFree hLayout

/- The counters of a mixture, each within its two bounds. -/
theorem counters_mixed {data : Bytes} (hPage : pageSize < 256 ^ 4) (hCapacity : capacity < 256 ^ 4)
    (hOld : old.Plain capacity pageSize) (hNew : new.Plain capacity pageSize)
    (hMixed : Mixed (ofLayout old).toBytes (ofLayout new).toBytes data) :
    ∃ full trailing, fromBytes data = ⟨pageSize, 0, capacity, full, trailing⟩ ∧
      (lowest old.numFullRegions new.numFullRegions ≤ full ∧
        full ≤ highest old.numFullRegions new.numFullRegions) ∧
      lowest (ofLayout old).trailingPartialRegionPages
          (ofLayout new).trailingPartialRegionPages ≤ trailing ∧
        trailing ≤ highest (ofLayout old).trailingPartialRegionPages
          (ofLayout new).trailingPartialRegionPages := by
  simp only [toBytes, ofLayout, hOld.full, hNew.full] at hMixed
  rcases hMixed.of_append rfl with ⟨m1, _, rfl, h1, hMixed⟩
  rcases hMixed.of_append rfl with ⟨m2, _, rfl, h2, hMixed⟩
  rcases hMixed.of_append rfl with ⟨m3, _, rfl, h3, hMixed⟩
  rcases hMixed.of_append (by simp) with ⟨_, _, rfl, hFull, hTrailing⟩
  rw [h1.self_eq, h2.self_eq, h3.self_eq]
  exact ⟨_, _, fromBytes_parts hPage hCapacity (by simp [hFull.length_eq])
    (by simp [hTrailing.length_eq]), hFull.bounds, hTrailing.bounds⟩

/- One choice for every byte makes a header. -/
theorem counters_picked (pick : UInt8 → UInt8 → UInt8) (hPick : ∀ x y, pick x y = x ∨ pick x y = y)
    (hPage : pageSize < 256 ^ 4) (hCapacity : capacity < 256 ^ 4)
    (hOld : old.Plain capacity pageSize) (hNew : new.Plain capacity pageSize) :
    ∃ data, Mixed (ofLayout old).toBytes (ofLayout new).toBytes data ∧
      fromBytes data = ⟨pageSize, 0, capacity,
        ofLe (List.zipWith pick (toLe 4 old.numFullRegions) (toLe 4 new.numFullRegions)),
        ofLe (List.zipWith pick (toLe 4 (ofLayout old).trailingPartialRegionPages)
          (toLe 4 (ofLayout new).trailingPartialRegionPages))⟩ := by
  refine ⟨_, ?_, fromBytes_parts hPage hCapacity (by simp) (by simp)⟩
  simp only [toBytes, ofLayout, hOld.full, hNew.full]
  exact (Mixed.self _).append ((Mixed.self _).append ((Mixed.self _).append
    ((Mixed.zipWith pick hPick (by simp)).append (Mixed.zipWith pick hPick (by simp)))))

/-
  After a crash in the commit that follows a growth or a shrink the file, which then has the larger
  length, opens with the layout of its length for all mixtures of the old and the new bytes, exactly
  when the largest of them is not longer than the file and none has no region at all.
-/
theorem torn_layout_opens_iff
    {oldLen newLen : Nat} (hPage : 0 < pageSize) (hSize : pageSize < 2 ^ 32)
    (hPages : 0 < capacity) (hCapacity : capacity ≤ maxPageIndex + 1)
    (hBytes : capacity * pageSize ≤ 2 ^ 32) (hReach : Reachable capacity pageSize old)
    (hStep : Step old new) (hOldLen : old.len = some oldLen) (hNewLen : new.len = some newLen) :
    (∀ data, Mixed (ofLayout old).toBytes (ofLayout new).toBytes data →
      ∃ layout, openLayout pageSize data (max oldLen newLen) true = some layout ∧
        layout.len = some (max oldLen newLen)) ↔
      pageSize * (1 + (highest old.numFullRegions new.numFullRegions * capacity +
          highest (ofLayout old).trailingPartialRegionPages
            (ofLayout new).trailingPartialRegionPages)) ≤ max oldLen newLen ∧
        ¬ (lowest old.numFullRegions new.numFullRegions = 0 ∧
          lowest (ofLayout old).trailingPartialRegionPages
            (ofLayout new).trailingPartialRegionPages = 0) := by
  have hOld := hReach.plain hPage hPages hCapacity
  have hNew := (hStep.reachable hReach).plain hPage hPages hCapacity
  have hFits : capacity < 256 ^ 4 := Nat.lt_of_le_of_lt hCapacity (by decide)
  have hFile : ∃ file : DatabaseLayout, file.Plain capacity pageSize ∧
      max oldLen newLen = pageSize * (1 + file.pages) := by
    cases (len_eq hOld).symm.trans hOldLen
    cases (len_eq hNew).symm.trans hNewLen
    rcases le_total old.pages new.pages with hLe | hLe
    · exact ⟨new, hNew, max_eq_right (Nat.mul_le_mul_left _ (Nat.add_le_add_left hLe 1))⟩
    · exact ⟨old, hOld, max_eq_left (Nat.mul_le_mul_left _ (Nat.add_le_add_left hLe 1))⟩
  rcases hFile with ⟨file, hPlain, hLen⟩
  rw [hLen, Nat.mul_le_mul_left_iff hPage, Nat.add_le_add_iff_left]
  constructor
  · intro hOpens
    rcases counters_picked larger (fun x y => by unfold larger; split <;> simp) hSize hFits
      hOld hNew with ⟨data, hMixed, hData⟩
    rcases counters_picked smaller (fun x y => by unfold smaller; split <;> simp) hSize hFits
      hOld hNew with ⟨least, hLeastMixed, hLeast⟩
    exact ⟨((opens_iff hBytes hPlain hData).mp (hOpens _ hMixed)).1,
      ((opens_iff hBytes hPlain hLeast).mp (hOpens _ hLeastMixed)).2⟩
  · rintro ⟨hHighest, hLowest⟩ data hMixed
    rcases counters_mixed hSize hFits hOld hNew hMixed with
      ⟨_, _, hData, ⟨hFullLow, hFullHigh⟩, hLow, hHigh⟩
    refine (opens_iff hBytes hPlain hData).mpr ⟨?_, fun hZero => hLowest ⟨by omega, by omega⟩⟩
    have hMul := Nat.mul_le_mul_right capacity hFullHigh
    omega

/- A file with one region of the usual size. -/
def oneRegion (pages : Nat) : DatabaseLayout := ⟨⟨1048576, 0, 4096⟩, 0, some ⟨pages, 0, 4096⟩⟩

/- A file of 257 pages that grew to twice as many. -/
theorem first_growth_opens :
    Reachable 1048576 4096 (oneRegion 257) ∧ Step (oneRegion 257) (oneRegion 514) ∧
      ∀ data, Mixed (ofLayout (oneRegion 257)).toBytes (ofLayout (oneRegion 514)).toBytes data →
        ∃ layout, openLayout 4096 data 2109440 true = some layout ∧ layout.len = some 2109440 := by
  have hReach : Reachable 1048576 4096 (oneRegion 257) :=
    .created (m := 257) (by decide) (by decide +kernel) (by decide +kernel)
  have hStep : Step (oneRegion 257) (oneRegion 514) :=
    .grown (a := ⟨⟨[]⟩, []⟩) (r := 0) (by decide +kernel) (by decide +kernel)
  refine ⟨hReach, hStep, ?_⟩
  exact (torn_layout_opens_iff (by decide) (by decide) (by decide) (by decide) (by decide)
    hReach hStep (show _ = some 1056768 by decide +kernel)
    (show _ = some 2109440 by decide +kernel)).mpr (by decide +kernel)

/-
  A file of 32896 pages grows to 65792. The two low bytes of the old counter and the third byte of
  the new one make 98432 pages.
-/
theorem doubled_file_does_not_open :
    Reachable 1048576 4096 (oneRegion 32896) ∧ Step (oneRegion 32896) (oneRegion 65792) ∧
      Mixed (ofLayout (oneRegion 32896)).toBytes (ofLayout (oneRegion 65792)).toBytes
        (ofLayout (oneRegion 98432)).toBytes ∧
      openLayout 4096 (ofLayout (oneRegion 98432)).toBytes (4096 * 65793) true = none := by
  refine ⟨.created (m := 32896) (by decide) (by decide +kernel) (by decide +kernel),
    .grown (a := ⟨⟨[]⟩, []⟩) (r := 0) (by decide +kernel) (by decide +kernel),
    ?_, by decide +kernel⟩
  refine (Mixed.self _).append ((Mixed.self _).append ((Mixed.self _).append
    ((Mixed.self _).append ?_)))
  exact .old (.old (.new (.old .nil)))

end LayoutFields

end Redbx

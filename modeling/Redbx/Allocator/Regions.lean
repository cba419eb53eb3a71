import Redbx.Allocator.Runs

/-
  The regions of a file and the allocators in memory.

  A file is a row of full regions and at most one shorter one at its end. Every region has a buddy
  allocator, and the region tracker has for every order a bit for each region that says that the
  region is full for that order.

  Key definitions include:
    * `DatabaseLayout`, `RegionTracker`
-/

namespace Redbx

-- Layouts

def roundUpToMultipleOf (value multiple : Nat) : Nat :=
  if value % multiple = 0 then value
  else value + multiple - value % multiple

structure RegionLayout where
  numPages : Nat
  headerPages : Nat
  pageSize : Nat
  deriving DecidableEq

namespace RegionLayout

/- Panics without pages. -/
def new (numPages headerPages pageSize : Nat) : Option RegionLayout :=
  if 0 < numPages then some ⟨numPages, headerPages, pageSize⟩
  else none

/- Panics when the capacity is too small. -/
def calculate (desiredUsableBytes pageCapacity regionHeaderPages pageSize : Nat) :
    Option RegionLayout :=
  if desiredUsableBytes ≤ pageCapacity * pageSize then
    some ⟨roundUpToMultipleOf desiredUsableBytes pageSize / pageSize, regionHeaderPages, pageSize⟩
  else
    none

def usableBytes (self : RegionLayout) : Nat := self.pageSize * self.numPages

def len (self : RegionLayout) : Nat := self.headerPages * self.pageSize + self.usableBytes

end RegionLayout

structure DatabaseLayout where
  fullRegionLayout : RegionLayout
  numFullRegions : Nat
  trailingPartialRegion : Option RegionLayout
  deriving DecidableEq

namespace DatabaseLayout

def numRegions (self : DatabaseLayout) : Nat :=
  if self.trailingPartialRegion.isSome then
    self.numFullRegions + 1
  else
    self.numFullRegions

def usableBytes (self : DatabaseLayout) : Nat :=
  self.numFullRegions * self.fullRegionLayout.usableBytes +
    (self.trailingPartialRegion.map RegionLayout.usableBytes).getD 0

def regionLayout (self : DatabaseLayout) (region : Nat) : Option RegionLayout :=
  if region < self.numRegions then
    if region = self.numFullRegions then
      self.trailingPartialRegion
    else
      some self.fullRegionLayout
  else
    none

/- Where a region begins, after the page of the header. -/
def regionBaseAddress (self : DatabaseLayout) (region : Nat) : Option Nat :=
  if region < self.numRegions then
    some (self.fullRegionLayout.pageSize + region * self.fullRegionLayout.len)
  else
    none

/- Panics without regions. -/
def len (self : DatabaseLayout) : Option Nat := do
  let last := self.numRegions - 1
  let base ← self.regionBaseAddress last
  let region ← self.regionLayout last
  some (base + region.len)

/- The layout of the last region. -/
def lastRegion (self : DatabaseLayout) : RegionLayout :=
  self.trailingPartialRegion.getD self.fullRegionLayout

/- Panics when there are not so many pages. -/
def reduceLastRegion (self : DatabaseLayout) (pages : Nat) : Option DatabaseLayout :=
  match self.trailingPartialRegion with
  | some trailing =>
    if pages ≤ trailing.numPages then
      some { self with
        trailingPartialRegion :=
          if trailing.numPages - pages = 0 then none
          else some { trailing with numPages := trailing.numPages - pages } }
    else
      none
  | none =>
    let full := self.fullRegionLayout
    if self.numFullRegions = 0 then
      none
    else if pages < full.numPages then do
      let trailing ← RegionLayout.new (full.numPages - pages) full.headerPages full.pageSize
      some ⟨full, self.numFullRegions - 1, some trailing⟩
    else
      some ⟨full, self.numFullRegions - 1, none⟩

def calculate (desiredUsableBytes pageCapacity regionHeaderPages pageSize : Nat) :
    Option DatabaseLayout := do
  let full ← RegionLayout.new pageCapacity regionHeaderPages pageSize
  if desiredUsableBytes ≤ full.usableBytes then
    -- a single region
    let region ← RegionLayout.calculate desiredUsableBytes pageCapacity regionHeaderPages pageSize
    some ⟨full, 0, some region⟩
  else
    let fullRegions := desiredUsableBytes / full.usableBytes
    let remaining := desiredUsableBytes - fullRegions * full.usableBytes
    if 0 < remaining then
      let trailing ← RegionLayout.calculate remaining pageCapacity regionHeaderPages pageSize
      some ⟨full, fullRegions, some trailing⟩
    else
      some ⟨full, fullRegions, none⟩

end DatabaseLayout

-- The Region Tracker

def maxRegions : Nat := 0x00100000

def initialRegions : Nat := 1000

/- For every order the regions that are full for it. -/
structure RegionTracker where
  orderTrackers : List BtreeBitmap
  deriving DecidableEq

namespace RegionTracker

/- Every region is full. -/
def new (regions orders : Nat) : RegionTracker where
  orderTrackers :=
    List.replicate orders (.new regions maxRegions)

def findFree (self : RegionTracker) (order : Nat) : Option (Option Nat) := do
  let bitmap ← self.orderTrackers[order]?
  bitmap.findFirstUnset

def put (full : Bool) (region : Nat) (bitmap : BtreeBitmap) : Option BtreeBitmap :=
  if full then bitmap.set region else bitmap.clear region

/- The bit of a region for one order. -/
def mark (full : Bool) (region : Nat) (self : RegionTracker)
    (order : Nat) : Option RegionTracker := do
  let bitmap ← self.orderTrackers[order]?
  let bitmap ← put full region bitmap
  some ⟨self.orderTrackers.set order bitmap⟩

/- Not full for the order and those below. -/
def markFree (self : RegionTracker) (order region : Nat) : Option RegionTracker :=
  (List.range (order + 1)).foldlM (mark false region) self

/- Full for the order and those above. -/
def markFull (self : RegionTracker) (order region : Nat) : Option RegionTracker :=
  if order < self.orderTrackers.length then
    (List.range' order (self.orderTrackers.length - order)).foldlM (mark true region) self
  else
    none

def resizeOrders (newCapacity : Nat) : List BtreeBitmap → Option (List BtreeBitmap)
  | [] => some []
  | bitmap :: rest => do
    let bitmap ← bitmap.resize newCapacity true
    let rest ← resizeOrders newCapacity rest
    some (bitmap :: rest)

/- Regions that are added are full. -/
def resize (self : RegionTracker) (newCapacity : Nat) : Option RegionTracker := do
  let trackers ← resizeOrders newCapacity self.orderTrackers
  some ⟨trackers⟩

def len (self : RegionTracker) : Option Nat := self.orderTrackers[0]?.map BtreeBitmap.len

/- Room for a new region. -/
def reach (self : RegionTracker) (region : Nat) : Option RegionTracker := do
  if region < (← self.len) then some self
  else self.resize (region + 1)

end RegionTracker

-- The Allocators

structure Allocators where
  regionTracker : RegionTracker
  regionAllocators : List BuddyAllocator
  deriving DecidableEq

namespace Allocators

/- One region of `new`. -/
def newRegion (layout : DatabaseLayout) (self : Allocators) (i : Nat) : Option Allocators := do
  let regionLayout ← layout.regionLayout i
  let allocator ← BuddyAllocator.new regionLayout.numPages layout.fullRegionLayout.numPages
  let tracker ← self.regionTracker.markFree allocator.maxOrder i
  some ⟨tracker, self.regionAllocators ++ [allocator]⟩

def new (layout : DatabaseLayout) : Option Allocators :=
  (List.range layout.numRegions).foldlM (newRegion layout)
    ⟨.new (max initialRegions layout.numRegions) (maxMaxPageOrder + 1), []⟩

/- The last region loses pages. -/
def resizeLast (self : Allocators) (lastRegion : RegionLayout) : Option Allocators := do
  let allocator ← self.regionAllocators.getLast?
  if lastRegion.numPages < allocator.len then
    let allocator ← allocator.resize lastRegion.numPages
    some { self with regionAllocators := self.regionAllocators.dropLast ++ [allocator] }
  else
    some self

/- The branch of `resize_to` for fewer pages. -/
def shrinkTo (self : Allocators) (newLayout : DatabaseLayout) : Option Allocators := do
  let regions := self.regionAllocators.length
  let tracker ← (List.range' newLayout.numRegions (regions - newLayout.numRegions)).foldlM
        (fun tracker i => tracker.markFull 0 i) self.regionTracker
  resizeLast ⟨tracker, self.regionAllocators.take newLayout.numRegions⟩ newLayout.lastRegion

/- Region `i` of the branch of `resize_to` for more pages. -/
def growRegion (newLayout : DatabaseLayout) (oldNumRegions : Nat) (self : Allocators)
    (i : Nat) : Option Allocators := do
  let newRegion ← newLayout.regionLayout i
  if i < oldNumRegions then
    let allocator ← self.regionAllocators[i]?
    if newRegion.numPages < allocator.len then
      none
    else if newRegion.numPages ≠ allocator.len then
      let allocator ← allocator.resize newRegion.numPages
      let highestFree ← ← allocator.highestFreeOrder
      let tracker ← self.regionTracker.markFree highestFree i
      some ⟨tracker, self.regionAllocators.set i allocator⟩
    else
      some self
  else
    -- brand new region
    let allocator ← BuddyAllocator.new newRegion.numPages newLayout.fullRegionLayout.numPages
    let highestFree ← ← allocator.highestFreeOrder
    let tracker ← self.regionTracker.reach i
    let tracker ← tracker.markFree highestFree i
    some ⟨tracker, self.regionAllocators ++ [allocator]⟩

def growTo (self : Allocators) (newLayout : DatabaseLayout) : Option Allocators :=
  (List.range newLayout.numRegions).foldlM (growRegion newLayout self.regionAllocators.length) self

def resizeTo (self : Allocators) (newLayout : DatabaseLayout) : Option Allocators :=
  let regions := self.regionAllocators.length
  if newLayout.numRegions < regions then
    self.shrinkTo newLayout
  else if newLayout.numRegions = regions then do
    let allocator ← self.regionAllocators.getLast?
    if newLayout.lastRegion.numPages < allocator.len then
      self.shrinkTo newLayout
    else if newLayout.lastRegion.numPages = allocator.len then
      some self
    else
      self.growTo newLayout
  else
    self.growTo newLayout

end Allocators

-- Allocation In The File

/- A page by its region, index and order. -/
structure RegionPage where
  region : Nat
  pageIndex : Nat
  pageOrder : Nat
  deriving DecidableEq

/- The layout stands in the header. -/
structure InMemoryState where
  layout : DatabaseLayout
  allocators : Allocators
  deriving DecidableEq

namespace InMemoryState

variable (self : InMemoryState)

def setRegion (region : Nat) (allocator : BuddyAllocator) : InMemoryState :=
  { self with
    allocators := { self.allocators with
      regionAllocators :=
        self.allocators.regionAllocators.set region allocator } }

def setTracker (tracker : RegionTracker) : InMemoryState :=
  { self with allocators := { self.allocators with regionTracker := tracker } }

def allocIn (region : BuddyAllocator) (requiredOrder : Nat) (lowest : Bool) :
    Option (Option Nat × BuddyAllocator) :=
  if lowest then region.allocLowest requiredOrder
  else region.alloc requiredOrder

/- The loop of `allocate_helper_retry`; every turn but the last marks one more region as full. -/
def retryLoop (requiredOrder : Nat) (lowest : Bool) :
    (turns : Nat) → InMemoryState → Option (Option RegionPage × InMemoryState)
  | 0, _ => none
  | turns + 1, self => do
    match ← self.allocators.regionTracker.findFree
        requiredOrder with
    | none => some (none, self)
    | some candidate => do
      let region ← self.allocators.regionAllocators[candidate]?
      let (found, allocator) ← allocIn region requiredOrder lowest
      let self := self.setRegion candidate allocator
      match found with
      | some page =>
        some (some ⟨candidate, page, requiredOrder⟩, self)
      | none =>
        let tracker ← self.allocators.regionTracker.markFull requiredOrder candidate
        retryLoop requiredOrder lowest turns (self.setTracker tracker)

/- Each turn needs a region that is not marked full yet. -/
def allocateHelperRetry (requiredOrder : Nat) (lowest : Bool) :
    Option (Option RegionPage × InMemoryState) := do
  let regions ← self.allocators.regionTracker.len
  retryLoop requiredOrder lowest (regions + 1) self

/- The size that `grow` asks for. -/
def nextDesiredSize (layout : DatabaseLayout) (requiredOrder : Nat) : Nat :=
  let pageSize := layout.fullRegionLayout.pageSize
  let requiredGrowth := 2 ^ requiredOrder * pageSize
  let maxRegionSize := layout.fullRegionLayout.numPages * pageSize
  if 0 < layout.numFullRegions then
    match layout.trailingPartialRegion with
    | some trailing =>
      if 2 * requiredGrowth <
          maxRegionSize - trailing.usableBytes then
        -- fill out the trailing region
        layout.usableBytes + (maxRegionSize - trailing.usableBytes)
      else
        -- fill it out and grow by one region
        layout.usableBytes + 2 * maxRegionSize - trailing.usableBytes
    | none => layout.usableBytes + maxRegionSize
  else
    max (layout.usableBytes * 2) (layout.usableBytes + requiredGrowth * 2)

/- The layout that `grow` goes to. -/
def grownLayout (requiredOrder : Nat) : Option DatabaseLayout :=
  DatabaseLayout.calculate (nextDesiredSize self.layout requiredOrder)
    self.layout.fullRegionLayout.numPages
    self.layout.fullRegionLayout.headerPages
    self.layout.fullRegionLayout.pageSize

def grow (requiredOrder : Nat) : Option InMemoryState := do
  let newLayout ← self.grownLayout requiredOrder
  if (← self.layout.len) ≤ (← newLayout.len) then
    let allocators ← self.allocators.resizeTo newLayout
    some ⟨newLayout, allocators⟩
  else
    none

/-
  `allocate_helper`: no page when the file had to grow and `resizes` says that the storage could not
  be resized.
-/
def allocateHelper (requiredOrder : Nat) (lowest resizes : Bool) :
    Option (Option RegionPage × InMemoryState) := do
  match ← self.allocateHelperRetry requiredOrder lowest with
  | (some page, self) => some (some page, self)
  | (none, self) =>
    if resizes then do
      let self ← self.grow requiredOrder
      match ← self.allocateHelperRetry requiredOrder lowest with
      | (some page, self) => some (some page, self)
      | (none, _) => none
    else
      some (none, self)

/- `free_helper`: the page, and then the tracker. -/
def freeHelper (page : RegionPage) : Option InMemoryState := do
  let region ← self.allocators.regionAllocators[page.region]?
  let allocator ← region.freeBlock page.pageIndex page.pageOrder
  let self := self.setRegion page.region allocator
  let tracker ← self.allocators.regionTracker.markFree page.pageOrder page.region
  some (self.setTracker tracker)

/- One page of a rollback: the tracker, and then the page. -/
def rollbackPage (page : RegionPage) : Option InMemoryState := do
  let tracker ← self.allocators.regionTracker.markFree page.pageOrder page.region
  let self := self.setTracker tracker
  let region ← self.allocators.regionAllocators[page.region]?
  let allocator ← region.freeBlock page.pageIndex page.pageOrder
  some (self.setRegion page.region allocator)

/- How many pages `try_shrink` takes off the last region. -/
def reduceBy (regions trailingFree lastLen : Nat) (force : Bool) : Nat :=
  if 1 < regions ∧ trailingFree = lastLen then
    trailingFree
  else if force then
    -- do not shrink the database to zero size
    min (lastLen - 1) trailingFree
  else
    trailingFree / 2

def tryShrink (force : Bool) : Option (Bool × InMemoryState) := do
  let regions := self.layout.numRegions
  let last ← self.allocators.regionAllocators[regions - 1]?
  let trailingFree ← last.trailingFreePages
  if trailingFree = 0 then
    some (false, self)
  else if trailingFree < last.len / 2 ∧ force = false then
    some (false, self)
  else
    let newLayout ← self.layout.reduceLastRegion (reduceBy regions trailingFree last.len force)
    let allocators ← self.allocators.resizeTo newLayout
    if (← newLayout.len) ≤ (← self.layout.len) then
      some (true, ⟨newLayout, allocators⟩)
    else
      none

end InMemoryState

end Redbx

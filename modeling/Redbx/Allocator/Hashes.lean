import Redbx.Allocator.RegionOps
import Redbx.PageStore.Base
import Mathlib.Data.List.Dedup
import Mathlib.Data.List.Nodup

/-
  The hash of the allocators, by which an integrity check compares the free pages with those it
  found itself.

  The hashes of all levels of all bitmaps, over the orders and the regions, are combined by
  exclusive or, so that only the bitmaps that occur an odd number of times count, and not where.

  Key theorems include:
    * `Allocators.hashes_differ_iff`
-/

namespace Redbx

open Bytes List Option

-- Hashes

/- The length and the bits of a level, which are hashed. -/
def U64GroupedBitmap.hashed (bitmap : U64GroupedBitmap) : Bytes :=
  let bit := (bitmap.len - 1) % 64
  -- the last bit and all lower ones of its group
  let mask := (1#64 <<< bit - 1#64) ||| 1#64 <<< bit
  toLe 4 bitmap.len ++
    (((bitmap.data.take (requiredWords bitmap.len - 1)).flatMap fun x => toLe 8 x.toNat) ++
      toLe 8 (bitmap.word ((bitmap.len - 1) / 64) &&& mask).toNat)

/- `hash` stands for `xxh3_checksum` throughout. -/
def U64GroupedBitmap.xxh3Hash (hash : Bytes → Checksum) (bitmap : U64GroupedBitmap) : Checksum :=
  if bitmap.len = 0 then 0 else hash bitmap.hashed

def BtreeBitmap.xxh3Hash (hash : Bytes → Checksum) (bitmap : BtreeBitmap) : Checksum :=
  bitmap.heights.foldl (fun result height => result ^^^ height.xxh3Hash hash) 0

/- `bitmapHash` stands for the hash of a single bitmap. -/
def BuddyAllocator.xxh3Hash (bitmapHash : BtreeBitmap → Checksum) (self : BuddyAllocator) :
    Checksum :=
  self.free.foldl (fun result x => result ^^^ bitmapHash x) 0

/- The region tracker is left out. -/
def Allocators.xxh3Hash (bitmapHash : BtreeBitmap → Checksum) (self : Allocators) : Checksum :=
  self.regionAllocators.foldl (fun result allocator => result ^^^ allocator.xxh3Hash bitmapHash) 0

------------------------------------------------------------
-- Exclusive Or Over Lists
------------------------------------------------------------

def xorAll (hashes : List Checksum) : Checksum := hashes.foldr (· ^^^ ·) 0

theorem xorAll_append (a b : List Checksum) : xorAll (a ++ b) = xorAll a ^^^ xorAll b := by
  induction a with
  | nil => exact (BitVec.zero_xor).symm
  | cons x a ih =>
    change x ^^^ xorAll (a ++ b) = x ^^^ xorAll a ^^^ xorAll b
    rw [ih, BitVec.xor_assoc]

theorem xorAll_perm {a b : List Checksum} (hPerm : a.Perm b) : xorAll a = xorAll b := by
  induction hPerm with
  | nil => rfl
  | cons x _ ih => exact congrArg (x ^^^ ·) ih
  | swap x y l =>
    change y ^^^ (x ^^^ xorAll l) = x ^^^ (y ^^^ xorAll l)
    rw [← BitVec.xor_assoc, BitVec.xor_comm y x, BitVec.xor_assoc]
  | trans _ _ ih1 ih2 => exact ih1.trans ih2

theorem foldl_xor {α : Type} (f : α → Checksum) (l : List α) (start : Checksum) :
    l.foldl (fun result x => result ^^^ f x) start = start ^^^ xorAll (l.map f) := by
  induction l generalizing start with
  | nil => exact (BitVec.xor_zero).symm
  | cons x l ih =>
    rw [foldl_cons, ih, BitVec.xor_assoc]
    rfl

/- The elements that occur an odd number of times. -/
def oddOnes {α : Type} [DecidableEq α] : List α → List α
  | [] => []
  | x :: l => if x ∈ oddOnes l then (oddOnes l).erase x else x :: oddOnes l

section OddOnes

variable {α : Type} [DecidableEq α]

theorem nodup_oddOnes (l : List α) : (oddOnes l).Nodup := by
  induction l with
  | nil => exact nodup_nil
  | cons x l ih =>
    unfold oddOnes
    split
    case isTrue => exact ih.erase x
    case isFalse hNew => exact nodup_cons.mpr ⟨hNew, ih⟩

/- The other occurrences form pairs. -/
theorem perm_oddOnes (l : List α) : ∃ rest, l.Perm (oddOnes l ++ (rest ++ rest)) := by
  induction l with
  | nil => exact ⟨[], .refl _⟩
  | cons x l ih =>
    rcases ih with ⟨rest, hPerm⟩
    unfold oddOnes
    split
    case isTrue hIn =>
      -- the element and its partner leave the odd ones
      refine ⟨x :: rest, ?_⟩
      have hBack : l.Perm (x :: ((oddOnes l).erase x ++ (rest ++ rest))) :=
        hPerm.trans ((perm_cons_erase hIn).append_right _)
      have hPair : ([x, x] ++ (rest ++ rest)).Perm ((x :: rest) ++ (x :: rest)) :=
        Perm.cons x (perm_append_comm_assoc [x] rest rest)
      have hFront : ([x, x] ++ ((oddOnes l).erase x ++ (rest ++ rest))).Perm
          ((oddOnes l).erase x ++ ([x, x] ++ (rest ++ rest))) :=
        perm_append_comm_assoc _ _ _
      exact (hBack.cons x).trans (hFront.trans (hPair.append_left _))
    case isFalse => exact ⟨rest, hPerm.cons x⟩

theorem xorAll_oddOnes (f : α → Checksum) (l : List α) :
    xorAll (l.map f) = xorAll ((oddOnes l).map f) := by
  rcases perm_oddOnes l with ⟨rest, hPerm⟩
  rw [xorAll_perm (hPerm.map f), map_append, map_append, xorAll_append, xorAll_append,
    BitVec.xor_self, BitVec.xor_zero]

theorem mem_of_mem_oddOnes {l : List α} {x : α} (hIn : x ∈ oddOnes l) : x ∈ l := by
  rcases perm_oddOnes l with ⟨rest, hPerm⟩
  exact hPerm.mem_iff.mpr (mem_append_left _ hIn)

/- In a list of even length they are an even number. -/
theorem length_oddOnes (l : List α) : (oddOnes l).length % 2 = l.length % 2 := by
  rcases perm_oddOnes l with ⟨rest, hPerm⟩
  rw [hPerm.length_eq, length_append, length_append]
  omega

end OddOnes

------------------------------------------------------------
-- Different Hashes That Cancel
------------------------------------------------------------

/- Four numbers in a row cancel. -/
theorem xorAll_range (start count : Nat) :
    xorAll ((range' (2 * start) (4 * count)).map (BitVec.ofNat 128)) = 0 := by
  have hPair (i : Nat) : BitVec.ofNat 128 (2 * i) ^^^ BitVec.ofNat 128 (2 * i + 1) = 1#128 := by
    rw [← BitVec.ofNat_xor]
    congr 1
    apply Nat.eq_of_testBit_eq
    intro bit
    rw [Nat.testBit_xor]
    cases bit with
    | zero => simp [Nat.testBit_zero]
    | succ bit =>
      rw [Nat.testBit_succ, Nat.testBit_succ, Nat.testBit_succ]
      have hHalf : (2 * i + 1) / 2 = 2 * i / 2 := by omega
      rw [hHalf]
      simp
  induction count generalizing start with
  | zero => rfl
  | succ count ih =>
    have hNext := ih (start + 2)
    have hFour : range' (2 * start) (4 * (count + 1)) =
        2 * start :: (2 * start + 1) :: (2 * (start + 1)) :: (2 * (start + 1) + 1) ::
          range' (2 * (start + 2)) (4 * count) := by
      simp only [Nat.mul_add, Nat.mul_one, range'_succ]
    rw [hFour]
    change BitVec.ofNat 128 (2 * start) ^^^ (BitVec.ofNat 128 (2 * start + 1) ^^^
      (BitVec.ofNat 128 (2 * (start + 1)) ^^^ (BitVec.ofNat 128 (2 * (start + 1) + 1) ^^^
        xorAll ((range' (2 * (start + 2)) (4 * count)).map (BitVec.ofNat 128))))) = 0
    rw [hNext, ← BitVec.xor_assoc, hPair, ← BitVec.xor_assoc (BitVec.ofNat 128 (2 * (start + 1))),
      hPair]
    rfl

/- Increasing numbers that cancel, with room behind them: an even number of them, but not two. -/
theorem exists_balanced {n : Nat} (hEven : n % 2 = 0) (hTwo : n ≠ 2) :
    ∃ values : List Nat, values.length = n ∧ values.Pairwise (· < ·) ∧
      (∀ value ∈ values, value < n + 10) ∧ xorAll (values.map (BitVec.ofNat 128)) = 0 := by
  rcases Nat.lt_or_ge (n % 4) 2 with hFour | hSix
  · have hCount : n = 4 * (n / 4) := by omega
    refine ⟨range' 0 n, length_range', pairwise_lt_range', ?_, ?_⟩
    · intro value hIn
      have hBound := (mem_range'_1.mp hIn).2
      omega
    · rw [hCount]
      exact xorAll_range 0 (n / 4)
  · -- six that cancel, and rows of four
    have hCount : n - 6 = 4 * ((n - 6) / 4) := by omega
    refine ⟨[1, 2, 3, 4, 8, 12] ++ range' 16 (n - 6), ?_, ?_, ?_, ?_⟩
    · rw [length_append, length_range']
      simp only [length_cons, length_nil]
      omega
    · refine pairwise_append.mpr ⟨by decide, pairwise_lt_range', ?_⟩
      intro low hLow high hHigh
      have hFew : ∀ low ∈ [1, 2, 3, 4, 8, 12], low < 16 := by decide
      exact Nat.lt_of_lt_of_le (hFew low hLow) (mem_range'_1.mp hHigh).1
    · intro value hIn
      rcases mem_append.mp hIn with hLow | hHigh
      · have hFew : ∀ low ∈ [1, 2, 3, 4, 8, 12], low < 13 := by decide
        have hBound := hFew value hLow
        omega
      · have hBound := (mem_range'_1.mp hHigh).2
        omega
    · rw [map_append, xorAll_append, hCount, xorAll_range 8]
      decide

/- Any values can be given to different elements. -/
theorem exists_assignment
    {α : Type}
    [DecidableEq α]
    {elements : List α}
    {values : List Checksum}
    (hElements : elements.Nodup)
    (hValues : values.Nodup)
    (hLength : elements.length = values.length) :
    ∃ f : α → Checksum, elements.map f = values ∧
      ∀ v ∈ elements, ∀ w ∈ elements, f v = f w → v = w := by
  let f (x : α) : Checksum := values.getD (elements.idxOf x) 0
  have hMap : elements.map f = values := by
    refine ext_getElem (by rw [length_map, hLength]) ?_
    intro i hLeft hRight
    have hIndex : i < elements.length := by omega
    rw [getElem_map]
    change values.getD (elements.idxOf elements[i]) 0 = values[i]
    rw [hElements.idxOf_getElem i hIndex, getD_eq_getElem _ _ hRight]
  refine ⟨f, hMap, fun v hV w hW hEq => ?_⟩
  rw [← hMap] at hValues
  exact inj_on_of_nodup_map hValues hV hW hEq

/- Unless exactly two elements are odd, some hash that tells all elements apart cancels. -/
theorem exists_cancelling
    {α : Type}
    [DecidableEq α]
    {l : List α}
    (hEven : l.length % 2 = 0)
    (hFew : l.length + l.length + 10 < 2 ^ 128)
    (hTwo : (oddOnes l).length ≠ 2) :
    ∃ f : α → Checksum, (∀ v ∈ l, ∀ w ∈ l, f v = f w → v = w) ∧ xorAll (l.map f) = 0 := by
  let others := l.dedup.filter (· ∉ oddOnes l)
  have hOdd : (oddOnes l).length ≤ l.length := by
    rcases perm_oddOnes l with ⟨rest, hPerm⟩
    rw [hPerm.length_eq, length_append]
    omega
  have hOthers : others.length ≤ l.length :=
    (length_filter_le _ _).trans (dedup_sublist l).length_le
  rcases exists_balanced (length_oddOnes l ▸ hEven) hTwo with
    ⟨values, hLength, hIncreasing, hBelow, hCancel⟩
  -- the odd ones take the values that cancel, the others those behind
  have hNumbers : (values ++ range' ((oddOnes l).length + 10) others.length).Pairwise (· < ·) := by
    refine pairwise_append.mpr ⟨hIncreasing, pairwise_lt_range', ?_⟩
    intro low hLow high hHigh
    exact Nat.lt_of_lt_of_le (hBelow low hLow) (mem_range'_1.mp hHigh).1
  have hSmall : ∀ n ∈ values ++ range' ((oddOnes l).length + 10) others.length, n < 2 ^ 128 := by
    intro n hIn
    rcases mem_append.mp hIn with hLow | hHigh
    · have hBound := hBelow n hLow
      omega
    · have hBound := (mem_range'_1.mp hHigh).2
      omega
  have hValues : ((values ++ range' ((oddOnes l).length + 10) others.length).map
      (BitVec.ofNat 128)).Nodup := by
    refine Nodup.map_on ?_ (hNumbers.imp Nat.ne_of_lt)
    intro v hV w hW hEq
    have hNat := congrArg BitVec.toNat hEq
    rwa [BitVec.toNat_ofNat, BitVec.toNat_ofNat, Nat.mod_eq_of_lt (hSmall v hV),
      Nat.mod_eq_of_lt (hSmall w hW)] at hNat
  have hElements : (oddOnes l ++ others).Nodup := by
    refine nodup_append.mpr ⟨nodup_oddOnes l, (nodup_dedup l).filter _, ?_⟩
    intro v hV w hW hEq
    have hNot := (mem_filter.mp hW).2
    rw [hEq] at hV
    simp [hV] at hNot
  rcases exists_assignment hElements hValues (by
    rw [length_map, length_append, length_append, hLength, length_range']) with ⟨f, hMap, hApart⟩
  refine ⟨f, ?_, ?_⟩
  · have hAll (v : α) (hV : v ∈ l) : v ∈ oddOnes l ++ others := by
      by_cases hIn : v ∈ oddOnes l
      · exact mem_append_left _ hIn
      · exact mem_append_right _ (mem_filter.mpr ⟨mem_dedup.mpr hV, by simpa using hIn⟩)
    exact fun v hV w hW hEq => hApart v (hAll v hV) w (hAll w hW) hEq
  · rw [map_append, map_append] at hMap
    rcases append_inj hMap (by rw [length_map, length_map, hLength]) with ⟨hFirst, _⟩
    rw [xorAll_oddOnes, hFirst, hCancel]

------------------------------------------------------------
-- Bitmaps Without Their Spare Words
------------------------------------------------------------

/- What is hashed of the levels, nothing of empty ones. -/
def BtreeBitmap.contents (bitmap : BtreeBitmap) : List Bytes :=
  bitmap.heights.map fun height => if height.len = 0 then [] else height.hashed

def hashContents (hash : Bytes → Checksum) (contents : List Bytes) : Checksum :=
  xorAll (contents.map fun data => if data = [] then 0 else hash data)

theorem BtreeBitmap.xxh3Hash_eq (hash : Bytes → Checksum) (bitmap : BtreeBitmap) :
    bitmap.xxh3Hash hash = hashContents hash bitmap.contents := by
  rw [BtreeBitmap.xxh3Hash, foldl_xor, contents, hashContents, List.map_map]
  refine BitVec.zero_xor.trans (congrArg xorAll (map_congr_left fun height _ => ?_))
  rw [U64GroupedBitmap.xxh3Hash, Function.comp_apply]
  split
  · rfl
  · exact (if_neg (by simp [U64GroupedBitmap.hashed, toLe])).symm

namespace Allocators

/- The bitmaps of all orders of all regions. -/
def bitmaps (self : Allocators) : List (List Bytes) :=
  (self.regionAllocators.flatMap BuddyAllocator.free).map BtreeBitmap.contents

theorem xxh3Hash_eq (bitmapHash : List Bytes → Checksum) (self : Allocators) :
    self.xxh3Hash (bitmapHash ∘ BtreeBitmap.contents) = xorAll (self.bitmaps.map bitmapHash) := by
  rw [xxh3Hash, foldl_xor, bitmaps, List.map_map]
  refine BitVec.zero_xor.trans ?_
  induction self.regionAllocators with
  | nil => rfl
  | cons allocator rest ih =>
    have hOne : allocator.xxh3Hash (bitmapHash ∘ BtreeBitmap.contents) =
        xorAll (allocator.free.map (bitmapHash ∘ BtreeBitmap.contents)) := by
      rw [BuddyAllocator.xxh3Hash, foldl_xor]
      exact BitVec.zero_xor
    rw [flatMap_cons, map_append, xorAll_append, ← ih, ← hOne]
    rfl

/- The bitmaps that occur an odd number of times in both states together. -/
def oddBitmaps (a b : Allocators) : List (List Bytes) := oddOnes (a.bitmaps ++ b.bitmaps)

/- A hash that tells single bitmaps apart sees a difference of two. -/
theorem differ_of_two_odd
    {a b : Allocators}
    {bitmapHash : List Bytes → Checksum}
    (hTwo : (oddBitmaps a b).length = 2)
    (hApart : ∀ v ∈ a.bitmaps ++ b.bitmaps, ∀ w ∈ a.bitmaps ++ b.bitmaps,
      bitmapHash v = bitmapHash w → v = w) :
    xorAll (a.bitmaps.map bitmapHash) ≠ xorAll (b.bitmaps.map bitmapHash) := by
  intro hEq
  have hZero := BitVec.xor_eq_zero_iff.mpr hEq
  rw [← xorAll_append, ← map_append, xorAll_oddOnes] at hZero
  rcases length_eq_two.mp hTwo with ⟨x, y, hOdd⟩
  have hNodup := nodup_oddOnes (a.bitmaps ++ b.bitmaps)
  have hMember := fun v hV => @mem_of_mem_oddOnes _ _ (a.bitmaps ++ b.bitmaps) v hV
  rw [← oddBitmaps, hOdd] at hZero hNodup hMember
  change bitmapHash x ^^^ (bitmapHash y ^^^ 0#128) = 0#128 at hZero
  rw [BitVec.xor_zero, BitVec.xor_eq_zero_iff] at hZero
  have hSame := hApart x (hMember x (by simp)) y (hMember y (by simp)) hZero
  rw [hSame] at hNodup
  simp at hNodup

/-
  All that is known of the hash of single bitmaps is that it tells them apart. Then the hashes of
  two states differ for certain exactly when two bitmaps occur an odd number of times in both states
  together; otherwise there are such hashes of single bitmaps for which they agree.
-/
theorem hashes_differ_iff
    (a b : Allocators)
    (hLayout : a.bitmaps.length = b.bitmaps.length)
    (hFew : a.bitmaps.length < 2 ^ 64) :
    (∀ bitmapHash : List Bytes → Checksum,
      (∀ v ∈ a.bitmaps ++ b.bitmaps, ∀ w ∈ a.bitmaps ++ b.bitmaps,
        bitmapHash v = bitmapHash w → v = w) →
      a.xxh3Hash (bitmapHash ∘ BtreeBitmap.contents) ≠
        b.xxh3Hash (bitmapHash ∘ BtreeBitmap.contents)) ↔
    (oddBitmaps a b).length = 2 := by
  constructor
  · intro hDiffer
    by_contra hTwo
    have hLength : (a.bitmaps ++ b.bitmaps).length = a.bitmaps.length + b.bitmaps.length :=
      length_append
    rcases exists_cancelling (l := a.bitmaps ++ b.bitmaps) (by omega) (by omega) hTwo with
      ⟨bitmapHash, hApart, hCancel⟩
    apply hDiffer bitmapHash hApart
    rw [xxh3Hash_eq, xxh3Hash_eq]
    rw [map_append, xorAll_append] at hCancel
    exact BitVec.xor_eq_zero_iff.mp hCancel
  · intro hTwo bitmapHash hApart
    rw [xxh3Hash_eq, xxh3Hash_eq]
    exact differ_of_two_odd hTwo hApart

/- A region of two pages with the first one taken. -/
def firstTaken : Option Allocators := do
  let self ← BuddyAllocator.new 2 2
  let (_, self) ← self.alloc 0
  some ⟨⟨[]⟩, [self]⟩

/- The second one is taken: the first one was freed again. -/
def secondTaken : Option Allocators := do
  let self ← BuddyAllocator.new 2 2
  let (_, self) ← self.alloc 0
  let (_, self) ← self.alloc 0
  let self ← self.freeBlock 0 0
  some ⟨⟨[]⟩, [self]⟩

/- The bytes as a number. -/
def numberHash (data : Bytes) : Checksum := BitVec.ofNat 128 (ofLe data)

/- The states differ in the bitmap of one order, which the hash of the source sees. -/
theorem exchanged_page_is_seen :
    ∃ a b, firstTaken = some a ∧ secondTaken = some b ∧
      a.xxh3Hash (BtreeBitmap.xxh3Hash numberHash) ≠
        b.xxh3Hash (BtreeBitmap.xxh3Hash numberHash) := by
  have hBoth : (firstTaken.bind fun a => secondTaken.map fun b =>
      (a.bitmaps.length, b.bitmaps.length, (oddBitmaps a b).length,
        decide (∀ v ∈ a.bitmaps ++ b.bitmaps, ∀ w ∈ a.bitmaps ++ b.bitmaps,
          hashContents numberHash v = hashContents numberHash w → v = w))) =
      some (2, 2, 2, true) := by
    decide +kernel
  rcases bind_eq_some_iff.mp hBoth with ⟨a, hA, hRest⟩
  rcases map_eq_some_iff.mp hRest with ⟨b, hB, hSizes⟩
  simp only [Prod.mk.injEq, decide_eq_true_eq] at hSizes
  rcases hSizes with ⟨hFirst, hSecond, hOdd, hApart⟩
  have hDiffer := (hashes_differ_iff a b (hFirst.trans hSecond.symm) (by omega)).mpr hOdd
  have hSource : BtreeBitmap.xxh3Hash numberHash = hashContents numberHash ∘ BtreeBitmap.contents :=
    funext (BtreeBitmap.xxh3Hash_eq numberHash)
  rw [hSource]
  exact ⟨a, b, hA, hB, hDiffer _ hApart⟩

/- Two full regions of the usual size. -/
def twoRegions : DatabaseLayout := ⟨⟨1048576, 0, 4096⟩, 2, none⟩

/- The allocators after a page of one region was taken. -/
def pageTaken (region : Nat) : Option Allocators := do
  let self ← new twoRegions
  let allocator ← self.regionAllocators[region]?
  let (_, allocator) ← allocator.alloc 0
  some { self with regionAllocators := self.regionAllocators.set region allocator }

theorem regions_of_new {self : Allocators} (hNew : new twoRegions = some self) :
    ∃ fresh, self.regionAllocators = [fresh, fresh] := by
  rcases bind_eq_some_iff.mp hNew with ⟨one, hFirst, hRest⟩
  rcases bind_eq_some_iff.mp hRest with ⟨two, hSecond, hEnd⟩
  cases hEnd
  rcases bind_eq_some_iff.mp hFirst with ⟨fresh1, hFresh1, hMarks1⟩
  rcases bind_eq_some_iff.mp hMarks1 with ⟨_, _, hOne⟩
  rcases bind_eq_some_iff.mp hSecond with ⟨_, hFresh2, hMarks2⟩
  rcases bind_eq_some_iff.mp hMarks2 with ⟨_, _, hTwo⟩
  cases hFresh1.symm.trans hFresh2
  cases hOne
  cases hTwo
  exact ⟨fresh1, rfl⟩

/- The same regions, in one or the other order. -/
theorem regions_of_taken {a b : Allocators} (hA : pageTaken 0 = some a) (hB : pageTaken 1 = some b) :
    ∃ fresh taken, a.regionAllocators = [taken, fresh] ∧ b.regionAllocators = [fresh, taken] := by
  rcases bind_eq_some_iff.mp hA with ⟨self, hNew, hRestA⟩
  rcases bind_eq_some_iff.mp hB with ⟨other, hOther, hRestB⟩
  cases hNew.symm.trans hOther
  rcases regions_of_new hNew with ⟨fresh, hRegions⟩
  rw [hRegions] at hRestA hRestB
  rcases bind_eq_some_iff.mp hRestA with ⟨_, hFreshA, hAllocA⟩
  rcases bind_eq_some_iff.mp hRestB with ⟨_, hFreshB, hAllocB⟩
  cases hFreshA
  cases hFreshB
  rcases bind_eq_some_iff.mp hAllocA with ⟨⟨_, taken⟩, hTaken, hSomeA⟩
  rcases bind_eq_some_iff.mp hAllocB with ⟨⟨_, again⟩, hAgain, hSomeB⟩
  cases hTaken.symm.trans hAgain
  cases hSomeA
  cases hSomeB
  exact ⟨fresh, taken, rfl, rfl⟩

/-
  A page of the one or of the other region is in use: the regions are the same ones, in another
  order.
-/
theorem exchanged_regions_are_not_seen : ∃ a b, pageTaken 0 = some a ∧ pageTaken 1 = some b ∧
      a.regionAllocators[0]?.bind (fun region => region.getBit 0 20) = some true ∧
      b.regionAllocators[0]?.bind (fun region => region.getBit 0 20) = some false ∧
      ∀ bitmapHash, a.xxh3Hash bitmapHash = b.xxh3Hash bitmapHash := by
  have hTaken : ((pageTaken 0).bind fun a =>
      a.regionAllocators[0]?.bind (fun region => region.getBit 0 20)) = some true := by
    decide +kernel
  have hFree : ((pageTaken 1).bind fun b =>
      b.regionAllocators[0]?.bind (fun region => region.getBit 0 20)) = some false := by
    decide +kernel
  rcases bind_eq_some_iff.mp hTaken with ⟨a, hA, hBitA⟩
  rcases bind_eq_some_iff.mp hFree with ⟨b, hB, hBitB⟩
  refine ⟨a, b, hA, hB, hBitA, hBitB, fun bitmapHash => ?_⟩
  rcases regions_of_taken hA hB with ⟨_, _, hRegionsA, hRegionsB⟩
  rw [xxh3Hash, xxh3Hash, hRegionsA, hRegionsB, foldl_xor, foldl_xor]
  exact congrArg (0 ^^^ ·) (xorAll_perm (.swap _ _ []))

end Allocators

end Redbx

import Redbx.Core.Bytes

/-
  Page numbers, checksums and B-tree headers, with the bytes they are stored as.

  Key theorems include:
    * `PageNumber.fromLeBytes_toLeBytes`, `BtreeHeader.fromLeBytes_toLeBytes`
-/

namespace Redbx

open Bytes

-- Page Numbers

/-
  A page of `2 ^ pageOrder` units inside a region. A region has 2^20 units, so the index leaves room
  for the order.
-/
structure PageNumber where
  region : Nat
  pageIndex : Nat
  pageOrder : Nat
  region_lt : region < 2 ^ 20
  pageIndex_lt : pageIndex < 2 ^ (20 - pageOrder)
  pageOrder_lt : pageOrder < 2 ^ 5
  deriving DecidableEq

namespace PageNumber

theorem zero_region_lt : 0 < 2 ^ 20 := by decide

theorem zero_pageOrder_lt : 0 < 2 ^ 5 := by decide

/- Index, region and order in one 64-bit word. -/
def toWord (page : PageNumber) : Nat :=
  page.pageIndex + page.region * 2 ^ 20 + page.pageOrder * 2 ^ 59

/- The page a 64-bit word stands for. -/
def ofWord (word : Nat) : PageNumber where
  region := word / 2 ^ 20 % 2 ^ 20
  pageIndex := word % 2 ^ (20 - word / 2 ^ 59 % 2 ^ 5)
  pageOrder := word / 2 ^ 59 % 2 ^ 5
  region_lt := Nat.mod_lt _ (by decide)
  pageIndex_lt := Nat.mod_lt _ (Nat.pow_pos (by decide))
  pageOrder_lt := Nat.mod_lt _ (by decide)

def toLeBytes (page : PageNumber) : Bytes := toLe 8 page.toWord

def fromLeBytes (data : Bytes) : PageNumber := ofWord (ofLe data)

@[simp] theorem length_toLeBytes (page : PageNumber) : page.toLeBytes.length = 8 := by
  simp [toLeBytes]

/- The index stays below the region's bits. -/
theorem pageIndex_lt_region (page : PageNumber) : page.pageIndex < 2 ^ 20 :=
  lt_of_lt_of_le page.pageIndex_lt (Nat.pow_le_pow_right (by decide) (by omega))

theorem toWord_lt (page : PageNumber) : page.toWord < 256 ^ 8 := by
  have hIndex := page.pageIndex_lt_region
  have hRegion := page.region_lt
  have hOrder := page.pageOrder_lt
  unfold toWord
  omega

/- The three fields are read back from the word. -/
theorem ofWord_toWord (page : PageNumber) : ofWord page.toWord = page := by
  have hIndex := page.pageIndex_lt_region
  have hRegion := page.region_lt
  have hOrder := page.pageOrder_lt
  have hReadOrder : page.toWord / 2 ^ 59 % 2 ^ 5 = page.pageOrder := by
    unfold toWord
    omega
  have hReadRegion : page.toWord / 2 ^ 20 % 2 ^ 20 = page.region := by
    unfold toWord
    omega
  have hReadIndex : page.toWord % 2 ^ (20 - page.pageOrder) = page.pageIndex := by
    -- the bits above the index are a multiple of the mask
    have hSplit : 2 ^ 20 = 2 ^ (20 - page.pageOrder) * 2 ^ (20 - (20 - page.pageOrder)) := by
      rw [← Nat.pow_add]
      congr 1
      omega
    have hWord : page.toWord = page.pageIndex + 2 ^ (20 - page.pageOrder) *
            (2 ^ (20 - (20 - page.pageOrder)) * (page.region + page.pageOrder * 2 ^ 39)) := by
      rw [← Nat.mul_assoc, ← hSplit]
      unfold toWord
      ring
    rw [hWord, Nat.add_mul_mod_self_left, Nat.mod_eq_of_lt page.pageIndex_lt]
  rcases page with ⟨_, _, _, _, _, _⟩
  simp only at hReadOrder hReadRegion hReadIndex
  simp only [ofWord, hReadOrder, hReadRegion, hReadIndex]

/- A page number is read back from its bytes. -/
theorem fromLeBytes_toLeBytes (page : PageNumber) : fromLeBytes page.toLeBytes = page := by
  rw [fromLeBytes, toLeBytes, ofLe_toLe page.toWord_lt, ofWord_toWord]

end PageNumber

-- B-Tree Headers

/- A 128-bit checksum. -/
abbrev Checksum := BitVec 128

/- Root page, checksum and number of entries of a tree. -/
structure BtreeHeader where
  root : PageNumber
  checksum : Checksum
  length : UInt64
  deriving DecidableEq

namespace BtreeHeader

def toLeBytes (header : BtreeHeader) : Bytes :=
  header.root.toLeBytes ++ toLe 16 header.checksum.toNat ++ toLe 8 header.length.toNat

def fromLeBytes (data : Bytes) : BtreeHeader where
  root := PageNumber.fromLeBytes (data.slice 0 8)
  checksum := BitVec.ofNat 128 (ofLe (data.slice 8 16))
  length := UInt64.ofNat (ofLe (data.slice 24 8))

@[simp] theorem length_toLeBytes (header : BtreeHeader) : header.toLeBytes.length = 32 := by
  simp [toLeBytes]

/- A header is read back from its bytes. -/
theorem fromLeBytes_toLeBytes (header : BtreeHeader) : fromLeBytes header.toLeBytes = header := by
  have hRoot : header.toLeBytes.slice 0 8 = header.root.toLeBytes := by
    unfold toLeBytes
    rw [List.append_assoc]
    rw [slice, List.drop_zero]
    exact List.take_left' header.root.length_toLeBytes
  have hChecksum : header.toLeBytes.slice 8 16 = toLe 16 header.checksum.toNat := by
    unfold toLeBytes
    rw [List.append_assoc]
    exact slice_append_middle (by simp) (by simp) _
  have hLength : header.toLeBytes.slice 24 8 = toLe 8 header.length.toNat := by
    exact slice_append_last (by simp) (by simp)
  have hChecksumFits : header.checksum.toNat < 256 ^ 16 := header.checksum.isLt
  have hLengthFits : header.length.toNat < 256 ^ 8 := header.length.toNat_lt
  rcases header with ⟨_, _, _⟩
  simp only [fromLeBytes, hRoot, hChecksum, hLength, PageNumber.fromLeBytes_toLeBytes,
    ofLe_toLe hChecksumFits, ofLe_toLe hLengthFits]
  simp

end BtreeHeader

end Redbx

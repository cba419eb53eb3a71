import Mathlib.Data.List.Basic
import Mathlib.Data.Nat.Basic
import Mathlib.Tactic.Ring

/-
  Byte strings, little-endian integers and byte ranges.

  Key theorems include:
    * `Bytes.slice_overwrite_of_ge`, `Bytes.ofLe_toLe`
-/

-- Byte Strings

/- A byte string of any length. -/
abbrev Bytes := List UInt8

namespace Bytes

open List

/- `n` zero bytes. -/
def zeros (n : Nat) : Bytes := List.replicate n 0

@[simp] theorem length_zeros (n : Nat) : (zeros n).length = n := by
  simp [zeros]

/- The `len` bytes that start at `start`. -/
def slice (data : Bytes) (start len : Nat) : Bytes := (data.drop start).take len

@[simp] theorem length_slice (data : Bytes) (start len : Nat) :
    (data.slice start len).length = min len (data.length - start) := by
  simp [slice]

variable {data : Bytes} {start len : Nat}

/- A range inside the string has its full length. -/
theorem length_slice_of_le (hRange : start + len ≤ data.length) :
    (data.slice start len).length = len := by
  rw [length_slice]
  omega

theorem getElem?_slice (data : Bytes) (start len i : Nat) :
    (data.slice start len)[i]? = if i < len then data[start + i]? else none := by
  simp [slice, getElem?_take]

theorem slice_congr {a b : Bytes} {start pos len : Nat}
    (hBytes : ∀ i < len, a[start + i]? = b[pos + i]?) : a.slice start len = b.slice pos len := by
  apply ext_getElem?
  intro i
  rw [getElem?_slice, getElem?_slice]
  by_cases hi : i < len
  · rw [if_pos hi, if_pos hi, hBytes i hi]
  · rw [if_neg hi, if_neg hi]

theorem slice_append_left {a : Bytes} {start len : Nat} (hRange : start + len ≤ a.length)
    (b : Bytes) : (a ++ b).slice start len = a.slice start len :=
  slice_congr fun _ _ => getElem?_append_left (by omega)

theorem slice_append_slice (data : Bytes) (start first second : Nat) :
    data.slice start first ++ data.slice (start + first) second =
      data.slice start (first + second) := by
  simp only [slice]
  rw [take_add, drop_drop]

theorem slice_zeros (n start len : Nat) :
    (zeros n).slice start len = zeros (min len (n - start)) := by
  simp only [slice, zeros, drop_replicate, take_replicate]

theorem take_slice (data : Bytes) (start len n : Nat) (hLen : n ≤ len) :
    (data.slice start len).take n = data.slice start n := by
  simp [slice, take_take, Nat.min_eq_left hLen]

theorem slice_append_middle
    {front middle : Bytes} (hStart : front.length = start) (hLen : middle.length = len)
    (back : Bytes) :
    (front ++ (middle ++ back)).slice start len = middle := by
  rw [slice, drop_left' hStart, take_left' hLen]

theorem slice_append_last
    {front last : Bytes} (hStart : front.length = start) (hLen : last.length = len) :
    (front ++ last).slice start len = last := by
  rw [slice, drop_left' hStart, take_of_length_le (le_of_eq hLen)]

theorem take_eq_take_iff_getElem? (first second : Bytes) (n : Nat) :
    first.take n = second.take n ↔ ∀ i < n, first[i]? = second[i]? := by
  constructor
  · intro hEq i hi
    rw [← getElem?_take_of_lt hi, hEq, getElem?_take_of_lt hi]
  · intro hAll
    apply ext_getElem?
    intro i
    by_cases hi : i < n
    · rw [getElem?_take_of_lt hi, getElem?_take_of_lt hi, hAll i hi]
    · rw [getElem?_take_eq_none (by omega), getElem?_take_eq_none (by omega)]

-- Overwriting A Range

/-
  Replace the bytes from `start` on by `buf`. A string that ends before `start` is first filled up
  with zeros, and one that ends inside the range is extended.
-/
def overwrite (data : Bytes) (start : Nat) (buf : Bytes) : Bytes :=
  data.take start ++ zeros (start - data.length) ++ buf ++ data.drop (start + buf.length)

variable {start : Nat}

/- Overwriting inside the string keeps its length. -/
theorem length_overwrite {data buf : Bytes} (hRange : start + buf.length ≤ data.length) :
    (data.overwrite start buf).length = data.length := by
  simp only [overwrite, length_append, length_take, length_zeros, length_drop]
  omega

/- Inside the string no zeros are filled in. -/
theorem overwrite_eq (hStart : start ≤ data.length) (buf : Bytes) :
    data.overwrite start buf = data.take start ++ buf ++ data.drop (start + buf.length) := by
  have hNone : start - data.length = 0 := by omega
  simp [overwrite, hNone, zeros]

/- The overwritten range reads back as the buffer. -/
theorem slice_overwrite_self (data : Bytes) (start : Nat) (buf : Bytes) :
    (data.overwrite start buf).slice start buf.length = buf := by
  have hFront : (data.take start ++ zeros (start - data.length)).length = start := by
    simp only [length_append, length_take, length_zeros]
    omega
  simp only [slice, overwrite]
  rw [append_assoc (_ ++ _) buf, drop_left' hFront, take_left]

/- A write extends the string up to its end. -/
theorem le_length_overwrite (data : Bytes) (start : Nat) (buf : Bytes) :
    start + buf.length ≤ (data.overwrite start buf).length := by
  simp only [overwrite, length_append, length_take, length_zeros, length_drop]
  omega

theorem length_overwrite_max (data : Bytes) (start : Nat) (buf : Bytes) :
    (data.overwrite start buf).length = max data.length (start + buf.length) := by
  simp only [overwrite, length_append, length_take, length_zeros, length_drop]
  omega

/- A write reaches no further than its end or the old one. -/
theorem length_overwrite_le (data : Bytes) (start : Nat) (buf : Bytes) :
    (data.overwrite start buf).length ≤ max data.length (start + buf.length) :=
  (length_overwrite_max data start buf).le

/- A range that ends before the write is unchanged. -/
theorem slice_overwrite_before
    {start pos len : Nat} (hInside : pos + len ≤ data.length) (buf : Bytes)
    (hBefore : pos + len ≤ start) :
    (data.overwrite start buf).slice pos len = data.slice pos len := by
  unfold overwrite
  refine slice_congr fun i hi => ?_
  rw [append_assoc, append_assoc, getElem?_append_left (by simp; omega),
    getElem?_take_of_lt (by omega)]

/- A write beyond the end fills the gap with zeros. -/
theorem slice_overwrite_gap
    {start pos len : Nat} (buf : Bytes) (hPos : data.length ≤ pos) (hBefore : pos + len ≤ start) :
    (data.overwrite start buf).slice pos len = zeros len := by
  unfold overwrite
  apply ext_getElem?
  intro i
  rw [getElem?_slice]
  by_cases hi : i < len
  · rw [if_pos hi, append_assoc, append_assoc,
      getElem?_append_right (by simp; omega), getElem?_append_left (by simp; omega)]
    simp only [zeros]
    rw [getElem?_replicate_of_lt (by simp; omega), getElem?_replicate_of_lt hi]
  · rw [if_neg hi, getElem?_eq_none]
    simp only [length_zeros]
    omega

/- A range that starts after the write is unchanged. -/
theorem slice_overwrite_of_ge
    {start pos : Nat} (hStart : start ≤ data.length) (buf : Bytes) (len : Nat)
    (hAfter : start + buf.length ≤ pos) :
    (data.overwrite start buf).slice pos len = data.slice pos len := by
  rw [overwrite_eq hStart]
  have hTake : (data.take start).length = start := by simp [hStart]
  refine slice_congr fun i hi => ?_
  rw [getElem?_append_right (by simp; omega), getElem?_drop]
  congr 1
  simp only [length_append, hTake]
  omega

/- The bytes after a write inside the string. -/
theorem getElem?_overwrite
    {data buf : Bytes} (hRange : start + buf.length ≤ data.length) (i : Nat) :
    (data.overwrite start buf)[i]? = if start ≤ i ∧ i < start + buf.length then
        buf[i - start]?
      else
        data[i]? := by
  have hTake : (data.take start).length = start := by
    rw [length_take]
    omega
  rw [overwrite_eq (by omega), append_assoc, getElem?_append, hTake]
  by_cases hBefore : i < start
  · rw [if_pos hBefore, if_neg (by omega), getElem?_take_of_lt hBefore]
  · rw [if_neg hBefore, getElem?_append]
    by_cases hIn : i - start < buf.length
    · rw [if_pos hIn, if_pos (by omega)]
    · rw [if_neg hIn, if_neg (by omega), getElem?_drop]
      congr 1
      omega

/- Outside the range the bytes stay, those beyond the end being read as zeros. -/
theorem getD_overwrite (data : Bytes) (start : Nat) (buf : Bytes) (i : Nat) :
    (data.overwrite start buf).getD i 0 =
      if start ≤ i ∧ i < start + buf.length then buf.getD (i - start) 0 else data.getD i 0 := by
  have hFront : (data.take start ++ zeros (start - data.length)).length = start := by
    simp only [length_append, length_take, length_zeros]
    omega
  simp only [getD_eq_getElem?_getD, overwrite]
  rcases Nat.lt_or_ge i start with hBefore | hFrom
  · rw [if_neg (by omega), append_assoc (_ ++ _), getElem?_append_left (by omega)]
    rcases Nat.lt_or_ge i data.length with hIn | hOut
    · rw [getElem?_append_left (by simp; omega), getElem?_take_of_lt hBefore]
    · rw [getElem?_append_right (by simp; omega), getElem?_eq_none hOut, zeros, getElem?_replicate,
        if_pos (by simp; omega)]
      rfl
  · rcases Nat.lt_or_ge i (start + buf.length) with hIn | hAfter
    · rw [if_pos ⟨hFrom, hIn⟩, append_assoc (_ ++ _), getElem?_append_right (by omega), hFront,
        getElem?_append_left (by omega)]
    · rw [if_neg (by omega), getElem?_append_right (by simp [hFront]; omega), getElem?_drop]
      congr 2
      rw [length_append, hFront]
      omega

-- Little-Endian Integers

/- The `width` low bytes of `n`, lowest first. -/
def toLe : (width n : Nat) → Bytes
  | 0, _ => []
  | width + 1, n =>
    UInt8.ofNat n :: toLe width (n / 256)

/- The number whose bytes, lowest first, are `data`. -/
def ofLe : Bytes → Nat
  | [] => 0
  | b :: rest => b.toNat + 256 * ofLe rest

@[simp] theorem length_toLe (width n : Nat) : (toLe width n).length = width := by
  induction width generalizing n with
  | zero => rfl
  | succ _ ih => simp [toLe, ih]

/- Decoding gives the number back, modulo the width. -/
theorem ofLe_toLe_mod (width n : Nat) : ofLe (toLe width n) = n % 256 ^ width := by
  induction width generalizing n with
  | zero => simp [toLe, ofLe, Nat.mod_one]
  | succ width ih =>
    have hByte : (UInt8.ofNat n).toNat = n % 256 := by simp
    simp only [toLe, ofLe, hByte, ih]
    rw [Nat.pow_succ, Nat.mul_comm (256 ^ width) 256, Nat.mod_mul]

/- A number that fits is decoded exactly. -/
theorem ofLe_toLe {width n : Nat} (hFits : n < 256 ^ width) : ofLe (toLe width n) = n := by
  rw [ofLe_toLe_mod, Nat.mod_eq_of_lt hFits]

theorem toLe_ofLe (data : Bytes) : toLe data.length (ofLe data) = data := by
  induction data with
  | nil => rfl
  | cons b rest ih =>
    have hByte : UInt8.ofNat (b.toNat + 256 * ofLe rest) = b := by
      apply UInt8.toNat_inj.mp
      simp [Nat.mod_eq_of_lt b.toNat_lt]
    have hRest : (b.toNat + 256 * ofLe rest) / 256 = ofLe rest := by
      have hLt := b.toNat_lt
      omega
    simp only [length_cons, toLe, ofLe, hByte, hRest, ih]

end Bytes

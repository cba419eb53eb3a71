import Mathlib.Data.List.Basic
import Mathlib.Data.Nat.Basic
import Mathlib.Algebra.Group.Nat.Defs
import Mathlib.Tactic.Push

/-
  The bitmaps of the page allocators.

  `U64GroupedBitmap` keeps bits in groups of 64, and `BtreeBitmap` stacks such levels: a bit of a
  level says that the group below it is full. An operation that fails an assertion, or reads past
  the groups, gives `none`.

  Seen from outside a level is a function `bit` on all indexes that is set from the length on, so
  that spare capacity makes no difference.

  Key theorems include:
    * `BtreeBitmap.resize_spec`, `BtreeBitmap.new_sound`
-/

namespace Redbx

open List Option

-- Groups Of 64 Bits

/- The number of ones below the lowest zero, `u64::trailing_ones`. -/
def trailingOnes (group : BitVec 64) : Nat :=
  ((List.range 64).find? fun i => !group.getLsbD i).getD 64

/- A bitmap in groups of 64. -/
structure U64GroupedBitmap where
  len : Nat
  data : List (BitVec 64)
  deriving DecidableEq

namespace U64GroupedBitmap

variable (bitmap : U64GroupedBitmap)

/- The groups that hold so many elements. -/
def requiredWords (elements : Nat) : Nat := (elements + 63) / 64

/- All bits set. -/
def newFull (len capacity : Nat) : U64GroupedBitmap where
  len := len
  data := List.replicate (requiredWords capacity) (BitVec.allOnes 64)

def selectMask (bit : Nat) : BitVec 64 := 1#64 <<< bit

def get (bit : Nat) : Option Bool :=
  if bit < bitmap.len then do
    let group ← bitmap.data[bit / 64]?
    some (group &&& selectMask (bit % 64) != 0#64)
  else
    none

/- The flag says that the bit's group is all set. -/
def set (bit : Nat) : Option (U64GroupedBitmap × Bool) :=
  if bit < bitmap.len then do
    let group ← bitmap.data[bit / 64]?
    let group := group ||| selectMask (bit % 64)
    some ({ bitmap with data := bitmap.data.set (bit / 64) group },
      group == BitVec.allOnes 64)
  else
    none

def clear (bit : Nat) : Option U64GroupedBitmap :=
  if bit < bitmap.len then do
    let group ← bitmap.data[bit / 64]?
    some { bitmap with data := bitmap.data.set (bit / 64) (group &&& ~~~selectMask (bit % 64)) }
  else
    none

/- The first unset bit of one group. -/
def firstUnset (startBit endBit : Nat) : Option (Option Nat) :=
  if endBit = startBit - startBit % 64 + 64 then
    if bitmap.len = 0 then
      some none
    else do
      let group ← bitmap.data[startBit / 64]?
      let mask := selectMask (startBit % 64) - 1#64
      let ones := trailingOnes (group ||| mask)
      if ones = 64 then
        some none
      else
        some (some (startBit + ones - startBit % 64))
  else
    none

/- Over all groups, also those above the length. -/
def anyUnset : Bool := bitmap.data.any (· != BitVec.allOnes 64)

/- New groups, and then each new bit by itself. -/
def resize (newLen : Nat) (full : Bool) : Option U64GroupedBitmap :=
  let fill := if full then BitVec.allOnes 64 else 0#64
  let data := bitmap.data ++ List.replicate (requiredWords newLen - bitmap.data.length) fill
  (List.range' bitmap.len (newLen - bitmap.len)).foldlM (fun bitmap i =>
      if full then (bitmap.set i).map Prod.fst
      else bitmap.clear i)
    ⟨newLen, data⟩

-- A Level Seen From Outside

/- A group, full where there is none. -/
def word (i : Nat) : BitVec 64 :=
  bitmap.data[i]?.getD (BitVec.allOnes 64)

/- A bit, set where there is none. -/
def bit (i : Nat) : Bool := (bitmap.word (i / 64)).getLsbD (i % 64)

/- A group has no unset bit. -/
def full (i : Nat) : Bool := bitmap.word i == BitVec.allOnes 64

/- There are groups for all bits, and those above are set. -/
structure Padded : Prop where
  words : requiredWords bitmap.len ≤ bitmap.data.length
  above : ∀ i, bitmap.len ≤ i → bitmap.bit i = true

variable {bitmap : U64GroupedBitmap} {i : Nat}

theorem full_iff : bitmap.full i = true ↔ ∀ k, k / 64 = i → bitmap.bit k = true := by
  rw [full, beq_iff_eq]
  constructor
  · rintro hFull k rfl
    rw [bit, hFull, BitVec.getLsbD_allOnes]
    simpa using Nat.mod_lt k (by decide : 0 < 64)
  · intro hBits
    apply BitVec.eq_of_getLsbD_eq
    intro k hk
    have hBit := hBits (64 * i + k) (by omega)
    rw [bit, show (64 * i + k) / 64 = i by omega, show (64 * i + k) % 64 = k by omega] at hBit
    rw [hBit, BitVec.getLsbD_allOnes]
    simp [hk]

variable (hPadded : bitmap.Padded)
include hPadded

/- A group whose bits all lie above the length is full. -/
theorem Padded.full_above (hAbove : bitmap.len ≤ 64 * i) : bitmap.full i = true := by
  refine full_iff.mpr ?_
  rintro k rfl
  exact hPadded.above k (by omega)

theorem Padded.lt_len (hBit : bitmap.bit i = false) : i < bitmap.len := by
  by_contra hAbove
  rw [hPadded.above i (by omega)] at hBit
  exact Bool.noConfusion hBit

variable (hLt : i < bitmap.len)
include hLt

theorem Padded.getElem?_word : bitmap.data[i / 64]? = some (bitmap.word (i / 64)) := by
  have hWords := hPadded.words
  have hIndex : i / 64 < bitmap.data.length := by
    unfold requiredWords at hWords
    omega
  rw [word, getElem?_eq_getElem hIndex]
  rfl

omit hLt in
omit hPadded in
theorem getLsbD_selectMask {bit k : Nat} (hBit : bit < 64) :
    (selectMask bit).getLsbD k = decide (k = bit) := by
  rw [selectMask, BitVec.getLsbD_shiftLeft]
  by_cases hEq : k = bit
  · subst hEq
    simp [hBit]
  · by_cases hLt : k < bit
    · simp [hLt, hEq]
    · have hPos : k - bit ≠ 0 := by omega
      simp [hEq, hPos]

theorem get_eq : bitmap.get i = some (bitmap.bit i) := by
  have hMod : i % 64 < 64 := Nat.mod_lt i (by decide)
  rw [get, if_pos hLt, hPadded.getElem?_word hLt]
  simp only [bind_eq_bind, bind_some, bit]
  congr 1
  generalize bitmap.word (i / 64) = group
  cases hBit : group.getLsbD (i % 64) with
  | false =>
    rw [bne_eq_false_iff_eq]
    apply BitVec.eq_of_getLsbD_eq
    intro k _
    rw [BitVec.getLsbD_and, getLsbD_selectMask hMod]
    by_cases hk : k = i % 64
    · simp [hk, hBit]
    · simp [hk]
  | true =>
    rw [bne_iff_ne]
    intro hZero
    have hAnd := congrArg (·.getLsbD (i % 64)) hZero
    simp [getLsbD_selectMask hMod, hBit] at hAnd

/- The groups after one of them is replaced. -/
theorem word_set (group : BitVec 64) (k : Nat) :
    word { bitmap with data := bitmap.data.set (i / 64) group } k =
      if k = i / 64 then group else bitmap.word k := by
  have hWords := hPadded.words
  have hIndex : i / 64 < bitmap.data.length := by
    unfold requiredWords at hWords
    omega
  unfold word
  rw [getElem?_set]
  by_cases hk : k = i / 64
  · subst hk
    simp [hIndex]
  · rw [if_neg (fun h => hk h.symm), if_neg hk]

theorem bit_set (group : BitVec 64) (value : Bool)
    (hGroup : ∀ k < 64, group.getLsbD k = if k = i % 64 then value
      else (bitmap.word (i / 64)).getLsbD k)
    (k : Nat) :
    bit { bitmap with data := bitmap.data.set (i / 64) group } k =
      if k = i then value else bitmap.bit k := by
  rw [bit, word_set hPadded hLt]
  by_cases hWord : k / 64 = i / 64
  · rw [if_pos hWord, hGroup _ (Nat.mod_lt k (by decide))]
    by_cases hk : k = i
    · rw [if_pos (by rw [hk]), if_pos hk]
    · rw [if_neg (by omega), if_neg hk, bit, hWord]
  · rw [if_neg hWord, if_neg (by rintro rfl; exact hWord rfl), bit]

theorem padded_of_bit {changed : U64GroupedBitmap} {value : Bool}
    (hBit : ∀ k, changed.bit k = if k = i then value else bitmap.bit k)
    (hLen : changed.len = bitmap.len) (hData : changed.data.length = bitmap.data.length) :
    changed.Padded where
  words := by
    rw [hLen, hData]
    exact hPadded.words
  above := by
    intro k hk
    rw [hBit, if_neg (by omega)]
    exact hPadded.above k (by omega)

theorem set_spec :
    ∃ changed : U64GroupedBitmap, bitmap.set i = some (changed, changed.full (i / 64)) ∧
        changed.len = bitmap.len ∧ changed.Padded ∧
        ∀ k, changed.bit k = if k = i then true else bitmap.bit k := by
  have hMod : i % 64 < 64 := Nat.mod_lt i (by decide)
  rw [set, if_pos hLt, hPadded.getElem?_word hLt]
  simp only [bind_eq_bind, bind_some]
  have hBit := bit_set hPadded hLt (bitmap.word (i / 64) ||| selectMask (i % 64)) true (by
      intro k _
      rw [BitVec.getLsbD_or, getLsbD_selectMask hMod]
      by_cases hk : k = i % 64
      · simp [hk]
      · simp [hk])
  have hPadded' := padded_of_bit hPadded hLt hBit rfl (by simp)
  refine ⟨⟨bitmap.len, bitmap.data.set (i / 64) (bitmap.word (i / 64) ||| selectMask (i % 64))⟩,
    ?_, rfl, hPadded', hBit⟩
  rw [full, word_set hPadded hLt, if_pos rfl]

theorem clear_spec : ∃ changed : U64GroupedBitmap, bitmap.clear i = some changed ∧
        changed.len = bitmap.len ∧ changed.Padded ∧
        ∀ k, changed.bit k = if k = i then false else bitmap.bit k := by
  have hMod : i % 64 < 64 := Nat.mod_lt i (by decide)
  rw [clear, if_pos hLt, hPadded.getElem?_word hLt]
  simp only [bind_eq_bind, bind_some]
  have hBit := bit_set hPadded hLt (bitmap.word (i / 64) &&& ~~~selectMask (i % 64)) false (by
      intro k hk
      rw [BitVec.getLsbD_and, BitVec.getLsbD_not, getLsbD_selectMask hMod]
      by_cases hEq : k = i % 64
      · simp [hEq]
      · simp [hEq, hk])
  have hPadded' := padded_of_bit hPadded hLt hBit rfl (by simp)
  exact ⟨_, rfl, rfl, hPadded', hBit⟩

omit hLt

omit hPadded in
/- The ones of a group below its first zero. -/
theorem trailingOnes_cases (group : BitVec 64) :
    (trailingOnes group = 64 ∧ group = BitVec.allOnes 64) ∨ (trailingOnes group < 64 ∧
        group.getLsbD (trailingOnes group) = false ∧
        ∀ k < trailingOnes group, group.getLsbD k = true) := by
  unfold trailingOnes
  cases hFind : (List.range 64).find? (fun i => !group.getLsbD i) with
  | none =>
    left
    refine ⟨rfl, ?_⟩
    apply BitVec.eq_of_getLsbD_eq
    intro k hk
    have hAll := find?_eq_none.mp hFind k (mem_range.mpr hk)
    rw [BitVec.getLsbD_allOnes]
    simpa [hk] using hAll
  | some k =>
    right
    rcases find?_range_eq_some.mp hFind with ⟨hUnset, hMem, hBefore⟩
    exact ⟨mem_range.mp hMem, by simpa using hUnset, fun j hj => by simpa using hBefore j hj⟩

theorem firstUnset_spec (hNot : bitmap.full i = false) :
    ∃ k, bitmap.firstUnset (i * 64) (i * 64 + 64) = some (some k) ∧
      k / 64 = i ∧ bitmap.bit k = false ∧
      ∀ j, j / 64 = i → j < k → bitmap.bit j = true := by
  have hLen : 64 * i < bitmap.len := by
    by_contra hAbove
    rw [hPadded.full_above (by omega)] at hNot
    exact Bool.noConfusion hNot
  have hData := hPadded.getElem?_word hLen
  rw [show 64 * i / 64 = i by omega] at hData
  have hMask : selectMask (i * 64 % 64) - 1#64 = 0#64 := by
    rw [show i * 64 % 64 = 0 by omega]
    decide
  rw [firstUnset, if_pos (by omega), if_neg (by omega), show i * 64 / 64 = i by omega, hData]
  simp only [bind_eq_bind, bind_some, hMask, BitVec.or_zero]
  rcases trailingOnes_cases (bitmap.word i) with ⟨_, hAll⟩ | ⟨hLt, hUnset, hBefore⟩
  · rw [full, hAll] at hNot
    simp at hNot
  · generalize trailingOnes (bitmap.word i) = ones at *
    refine ⟨i * 64 + ones, ?_, by omega, ?_, ?_⟩
    · rw [if_neg (by omega), show i * 64 + ones - i * 64 % 64 = i * 64 + ones by
          omega]
    · rw [bit, show (i * 64 + ones) / 64 = i by omega, show (i * 64 + ones) % 64 = ones by omega]
      exact hUnset
    · rintro j rfl hj
      rw [bit]
      exact hBefore _ (by omega)

/- The search in the only group of the top level. -/
theorem firstUnset_root (hLen : bitmap.len ≤ 64) :
    (bitmap.firstUnset 0 64 = some none ∧ ∀ k, bitmap.bit k = true) ∨
      ∃ k, bitmap.firstUnset 0 64 = some (some k) ∧ bitmap.bit k = false ∧
        ∀ j < k, bitmap.bit j = true := by
  cases hFull : bitmap.full 0 with
  | false =>
    right
    rcases firstUnset_spec hPadded hFull with ⟨k, hFirst, hGroup, hUnset, hBefore⟩
    exact ⟨k, hFirst, hUnset, fun j hj => hBefore j (by omega) hj⟩
  | true =>
    left
    have hBits := full_iff.mp hFull
    refine ⟨?_, ?_⟩
    · by_cases hZero : bitmap.len = 0
      · rw [firstUnset, if_pos rfl, if_pos hZero]
      · have hData := hPadded.getElem?_word (Nat.pos_of_ne_zero hZero)
        rw [full, beq_iff_eq] at hFull
        have hOnes : trailingOnes (BitVec.allOnes 64) = 64 := by decide
        have hMask : selectMask (0 % 64) - 1#64 = 0#64 := by decide
        rw [firstUnset, if_pos rfl, if_neg hZero, hData]
        simp only [bind_eq_bind, bind_some,
          hMask, BitVec.or_zero, Nat.zero_div, hFull, hOnes, if_true]
    · intro k
      by_cases hk : k < 64
      · exact hBits k (by omega)
      · exact hPadded.above k (by omega)

omit hPadded

/- Setting bits that are set already changes nothing. -/
theorem foldlM_set_spec
    (indexes : List Nat) (hPadded : bitmap.Padded) (hLt : ∀ k ∈ indexes, k < bitmap.len)
    (hSet : ∀ k ∈ indexes, bitmap.bit k = true) :
    ∃ changed : U64GroupedBitmap, indexes.foldlM (fun bitmap k =>
            if true then (bitmap.set k).map Prod.fst
            else bitmap.clear k) bitmap =
        some changed ∧
        changed.len = bitmap.len ∧ changed.Padded ∧
        ∀ k, changed.bit k = bitmap.bit k := by
  induction indexes generalizing bitmap with
  | nil => exact ⟨bitmap, rfl, rfl, hPadded, fun _ => rfl⟩
  | cons first rest ih =>
    rcases set_spec hPadded (hLt first (mem_cons_self ..)) with
      ⟨next, hSetFirst, hLen, hPaddedNext, hBit⟩
    have hSame : ∀ k, next.bit k = bitmap.bit k := by
      intro k
      rw [hBit]
      by_cases hk : k = first
      · rw [if_pos hk, hk, hSet first (mem_cons_self ..)]
      · rw [if_neg hk]
    obtain ⟨changed, hFold, hLen', hPadded', hBit'⟩ :=
      ih hPaddedNext (fun k hk => by
          rw [hLen]
          exact hLt k (mem_cons_of_mem _ hk))
        (fun k hk => by
          rw [hSame]
          exact hSet k (mem_cons_of_mem _ hk))
    refine ⟨changed, ?_, hLen'.trans hLen, hPadded', fun k => (hBit' k).trans (hSame k)⟩
    rw [foldlM_cons, if_pos rfl, hSetFirst]
    exact hFold

/- With new bits set, and dropped bits set before, resizing keeps every bit. -/
theorem resize_spec
    (newLen : Nat) (hPadded : bitmap.Padded) (hDropped : ∀ k, newLen ≤ k → bitmap.bit k = true) :
    ∃ changed : U64GroupedBitmap, bitmap.resize newLen true = some changed ∧
        changed.len = newLen ∧ changed.Padded ∧
        ∀ k, changed.bit k = bitmap.bit k := by
  let extended : U64GroupedBitmap := ⟨newLen, bitmap.data ++ List.replicate
      (requiredWords newLen - bitmap.data.length) (BitVec.allOnes 64)⟩
  have hWord : ∀ k, extended.word k = bitmap.word k := by
    intro k
    unfold word
    by_cases hk : k < bitmap.data.length
    · rw [getElem?_append_left hk]
    · rw [getElem?_append_right (by omega), getElem?_eq_none (by omega : _ ≤ k), getElem?_replicate]
      split
      · rfl
      · rfl
  have hBit : ∀ k, extended.bit k = bitmap.bit k := by
    intro k
    rw [bit, hWord, bit]
  have hExtended : extended.Padded := by
    refine ⟨?_, ?_⟩
    · simp only [extended, length_append, length_replicate]
      omega
    · intro k hk
      rw [hBit]
      exact hDropped k hk
  obtain ⟨changed, hFold, hLen, hPadded', hBit'⟩ :=
    foldlM_set_spec (List.range' bitmap.len (newLen - bitmap.len)) hExtended (fun k hk => by
        obtain ⟨hLow, hHigh⟩ := mem_range'_1.mp hk
        show k < newLen
        omega)
      (fun k hk => by
        rw [hBit]
        exact hPadded.above k (mem_range'_1.mp hk).1)
  exact ⟨changed, hFold, hLen, hPadded', fun k => (hBit' k).trans (hBit k)⟩

theorem newFull_bit (len capacity k : Nat) : (newFull len capacity).bit k = true := by
  have hWord : (newFull len capacity).word (k / 64) = BitVec.allOnes 64 := by
    rw [word, newFull, getElem?_replicate]
    split
    · rfl
    · rfl
  rw [bit, hWord, BitVec.getLsbD_allOnes]
  simpa using Nat.mod_lt k (by decide : 0 < 64)

theorem newFull_padded {len capacity : Nat} (hLen : len ≤ capacity) :
    (newFull len capacity).Padded where
  words := by
    simp only [newFull, length_replicate, requiredWords]
    omega
  above := fun k _ => newFull_bit len capacity k

end U64GroupedBitmap

open U64GroupedBitmap

-- Levels

/-
  A bitmap with levels above it: the bits themselves are in `leaf`, and `parents` goes from the
  level above the leaf up to the root.
-/
structure BtreeBitmap where
  leaf : U64GroupedBitmap
  parents : List U64GroupedBitmap
  deriving DecidableEq

namespace BtreeBitmap

variable (bitmap : BtreeBitmap)

/- The levels in the order of the source, root first. -/
def heights : List U64GroupedBitmap :=
  (bitmap.leaf :: bitmap.parents).reverse

def hasUnset : Bool := bitmap.leaf.anyUnset

def get (i : Nat) : Option Bool := bitmap.leaf.get i

def len : Nat := bitmap.leaf.len

/- From an unset bit of a level to an unset bit of the group it stands for, down to the leaf. -/
def descend : List U64GroupedBitmap → Nat → Option Nat
  | [], entry => some entry
  | level :: below, entry => do
    let next ← level.firstUnset (entry * 64) (entry * 64 + 64)
    descend below (← next)

def findFirstUnset : Option (Option Nat) :=
  match bitmap.heights with
  | [] => none
  | root :: below => do
    match ← root.firstUnset 0 64 with
    | none => some none
    | some entry => do
      let found ← descend below entry
      some (some found)

/- The levels above the leaf of a new bitmap. -/
def newParents (numPages capacity : Nat) : List U64GroupedBitmap :=
  if capacity ≤ 64 then
    []
  else
    newFull (requiredWords numPages) (requiredWords capacity) ::
      newParents (requiredWords numPages) (requiredWords capacity)
termination_by capacity
decreasing_by
  unfold requiredWords
  omega

/- `new`: no id is free. -/
def new (numPages capacity : Nat) : BtreeBitmap where
  leaf := newFull numPages capacity
  parents := newParents numPages capacity

def resizeParents (full : Bool) : List U64GroupedBitmap → Nat → Option (List U64GroupedBitmap)
  | [], _ => some []
  | parent :: rest, newLen => do
    let parent ← parent.resize (requiredWords newLen) full
    let rest ← resizeParents full rest (requiredWords newLen)
    some (parent :: rest)

def resize (newLen : Nat) (full : Bool) : Option BtreeBitmap := do
  let leaf ← bitmap.leaf.resize newLen full
  let parents ← resizeParents full bitmap.parents newLen
  if (parents.getLast?.getD leaf).len ≤ 64 then
    some ⟨leaf, parents⟩
  else
    none

/- Up to the root, `full` being the state of the group below. -/
def updateToRoot : List U64GroupedBitmap → Nat → Bool → Option (List U64GroupedBitmap)
  | [], _, _ => some []
  | parent :: rest, i, true => do
    let (parent, full) ← parent.set (i / 64)
    let rest ← updateToRoot rest (i / 64) full
    some (parent :: rest)
  | parent :: rest, i, false => do
    let parent ← parent.clear (i / 64)
    let rest ← updateToRoot rest (i / 64) false
    some (parent :: rest)

def set (i : Nat) : Option BtreeBitmap := do
  let (leaf, full) ← bitmap.leaf.set i
  let parents ← updateToRoot bitmap.parents i full
  some ⟨leaf, parents⟩

def clear (i : Nat) : Option BtreeBitmap := do
  let leaf ← bitmap.leaf.clear i
  let parents ← updateToRoot bitmap.parents i false
  some ⟨leaf, parents⟩

/- The first unset id, which is then set. -/
def alloc : Option (Option (Nat × BtreeBitmap)) := do
  match ← bitmap.findFirstUnset with
  | none => some none
  | some entry => do
    let bitmap ← bitmap.set entry
    some (some (entry, bitmap))

end BtreeBitmap

-- Linked Levels

/-
  Each level has one bit for each group of the level below, set when the group is full, and the root
  is one group.
-/
def Linked (below : U64GroupedBitmap) : List U64GroupedBitmap → Prop
  | [] => below.Padded ∧ below.len ≤ 64
  | parent :: rest =>
    below.Padded ∧ parent.len = requiredWords below.len ∧ (∀ j, parent.bit j = below.full j) ∧
      Linked parent rest

variable {below : U64GroupedBitmap}

theorem Linked.padded {parents : List U64GroupedBitmap} (hLinked : Linked below parents) :
    below.Padded := by
  cases parents with
  | nil => exact hLinked.1
  | cons => exact hLinked.1

/-
  A change inside one group is carried to the root: the parents are updated at the one entry of that
  group.
-/
theorem updateToRoot_linked (parents : List U64GroupedBitmap) {changed : U64GroupedBitmap} {i : Nat}
    (hLinked : Linked below parents) (hLt : i < below.len) (hLen : changed.len = below.len)
    (hPadded : changed.Padded) (hOthers : ∀ j, j ≠ i / 64 → changed.full j = below.full j) :
    ∃ updated, BtreeBitmap.updateToRoot parents i (changed.full (i / 64)) = some updated ∧
        Linked changed updated ∧
        updated.length = parents.length := by
  induction parents generalizing below changed i with
  | nil =>
    refine ⟨[], ?_, ⟨hPadded, hLen ▸ hLinked.2⟩, rfl⟩
    rfl
  | cons parent rest ih =>
    rcases hLinked with ⟨hBelow, hParentLen, hBits, hRest⟩
    have hEntry : i / 64 < parent.len := by
      rw [hParentLen, requiredWords]
      omega
    -- the parent after its entry was written
    have hWritten : ∀ value (next : U64GroupedBitmap), changed.full (i / 64) = value →
        next.len = parent.len → next.Padded →
        (∀ k, next.bit k = if k = i / 64 then value else parent.bit k) →
        ∃ updated, BtreeBitmap.updateToRoot rest (i / 64) (next.full (i / 64 / 64)) = some updated ∧
            Linked changed (next :: updated) ∧
            updated.length = rest.length := by
      intro value next hValue hNextLen hNextPadded hNextBit
      obtain ⟨updated, hUpdate, hNext, hLength⟩ :=
        ih hRest hEntry hNextLen hNextPadded (by
          intro j hj
          rw [Bool.eq_iff_iff, full_iff, full_iff]
          refine forall_congr' fun k => ?_
          refine imp_congr_right fun hk => ?_
          rw [hNextBit, if_neg (by rintro rfl; omega)])
      refine ⟨updated, hUpdate, ⟨hPadded, ?_, ?_, hNext⟩, hLength⟩
      · rw [hNextLen, hParentLen, hLen]
      · intro j
        rw [hNextBit]
        by_cases hj : j = i / 64
        · rw [if_pos hj, hj, hValue]
        · rw [if_neg hj, hBits, hOthers j hj]
    cases hFull : changed.full (i / 64) with
    | true =>
      rcases U64GroupedBitmap.set_spec hRest.padded hEntry with
        ⟨next, hSet, hNextLen, hNextPadded, hNextBit⟩
      rcases hWritten true next hFull hNextLen hNextPadded hNextBit with
        ⟨updated, hUpdate, hNext, hLength⟩
      refine ⟨next :: updated, ?_, hNext, by
        simp [hLength]⟩
      rw [BtreeBitmap.updateToRoot, hSet]
      simp only [bind_eq_bind, bind_some, hUpdate]
    | false =>
      rcases U64GroupedBitmap.clear_spec hRest.padded hEntry with
        ⟨next, hClear, hNextLen, hNextPadded, hNextBit⟩
      rcases hWritten false next hFull hNextLen hNextPadded hNextBit with
        ⟨updated, hUpdate, hNext, hLength⟩
      have hGroup : next.full (i / 64 / 64) = false := by
        rw [Bool.eq_false_iff]
        intro hAll
        have hBit := full_iff.mp hAll (i / 64) rfl
        rw [hNextBit, if_pos rfl] at hBit
        exact Bool.noConfusion hBit
      rw [hGroup] at hUpdate
      refine ⟨next :: updated, ?_, hNext, by
        simp [hLength]⟩
      rw [BtreeBitmap.updateToRoot, hClear]
      simp only [bind_eq_bind, bind_some, hUpdate]

/- The lowest unset bit of a level. -/
def IsFirstUnset (level : U64GroupedBitmap) (i : Nat) : Prop :=
  level.bit i = false ∧ ∀ j < i, level.bit j = true

theorem descend_append (levels : List U64GroupedBitmap) (level : U64GroupedBitmap) (entry : Nat) :
    BtreeBitmap.descend (levels ++ [level]) entry =
      (BtreeBitmap.descend levels entry).bind fun found => BtreeBitmap.descend [level] found := by
  induction levels generalizing entry with
  | nil => rfl
  | cons _ _ ih =>
    simp only [cons_append, BtreeBitmap.descend, bind_eq_bind, ih, bind_assoc]

theorem search_spec (parents : List U64GroupedBitmap) (hLinked : Linked below parents) :
    ∃ root levels, (below :: parents).reverse = root :: levels ∧
        ((root.firstUnset 0 64 = some none ∧ ∀ k, below.bit k = true) ∨
          ∃ entry, root.firstUnset 0 64 = some (some entry) ∧
            ∃ found, BtreeBitmap.descend levels entry = some found ∧ IsFirstUnset below found) := by
  induction parents generalizing below with
  | nil =>
    refine ⟨below, [], rfl, ?_⟩
    rcases firstUnset_root hLinked.1 hLinked.2 with hNone | ⟨k, hSome, hFirst⟩
    · exact Or.inl hNone
    · exact Or.inr ⟨k, hSome, k, rfl, hFirst⟩
  | cons _ _ ih =>
    rcases hLinked with ⟨hPadded, _, hBits, hRest⟩
    rcases ih hRest with ⟨root, levels, hReverse, hCases⟩
    refine ⟨root, levels ++ [below], by
      rw [reverse_cons, hReverse, cons_append], ?_⟩
    rcases hCases with ⟨hNone, hAll⟩ | ⟨entry, hSome, found, hDescend, hUnset, hBefore⟩
    · refine Or.inl ⟨hNone, ?_⟩
      intro k
      have hFull := hAll (k / 64)
      rw [hBits] at hFull
      exact full_iff.mp hFull k rfl
    · rw [hBits] at hUnset
      rcases firstUnset_spec hPadded hUnset with ⟨k, hFirst, hGroup, hUnsetK, hBeforeK⟩
      refine Or.inr ⟨entry, hSome, k, ?_, hUnsetK, ?_⟩
      · rw [descend_append, hDescend]
        simp only [bind_some, BtreeBitmap.descend, bind_eq_bind, hFirst]
      · intro j hj
        by_cases hSame : j / 64 = found
        · exact hBeforeK j hSame hj
        · have hFull := hBefore (j / 64) (by omega)
          rw [hBits] at hFull
          exact full_iff.mp hFull j rfl

/-
  Resizing keeps the levels linked: a parent's bits above its new length stand for groups above the
  new end.
-/
theorem resizeParents_linked (parents : List U64GroupedBitmap) {changed : U64GroupedBitmap}
    (hLinked : Linked below parents) (hPadded : changed.Padded)
    (hBit : ∀ k, changed.bit k = below.bit k) (hFits : changed.len ≤ 64 ^ (parents.length + 1)) :
    ∃ resized, BtreeBitmap.resizeParents true parents changed.len = some resized ∧
        Linked changed resized ∧
        resized.length = parents.length ∧
        (resized.getLast?.getD changed).len ≤ 64 := by
  induction parents generalizing below changed with
  | nil =>
    have hLen : changed.len ≤ 64 := by simpa using hFits
    exact ⟨[], rfl, ⟨hPadded, hLen⟩, rfl, hLen⟩
  | cons _ _ ih =>
    rcases hLinked with ⟨_, _, hBits, hRest⟩
    have hFull : ∀ j, changed.full j = below.full j := by
      intro j
      rw [Bool.eq_iff_iff, full_iff, full_iff]
      exact forall_congr' fun k =>
        imp_congr_right fun _ => by rw [hBit]
    obtain ⟨next, hResize, hNextLen, hNextPadded, hNextBit⟩ :=
      U64GroupedBitmap.resize_spec (requiredWords changed.len) hRest.padded (by
          intro k hk
          rw [hBits, ← hFull]
          refine hPadded.full_above ?_
          unfold requiredWords at hk
          omega)
    obtain ⟨resized, hOthers, hNext, hLength, hRoot⟩ :=
      ih hRest hNextPadded hNextBit (by
        rw [hNextLen, requiredWords]
        rw [length_cons, Nat.pow_succ] at hFits
        omega)
    rw [hNextLen] at hOthers
    refine ⟨next :: resized, ?_, ⟨hPadded, hNextLen, ?_, hNext⟩, by simp [hLength], ?_⟩
    · simp only [BtreeBitmap.resizeParents, hResize, bind_eq_bind, bind_some, hOthers]
    · intro j
      rw [hNextBit, hBits, hFull]
    · rw [getLast?_cons]
      exact hRoot

-- The Bitmap Seen From Outside

namespace BtreeBitmap

/- The levels are linked. -/
def Sound (bitmap : BtreeBitmap) : Prop := Linked bitmap.leaf bitmap.parents

/- A bit, set from the length on. -/
def bit (bitmap : BtreeBitmap) (i : Nat) : Bool := bitmap.leaf.bit i

/- The number of ids the levels have room for. -/
def room (bitmap : BtreeBitmap) : Nat := 64 ^ (bitmap.parents.length + 1)

variable {bitmap : BtreeBitmap} {i : Nat}

variable (hSound : bitmap.Sound)
include hSound

theorem lt_len (hBit : bitmap.bit i = false) : i < bitmap.len := (Linked.padded hSound).lt_len hBit

theorem get_eq (hLt : i < bitmap.len) : bitmap.get i = some (bitmap.bit i) :=
  U64GroupedBitmap.get_eq (Linked.padded hSound) hLt

omit hSound in
theorem full_of_bit {below changed : U64GroupedBitmap} {value : Bool}
    (hBit : ∀ k, changed.bit k = if k = i then value else below.bit k) :
    ∀ j, j ≠ i / 64 → changed.full j = below.full j := by
  intro j hj
  rw [Bool.eq_iff_iff, full_iff, full_iff]
  refine forall_congr' fun k => ?_
  refine imp_congr_right fun hk => ?_
  rw [hBit, if_neg (by rintro rfl; exact hj hk.symm)]

theorem set_spec (hLt : i < bitmap.len) :
    ∃ changed : BtreeBitmap, bitmap.set i = some changed ∧ changed.Sound ∧
        changed.len = bitmap.len ∧
        changed.room = bitmap.room ∧
        ∀ k, changed.bit k = if k = i then true else bitmap.bit k := by
  rcases U64GroupedBitmap.set_spec (Linked.padded hSound) hLt with ⟨leaf, hSet, hLen, hPadded, hBit⟩
  rcases updateToRoot_linked bitmap.parents hSound hLt hLen hPadded (full_of_bit hBit) with
    ⟨parents, hUpdate, hLinked, hLength⟩
  refine ⟨⟨leaf, parents⟩, ?_, hLinked, hLen, ?_, hBit⟩
  · simp only [set, hSet, bind_eq_bind, bind_some, hUpdate]
  · rw [room, room, hLength]

theorem clear_spec (hLt : i < bitmap.len) :
    ∃ changed : BtreeBitmap, bitmap.clear i = some changed ∧ changed.Sound ∧
        changed.len = bitmap.len ∧
        changed.room = bitmap.room ∧
        ∀ k, changed.bit k = if k = i then false else bitmap.bit k := by
  rcases U64GroupedBitmap.clear_spec (Linked.padded hSound) hLt with
    ⟨leaf, hClear, hLen, hPadded, hBit⟩
  rcases updateToRoot_linked bitmap.parents hSound hLt hLen hPadded (full_of_bit hBit) with
    ⟨parents, hUpdate, hLinked, hLength⟩
  have hGroup : leaf.full (i / 64) = false := by
    rw [Bool.eq_false_iff]
    intro hAll
    have hUnset := full_iff.mp hAll i rfl
    rw [hBit, if_pos rfl] at hUnset
    exact Bool.noConfusion hUnset
  rw [hGroup] at hUpdate
  refine ⟨⟨leaf, parents⟩, ?_, hLinked, hLen, ?_, hBit⟩
  · simp only [clear, hClear, bind_eq_bind, bind_some, hUpdate]
  · rw [room, room, hLength]

theorem findFirstUnset_spec : (bitmap.findFirstUnset = some none ∧ ∀ k, bitmap.bit k = true) ∨
      ∃ found, bitmap.findFirstUnset = some (some found) ∧ bitmap.bit found = false ∧
        ∀ j < found, bitmap.bit j = true := by
  rcases search_spec bitmap.parents hSound with ⟨_, _, hReverse, hCases⟩
  rw [findFirstUnset, heights, hReverse]
  rcases hCases with ⟨hNone, hAll⟩ | ⟨entry, hSome, found, hDescend, hFirst⟩
  · refine Or.inl ⟨?_, hAll⟩
    simp only [bind_eq_bind, hNone, bind_some]
  · refine Or.inr ⟨found, ?_, hFirst⟩
    simp only [bind_eq_bind, hSome, bind_some, hDescend]

theorem alloc_spec : (bitmap.alloc = some none ∧ ∀ k, bitmap.bit k = true) ∨ ∃ found changed,
        bitmap.alloc = some (some (found, changed)) ∧ bitmap.bit found = false ∧
          (∀ j < found, bitmap.bit j = true) ∧
          changed.Sound ∧ changed.len = bitmap.len ∧
          changed.room = bitmap.room ∧
          ∀ k, changed.bit k = if k = found then true else bitmap.bit k := by
  rcases findFirstUnset_spec hSound with ⟨hNone, hAll⟩ | ⟨found, hSome, hUnset, hBefore⟩
  · refine Or.inl ⟨?_, hAll⟩
    simp only [alloc, hNone, bind_eq_bind, bind_some]
  · rcases set_spec hSound (lt_len hSound hUnset) with ⟨changed, hSet, hOthers⟩
    refine Or.inr ⟨found, changed, ?_, hUnset, hBefore, hOthers⟩
    simp only [alloc, hSome, bind_eq_bind, bind_some, hSet]

omit hSound

/- Resizing keeps every bit when the dropped bits are set. -/
theorem resize_spec (newLen : Nat) (hSound : bitmap.Sound) (hRoom : newLen ≤ bitmap.room)
    (hDropped : ∀ k, newLen ≤ k → bitmap.bit k = true) :
    ∃ changed : BtreeBitmap, bitmap.resize newLen true = some changed ∧
        changed.Sound ∧ changed.len = newLen ∧
        changed.room = bitmap.room ∧
        ∀ k, changed.bit k = bitmap.bit k := by
  rcases U64GroupedBitmap.resize_spec newLen (Linked.padded hSound) hDropped with
    ⟨leaf, hResize, hLen, hPadded, hBit⟩
  obtain ⟨parents, hParents, hLinked, hLength, hRoot⟩ :=
    resizeParents_linked bitmap.parents hSound hPadded hBit (by rw [hLen]; exact hRoom)
  rw [hLen] at hParents
  refine ⟨⟨leaf, parents⟩, ?_, hLinked, hLen, ?_, hBit⟩
  · simp only [resize, hResize, bind_eq_bind, bind_some, hParents, if_pos hRoot]
  · rw [room, room, hLength]

theorem newParents_linked
    (numPages capacity : Nat) (hLe : numPages ≤ capacity) {below : U64GroupedBitmap}
    (hPadded : below.Padded) (hLen : below.len = numPages) (hBit : ∀ k, below.bit k = true) :
    Linked below (newParents numPages capacity) ∧ capacity ≤
        64 ^ ((newParents numPages capacity).length + 1) := by
  induction capacity using Nat.strongRecOn generalizing numPages below with
  | ind capacity ih =>
    rw [newParents]
    by_cases hSmall : capacity ≤ 64
    · rw [if_pos hSmall]
      exact ⟨⟨hPadded, by omega⟩, by simpa using hSmall⟩
    · rw [if_neg hSmall]
      have hWords : requiredWords numPages ≤ requiredWords capacity := by
        unfold requiredWords
        omega
      obtain ⟨hLinked, hRoom⟩ :=
        ih (requiredWords capacity) (by unfold requiredWords; omega) (requiredWords numPages) hWords
          (newFull_padded hWords) rfl (newFull_bit _ _)
      refine ⟨⟨hPadded, by rw [hLen]; rfl, ?_, hLinked⟩, ?_⟩
      · intro j
        rw [newFull_bit]
        exact (full_iff.mpr fun k _ => hBit k).symm
      · rw [length_cons, Nat.pow_succ]
        unfold requiredWords at hRoom ⊢
        omega

/- A new bitmap has all bits set and room for its capacity. -/
theorem new_sound {numPages capacity : Nat} (hLe : numPages ≤ capacity) :
    (new numPages capacity).Sound ∧ (new numPages capacity).len = numPages ∧
      capacity ≤ (new numPages capacity).room ∧
      ∀ k, (new numPages capacity).bit k = true := by
  rcases newParents_linked numPages capacity hLe (newFull_padded hLe) rfl (newFull_bit _ _) with
    ⟨hLinked, hRoom⟩
  exact ⟨hLinked, rfl, hRoom, newFull_bit _ _⟩

end BtreeBitmap

-- Whole Runs

open U64GroupedBitmap

inductive BitmapCall where
  | set (i : Nat)
  | clear (i : Nat)
  | alloc
  | resize (newLen : Nat)

namespace BtreeBitmap

def call (bitmap : BtreeBitmap) : BitmapCall → Option BtreeBitmap
  | .set i => bitmap.set i
  | .clear i => bitmap.clear i
  | .alloc => do
    match ← bitmap.alloc with
    | none => some bitmap
    | some (_, changed) => some changed
  | .resize newLen => bitmap.resize newLen true

/- Ids are in range, and a resize only drops set bits. -/
def Allowed (capacity : Nat) (bitmap : BtreeBitmap) : BitmapCall → Prop
  | .set i => i < bitmap.len
  | .clear i => i < bitmap.len
  | .alloc => True
  | .resize newLen =>
    newLen ≤ capacity ∧ ∀ k < bitmap.len, newLen ≤ k → bitmap.get k = some true

inductive Reachable (capacity : Nat) : BtreeBitmap → Prop
  | new {numPages : Nat} (hLe : numPages ≤ capacity) : Reachable capacity (new numPages capacity)
  | call {bitmap changed : BtreeBitmap} {call : BitmapCall} (hReach : Reachable capacity bitmap)
      (hAllowed : bitmap.Allowed capacity call) (hCall : bitmap.call call = some changed) :
      Reachable capacity changed

variable {capacity : Nat} {bitmap : BtreeBitmap}

/- An allowed call does not panic and keeps the levels linked. -/
theorem call_sound (call : BitmapCall) (hSound : bitmap.Sound) (hRoom : capacity ≤ bitmap.room)
    (hAllowed : bitmap.Allowed capacity call) :
    ∃ changed, bitmap.call call = some changed ∧ changed.Sound ∧ capacity ≤ changed.room := by
  cases call with
  | set i =>
    rcases set_spec hSound hAllowed with ⟨changed, hSet, hChanged, _, hSame, _⟩
    exact ⟨changed, hSet, hChanged, hSame ▸ hRoom⟩
  | clear i =>
    rcases clear_spec hSound hAllowed with ⟨changed, hClear, hChanged, _, hSame, _⟩
    exact ⟨changed, hClear, hChanged, hSame ▸ hRoom⟩
  | alloc =>
    rcases alloc_spec hSound with ⟨hNone, _⟩ | ⟨found, changed, hSome, _, _, hChanged, _, hSame, _⟩
    · refine ⟨bitmap, ?_, hSound, hRoom⟩
      simp only [call, hNone, bind_eq_bind, bind_some]
    · refine ⟨changed, ?_, hChanged, hSame ▸ hRoom⟩
      simp only [call, hSome, bind_eq_bind, bind_some]
  | resize newLen =>
    have hDropped : ∀ k, newLen ≤ k → bitmap.bit k = true := by
      intro k hk
      by_cases hLt : k < bitmap.len
      · have hGet := hAllowed.2 k hLt hk
        rw [get_eq hSound hLt] at hGet
        exact Option.some.inj hGet
      · exact (Linked.padded hSound).above k (Nat.le_of_not_lt hLt)
    rcases resize_spec newLen hSound (Nat.le_trans hAllowed.1 hRoom) hDropped with
      ⟨changed, hResize, hChanged, _, hSame, _⟩
    exact ⟨changed, hResize, hChanged, hSame ▸ hRoom⟩

theorem Reachable.sound (hReach : Reachable capacity bitmap) :
    bitmap.Sound ∧ capacity ≤ bitmap.room := by
  induction hReach with
  | new hLe =>
    rcases new_sound hLe with ⟨hSound, _, hRoom, _⟩
    exact ⟨hSound, hRoom⟩
  | call _ hAllowed hCall ih =>
    rcases call_sound _ ih.1 ih.2 hAllowed with ⟨_, hChanged, hSound⟩
    cases hCall.symm.trans hChanged
    exact hSound

/- What a level above the leaf records of the level below it. -/
theorem linked_levels
    (parents : List U64GroupedBitmap) {below level parent : U64GroupedBitmap} {h : Nat}
    (hLinked : Linked below parents) (hLevel : (below :: parents)[h]? = some level)
    (hParent : (below :: parents)[h + 1]? = some parent) :
    parent.len = requiredWords level.len ∧
      ∀ j < parent.len, parent.get j = some (level.full j) := by
  induction parents generalizing below h with
  | nil => simp at hParent
  | cons _ _ ih =>
    rcases hLinked with ⟨_, hLen, hBits, hRest⟩
    cases h with
    | zero =>
      cases hLevel
      cases hParent
      refine ⟨hLen, fun j hj => ?_⟩
      rw [U64GroupedBitmap.get_eq hRest.padded hj, hBits]
    | succ h => exact ih hRest hLevel hParent

/-
  In every state reached, allowed calls return, at every level a bit is set exactly when the group
  below it is full, the search finds the lowest unset id, and `alloc` sets just that one.
-/
theorem lowest_unset_is_found (hReach : Reachable capacity bitmap) :
    (∀ call, bitmap.Allowed capacity call → (bitmap.call call).isSome = true) ∧
      (∀ (h : Nat) (level parent : U64GroupedBitmap),
        (bitmap.leaf :: bitmap.parents)[h]? = some level →
        (bitmap.leaf :: bitmap.parents)[h + 1]? = some parent →
        parent.len = requiredWords level.len ∧
          ∀ j < parent.len, parent.get j = some (level.full j)) ∧
      ((bitmap.findFirstUnset = some none ∧ bitmap.alloc = some none ∧
          ∀ k < bitmap.len, bitmap.get k = some true) ∨
        ∃ found changed, bitmap.findFirstUnset = some (some found) ∧
          found < bitmap.len ∧ bitmap.get found = some false ∧
          (∀ k < found, bitmap.get k = some true) ∧
          bitmap.alloc = some (some (found, changed)) ∧
          changed.len = bitmap.len ∧
          ∀ k < bitmap.len, changed.get k = if k = found then some true else bitmap.get k) := by
  rcases hReach.sound with ⟨hSound, hRoom⟩
  refine ⟨?_, fun h level parent => linked_levels bitmap.parents hSound, ?_⟩
  · intro call hAllowed
    rcases call_sound call hSound hRoom hAllowed with ⟨_, hCall, _⟩
    rw [hCall]
    rfl
  · rcases findFirstUnset_spec hSound with ⟨hNone, hAll⟩ | ⟨found, hSome, hUnset, hBefore⟩
    · refine Or.inl ⟨hNone, ?_, fun k hk => by rw [get_eq hSound hk, hAll]⟩
      simp only [alloc, hNone, bind_eq_bind, bind_some]
    · have hFound := lt_len hSound hUnset
      rcases set_spec hSound hFound with ⟨changed, hSet, hChanged, hLen, _, hBit⟩
      refine Or.inr ⟨found, changed, hSome, hFound, by rw [get_eq hSound hFound, hUnset],
        fun k hk => by rw [get_eq hSound (Nat.lt_trans hk hFound), hBefore k hk], ?_, hLen, ?_⟩
      · simp only [alloc, hSome, bind_eq_bind, bind_some, hSet]
      · intro k hk
        rw [get_eq hChanged (hLen ▸ hk), hBit, get_eq hSound hk]
        split
        · rfl
        · rfl

/- Allocation from a bitmap with two levels and one unset id. -/
theorem only_unset_is_found :
    ∃ bitmap, (new 100 100).clear 70 = some bitmap ∧ bitmap.get 70 = some false ∧
      (bitmap.call .alloc).isSome = true := by
  rcases clear_spec (new_sound (Nat.le_refl 100)).1 (show 70 < (new 100 100).len by decide) with
    ⟨bitmap, hClear, hSound, hLen, _, hBit⟩
  have hGet := get_eq hSound (hLen ▸ (by decide : 70 < (new 100 100).len))
  have hReach : Reachable 100 bitmap :=
    .call (.new (Nat.le_refl 100)) (show Allowed 100 (new 100 100) (.clear 70) from
      (by decide : 70 < (new 100 100).len)) hClear
  refine ⟨bitmap, hClear, ?_, (lowest_unset_is_found hReach).1 .alloc trivial⟩
  rw [hGet, hBit, if_pos rfl]

end BtreeBitmap

end Redbx

import Redbx.Encryption.Cipher

/-
  `LeafAccessor`: reading a leaf page byte by byte.

  The layout is the page type, a reserved byte, the number of pairs, the end of each key when keys
  vary in width, the end of each value when values do, the keys, the values.

  Key theorems include:
    * `LeafAccessor.WellFormed.totalLength_le`
-/

namespace Redbx

open Bytes

-- Integers In A Page

/- The two bytes at `offset` as an integer. -/
def u16At (page : Bytes) (offset : Nat) : Nat := ofLe (page.slice offset 2)

/- The four bytes at `offset`, if the page has them. -/
def u32At (page : Bytes) (offset : Nat) : Option Nat :=
  if offset + 4 ≤ page.length then
    some (ofLe (page.slice offset 4))
  else
    none

-- Leaf Accessor

/- A leaf page with the widths of its keys and values. -/
structure LeafAccessor where
  page : Bytes
  fixedKeySize : Option Nat
  fixedValueSize : Option Nat
  numPairs : Nat

namespace LeafAccessor

/- The number of pairs stands at offset 2. -/
def new (page : Bytes) (fixedKeySize fixedValueSize : Option Nat) : LeafAccessor where
  page := page
  fixedKeySize := fixedKeySize
  fixedValueSize := fixedValueSize
  numPairs := u16At page 2

variable (a : LeafAccessor)

/- Where the keys start. -/
def keySectionStart : Nat :=
  4 + (if a.fixedKeySize.isNone then 4 * a.numPairs else 0) +
    (if a.fixedValueSize.isNone then 4 * a.numPairs else 0)

/- The end of key `n`. -/
def keyEnd (n : Nat) : Option Nat :=
  if a.numPairs ≤ n then
    none
  else
    match a.fixedKeySize with
    | some fixed =>
      some (a.keySectionStart + fixed * (n + 1))
    | none => u32At a.page (4 + 4 * n)

/- The start of key `n`. -/
def keyStart : Nat → Option Nat
  | 0 => some a.keySectionStart
  | n + 1 => a.keyEnd n

/- The end of value `n`. -/
def valueEnd (n : Nat) : Option Nat :=
  if a.numPairs ≤ n then
    none
  else
    match a.fixedValueSize with
    | some fixed => do
      let lastKeyEnd ← a.keyEnd (a.numPairs - 1)
      return lastKeyEnd + fixed * (n + 1)
    | none =>
      u32At a.page (4 + 4 * n + (if a.fixedKeySize.isNone then 4 * a.numPairs else 0))

/- The start of value `n`. -/
def valueStart : Nat → Option Nat
  | 0 => a.keyEnd (a.numPairs - 1)
  | n + 1 => a.valueEnd n

/- The used length: values are stored last. -/
def totalLength : Option Nat := a.valueEnd (a.numPairs - 1)

/- The bytes of a range, if it lies inside the page. -/
def range (start stop : Nat) : Option Bytes :=
  if start ≤ stop ∧ stop ≤ a.page.length then
    some (a.page.slice start (stop - start))
  else
    none

/- Key and value of pair `n`. -/
def entry (n : Nat) : Option (Bytes × Bytes) := do
  let key ← a.range (← a.keyStart n) (← a.keyEnd n)
  let value ← a.range (← a.valueStart n) (← a.valueEnd n)
  return (key, value)

/-
  A leaf page as the builder leaves it: marked as a leaf, not empty, and every pair inside the page.
-/
structure WellFormed : Prop where
  tag : a.page.head? = some leafTag
  nonempty : 0 < a.numPairs
  entries : ∀ n < a.numPairs, (a.entry n).isSome

/- The used length of a well-formed leaf fits its page. -/
theorem WellFormed.totalLength_le {a : LeafAccessor} (hWf : a.WellFormed) :
    ∃ used, a.totalLength = some used ∧ used ≤ a.page.length := by
  have hLast := hWf.entries (a.numPairs - 1) (Nat.sub_lt hWf.nonempty Nat.one_pos)
  unfold entry at hLast
  cases hKs : a.keyStart (a.numPairs - 1) with
  | none => simp [hKs] at hLast
  | some keyStart =>
  cases hKe : a.keyEnd (a.numPairs - 1) with
  | none => simp [hKs, hKe] at hLast
  | some keyEnd =>
  cases hVs : a.valueStart (a.numPairs - 1) with
  | none => simp [hKs, hKe, hVs] at hLast
  | some valueStart =>
  cases hVe : a.valueEnd (a.numPairs - 1) with
  | none => simp [hKs, hKe, hVs, hVe] at hLast
  | some valueEnd =>
    refine ⟨valueEnd, hVe, ?_⟩
    by_cases hRange : valueStart ≤ valueEnd ∧ valueEnd ≤ a.page.length
    · exact hRange.2
    · simp [hKs, hKe, hVs, hVe, range, hRange] at hLast

end LeafAccessor

end Redbx

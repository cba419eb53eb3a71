import Redbx.Encryption.Cipher
import Mathlib.Data.Nat.Log

/-
  Sizes of B-tree pages.

  A key or value type is seen through the lengths of its encodings. From them follow the bytes a
  leaf or branch needs, the order of the page it is stored in, when a node is split and where, and
  which nodes the page format can hold at all.

  Key definitions include:
    * `Format.leafBytes`, `Format.branchBytes`
-/

namespace Redbx

-- Page Orders

/- `MAX_MAX_PAGE_ORDER`. -/
def maxPageOrder : Nat := 20

/- The bytes of a page of the given order. -/
def pageBytes (order : Nat) : Nat := pageSize * 2 ^ order

/- The order of the page allocated for `size` bytes. -/
def requiredOrder (size : Nat) : Nat := Nat.clog 2 ((size + (pageSize - 1)) / pageSize)

/- An allocated page has room for the wanted bytes. -/
theorem le_pageBytes_requiredOrder (size : Nat) : size ≤ pageBytes (requiredOrder size) := by
  have hPages := Nat.le_pow_clog (b := 2) (by omega) ((size + (pageSize - 1)) / pageSize)
  have hDiv := Nat.div_add_mod (size + (pageSize - 1)) pageSize
  have hMod := Nat.mod_lt (size + (pageSize - 1)) (show 0 < pageSize by decide)
  have hMul := Nat.mul_le_mul_left pageSize hPages
  have hPos : 0 < pageSize := by decide
  unfold pageBytes requiredOrder
  omega

theorem requiredOrder_le (size order : Nat) (hSize : size ≤ pageBytes order) :
    requiredOrder size ≤ order := by
  refine Nat.clog_le_of_le_pow ?_
  have hLt : size + (pageSize - 1) < (2 ^ order + 1) * pageSize := by
    have hPos : 0 < pageSize := by decide
    unfold pageBytes at hSize
    rw [Nat.add_mul, Nat.mul_comm (2 ^ order)]
    omega
  exact Nat.lt_succ_iff.mp ((Nat.div_lt_iff_lt_mul (by decide)).mpr hLt)

/- The order needed for a whole page is its own. -/
theorem le_requiredOrder_pageBytes (order : Nat) : order ≤ requiredOrder (pageBytes order) := by
  have hPage := le_pageBytes_requiredOrder (pageBytes order)
  unfold pageBytes at hPage ⊢
  have hPow := Nat.le_of_mul_le_mul_left hPage (by decide)
  exact (Nat.pow_le_pow_iff_right (by decide)).mp hPow

-- Formats

/-
  The lengths of encoded keys and values, and the widths of types whose encodings all have one
  length. Keys that are encoded by no bytes at all are equal.
-/
structure Format (K V : Type) where
  keyLen : K → Nat
  valueLen : V → Nat
  fixedKeySize : Option Nat
  fixedValueSize : Option Nat
  keyLen_eq : ∀ width, fixedKeySize = some width → ∀ k, keyLen k = width
  valueLen_eq : ∀ width, fixedValueSize = some width → ∀ v, valueLen v = width
  eq_of_width_zero : fixedKeySize = some 0 → ∀ a b : K, a = b

namespace Format

theorem eq_of_no_width {K : Type} (hWidth : (none : Option Nat) = some 0) (a b : K) : a = b := by
  cases hWidth

variable {K V : Type} (fmt : Format K V) (pairs : List (K × V))

/- The bytes of one key and value. -/
def pairLen (pair : K × V) : Nat := fmt.keyLen pair.1 + fmt.valueLen pair.2

/- The bytes of all keys and values. -/
def kvBytes : Nat := (pairs.map fmt.pairLen).sum

/- The bytes of all keys. -/
def keyBytes (keys : List K) : Nat := (keys.map fmt.keyLen).sum

/- The bytes of the offsets that an entry of a leaf takes. -/
def pointerBytes : Nat :=
  (if fmt.fixedKeySize.isNone then 4 else 0) +
    (if fmt.fixedValueSize.isNone then 4 else 0)

/- `RawLeafBuilder::required_bytes` of a list of pairs. -/
def leafBytes : Nat :=
  4 + fmt.pointerBytes * pairs.length + fmt.kvBytes pairs

/- Where the keys of a leaf end. -/
def keysEnd : Nat :=
  4 + fmt.pointerBytes * pairs.length + fmt.keyBytes (pairs.map Prod.fst)

/- Where value `i` of a leaf ends. -/
def valueEnd (i : Nat) : Nat :=
  fmt.keysEnd pairs + ((pairs.take (i + 1)).map (fun p => fmt.valueLen p.2)).sum

/- `RawBranchBuilder::required_bytes` of a list of keys. -/
def branchBytes (keys : List K) : Nat :=
  8 + 24 * (keys.length + 1) + (if fmt.fixedKeySize.isNone then 4 * keys.length else 0) +
    fmt.keyBytes keys

-- Decisions

/- `LeafBuilder::should_split`. -/
def shouldSplitLeaf : Bool :=
  decide (effectiveLeafPageSize < fmt.leafBytes pairs) && decide (1 < pairs.length)

/- A leaf whose only value fills a page. -/
def singleLargeValue : Bool :=
  decide (pairs.length = 1) && decide (effectiveLeafPageSize ≤ fmt.leafBytes pairs)

/-
  The loop of `LeafBuilder::build_split` over all pairs but the last: pairs are counted until they
  reach `half`.
-/
def divisionLoop (half : Nat) : List (K × V) → Nat → Nat → Nat
  | [], _, division => division
  | p :: rest, bytes, division =>
    if half ≤ bytes + fmt.pairLen p then
      division + 1
    else
      divisionLoop half rest (bytes + fmt.pairLen p) (division + 1)

/- How many pairs the first page of a split leaf takes. -/
def division : Nat :=
  fmt.divisionLoop (fmt.kvBytes pairs / 2) (pairs.take (pairs.length - 1)) 0 0

/- `BranchBuilder::should_split`. -/
def shouldSplitBranch (keys : List K) : Bool :=
  decide (pageSize < fmt.branchBytes keys) && decide (3 ≤ keys.length)

/- `LeafMutator::sufficient_insert_inplace_space` on a page of the given order. -/
def sufficientInsertInplaceSpace
    (order : Nat) (pairs : List (K × V)) (position : Nat) (overwrite : Bool) (key : K) (value : V) :
    Bool :=
  if overwrite then
    let old := ((pairs[position]?).map fmt.pairLen).getD 0
    decide (fmt.leafBytes pairs + fmt.pairLen (key, value) ≤ pageBytes order + old)
  else if 0 < order ∧ position < pairs.length then
    -- a large page only takes new pairs at its end
    false
  else
    decide (fmt.leafBytes pairs + fmt.pointerBytes + fmt.pairLen (key, value) ≤ pageBytes order)

-- What a Page Can Hold

/- The largest number of pairs or keys of one page. -/
def maxCount : Nat := 65535

/- The first offset that does not fit in 32 bits. -/
def offsetLimit : Nat := 2 ^ 32

/- The count and the stored offsets of a leaf fit. -/
def offsetsFit : Bool :=
  decide (pairs.length ≤ maxCount) && (fmt.fixedKeySize.isSome ||
      decide (fmt.keysEnd pairs < offsetLimit)) &&
    (fmt.fixedValueSize.isSome || decide (fmt.leafBytes pairs < offsetLimit))

/- `LeafBuilder::build` does not panic on the pairs. -/
def leafEncodable : Bool :=
  !pairs.isEmpty && fmt.offsetsFit pairs &&
    decide (requiredOrder (fmt.leafBytes pairs) ≤ maxPageOrder)

/- `LeafMutator::insert` at position `i` does not panic when it leaves the pairs. -/
def insertEncodable (i : Nat) : Bool :=
  fmt.offsetsFit pairs && decide (fmt.valueEnd pairs i < offsetLimit)

/- `BranchBuilder::build` does not panic on the keys. -/
def branchEncodable (keys : List K) : Bool :=
  !keys.isEmpty && decide (keys.length ≤ maxCount) && (fmt.fixedKeySize.isSome ||
      decide (fmt.branchBytes keys < offsetLimit)) &&
    decide (requiredOrder (fmt.branchBytes keys) ≤ maxPageOrder)

end Format

end Redbx

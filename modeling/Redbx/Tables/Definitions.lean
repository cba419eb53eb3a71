import Redbx.PageStore.Header
import Redbx.Tables.TableTree
import Redbx.Types.RoundTrip

/-
  The bytes of an `InternalTableDefinition`, with the root and the length of the table.

  Key theorems include:
    * `StoredDefinition.roundTrip_iff_words`
-/

namespace Redbx

open Bytes List Option TransactionHeader

-- Fields

/- The type of a table; 1 and 2 were used by an older format. -/
def TableType.toByte : TableType → UInt8
  | .normal => 3
  | .multimap => 4

def TableType.ofByte (value : UInt8) : Option TableType :=
  if value = 3 then some .normal else if value = 4 then some .multimap else none

def TypeClassification.toByte : TypeClassification → UInt8
  | .internal => 1
  | .userDefined => 2
  | .internal2 => 3

def TypeClassification.ofByte (value : UInt8) : Option TypeClassification :=
  if value = 1 then some .internal else if value = 2 then some .userDefined
  else if value = 3 then some .internal2 else none

def TypeName.toBytes (name : TypeName) : Bytes :=
  name.classification.toByte :: utf8 (String.ofList name.name)

def TypeName.fromBytes : Bytes → Option TypeName
  | [] => none
  | tag :: data => do
    let classification ← TypeClassification.ofByte tag
    let name ← fromUtf8 data
    return ⟨classification, name.toList⟩

/- A field of 32 bits that may be absent; it takes its place in either case. -/
def optionalWord : Option Nat → Option Bytes
  | some n => (wordLen n).map (1 :: ·)
  | none => some (0 :: zeros 4)

def readWord (data : Bytes) : Option (Nat × Bytes) :=
  (splitOff 4 data).map fun (word, rest) => (ofLe word, rest)

def readOptionalWord (data : Bytes) : Option (Option Nat × Bytes) := do
  let (nonNull, data) ← splitOff 1 data
  let (fixed, data) ← readWord data
  return (if byteAt nonNull 0 ≠ 0 then some fixed else none, data)

-- Definitions

/- The definition of a table as it is stored. -/
structure StoredDefinition where
  tableType : TableType
  tableRoot : Option BtreeHeader
  tableLength : UInt64
  (fixedKeySize fixedValueSize : Option Nat)
  (keyAlignment valueAlignment : Nat)
  (keyType valueType : TypeName)

namespace StoredDefinition

/- `as_bytes`, without a result where a conversion to 32 bits panics. -/
def asBytes (d : StoredDefinition) : Option Bytes := do
  let keySize ← optionalWord d.fixedKeySize
  let valueSize ← optionalWord d.fixedValueSize
  let keyAlignment ← wordLen d.keyAlignment
  let valueAlignment ← wordLen d.valueAlignment
  let keyTypeLen ← wordLen d.keyType.toBytes.length
  return [d.tableType.toByte] ++ (toLe 8 d.tableLength.toNat ++
    ((rootFlag d.tableRoot :: rootBytes d.tableRoot) ++ (keySize ++ (valueSize ++
      (keyAlignment ++ (valueAlignment ++ (keyTypeLen ++
        (d.keyType.toBytes ++ d.valueType.toBytes))))))))

/- `from_bytes`. -/
def fromBytes (data : Bytes) : Option StoredDefinition := do
  let (tag, data) ← splitOff 1 data
  let tableType ← TableType.ofByte (byteAt tag 0)
  let (tableLength, data) ← splitOff 8 data
  let (root, data) ← splitOff 33 data
  let (fixedKeySize, data) ← readOptionalWord data
  let (fixedValueSize, data) ← readOptionalWord data
  let (keyAlignment, data) ← readWord data
  let (valueAlignment, data) ← readWord data
  let (keyTypeLen, data) ← readWord data
  let (keyType, data) ← splitOff keyTypeLen data
  let keyType ← TypeName.fromBytes keyType
  let valueType ← TypeName.fromBytes data
  return ⟨tableType, TransactionHeader.readRoot root 0 1, UInt64.ofNat (ofLe tableLength),
    fixedKeySize, fixedValueSize, keyAlignment, valueAlignment, keyType, valueType⟩

/- The numbers that are stored in 32 bits. -/
def words (d : StoredDefinition) : List Nat :=
  d.fixedKeySize.toList ++ d.fixedValueSize.toList ++
    [d.keyAlignment, d.valueAlignment, d.keyType.toBytes.length]

end StoredDefinition

theorem TypeName.fromBytes_toBytes (name : TypeName) : fromBytes name.toBytes = some name := by
  rcases name with ⟨classification, name⟩
  cases classification <;>
    simp [fromBytes, toBytes, TypeClassification.toByte, TypeClassification.ofByte, fromUtf8_utf8]

theorem readWord_append {n : Nat} {word : Bytes} (hWord : wordLen n = some word) (rest : Bytes) :
    readWord (word ++ rest) = some (n, rest) := by
  rcases wordLen_eq_some.mp hWord with ⟨hLt, rfl⟩
  simp [readWord, splitOff_append (length_toLe 4 n), ofLe_toLe (show n < 256 ^ 4 from hLt)]

theorem readOptionalWord_append {n : Option Nat} {field : Bytes}
    (hField : optionalWord n = some field) (rest : Bytes) :
    readOptionalWord (field ++ rest) = some (n, rest) := by
  cases n with
  | none =>
    cases hField
    have hZeros := readWord_append (show wordLen 0 = some (zeros 4) from rfl) rest
    simp [readOptionalWord, splitOff, byteAt, hZeros]
  | some n =>
    rcases map_eq_some_iff.mp hField with ⟨word, hWord, rfl⟩
    simp [readOptionalWord, splitOff, byteAt, readWord_append hWord]

namespace StoredDefinition

theorem fromBytes_asBytes {d : StoredDefinition} {data : Bytes} (hData : d.asBytes = some data) :
    fromBytes data = some d := by
  simp only [asBytes, bind_eq_bind, bind_eq_some_iff] at hData
  rcases hData with
    ⟨_, hKeySize, _, hValueSize, _, hKeyAlignment, _,
      hValueAlignment, _, hKeyTypeLen, hData⟩
  cases hData
  have hType : TableType.ofByte (byteAt [d.tableType.toByte] 0) = some d.tableType := by
    cases d.tableType <;> rfl
  have hLength : d.tableLength.toNat < 256 ^ 8 := d.tableLength.toNat_lt
  have hBytes := length_rootBytes d.tableRoot
  have hHead : (rootFlag d.tableRoot :: rootBytes d.tableRoot).length = 33 :=
    congrArg Nat.succ hBytes
  have hRoot : TransactionHeader.readRoot (rootFlag d.tableRoot :: rootBytes d.tableRoot) 0 1 =
      d.tableRoot := readRoot_eq rfl (by simp [slice, take_of_length_le hBytes.le])
  -- field by field, in the order of the bytes
  rw [fromBytes, splitOff_append length_singleton]
  change (TableType.ofByte (byteAt [d.tableType.toByte] 0)).bind _ = _
  rw [hType, bind_some, splitOff_append (length_toLe 8 _)]
  change (splitOff 33 _).bind _ = _
  rw [splitOff_append hHead]
  change (readOptionalWord _).bind _ = _
  rw [readOptionalWord_append hKeySize]
  change (readOptionalWord _).bind _ = _
  rw [readOptionalWord_append hValueSize]
  change (readWord _).bind _ = _
  rw [readWord_append hKeyAlignment]
  change (readWord _).bind _ = _
  rw [readWord_append hValueAlignment]
  change (readWord _).bind _ = _
  rw [readWord_append hKeyTypeLen]
  change (splitOff _ _).bind _ = _
  rw [splitOff_append rfl]
  change (TypeName.fromBytes _).bind _ = _
  rw [TypeName.fromBytes_toBytes, bind_some, TypeName.fromBytes_toBytes]
  change some _ = _
  rw [hRoot, ofLe_toLe hLength, UInt64.ofNat_toNat]

theorem asBytes_isSome (d : StoredDefinition) : d.asBytes.isSome ↔ ∀ n ∈ d.words, n < 2 ^ 32 := by
  have hField (n : Option Nat) :
      (∃ field, optionalWord n = some field) ↔ ∀ m, n = some m → m < 2 ^ 32 := by
    cases n <;> simp [optionalWord, wordLen_eq_some]
  simp [asBytes, words, isSome_bind, Option.any_eq_true, isSome_iff_exists, wordLen_eq_some, hField,
    or_imp, forall_and]

/- A root and a length take their place whatever they are. -/
theorem length_asBytes (d : StoredDefinition) (root : Option BtreeHeader) (length : UInt64) :
    ({ d with tableRoot := root, tableLength := length }.asBytes).map List.length =
      d.asBytes.map List.length := by
  simp [asBytes, map_bind]

/-
  A definition whose widths, alignments and key type name fit 32 bits is read back, and another root
  and length take as many bytes; any other has no encoding.
-/
theorem roundTrip_iff_words (d : StoredDefinition) :
    (∃ data, d.asBytes = some data ∧ fromBytes data = some d ∧ ∀ root length, ∃ data',
      { d with tableRoot := root, tableLength := length }.asBytes = some data' ∧
        data'.length = data.length) ↔ ∀ n ∈ d.words, n < 2 ^ 32 := by
  rw [← asBytes_isSome, isSome_iff_exists]
  constructor
  · rintro ⟨data, hData, _⟩
    exact ⟨data, hData⟩
  · rintro ⟨data, hData⟩
    refine ⟨data, hData, fromBytes_asBytes hData, fun root length => ?_⟩
    have hLength := d.length_asBytes root length
    rw [hData, map_some] at hLength
    exact map_eq_some_iff.mp hLength

/- A width of 33 bits has no encoding. -/
theorem wide_key_has_no_encoding :
    asBytes ⟨.normal, none, 0, some (2 ^ 32), none, 1, 1, ⟨.internal, []⟩, ⟨.internal, []⟩⟩ =
      none := rfl

end StoredDefinition

end Redbx

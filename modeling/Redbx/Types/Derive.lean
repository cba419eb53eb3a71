import Redbx.Types.Order

/-
  The code that `#[derive(Value)]` generates for a struct: the lengths of its fields of variable
  width except the last, and then the bytes of all fields.

  Key theorems include:
    * `Struct.decode_lengths`, `Struct.roundTrip_iff`
-/

namespace Redbx

open List Option

/- The type of a field: its `Value` instance, with what the trait asks of one. -/
structure FieldType (V : Type) where
  fixedWidth : Option Nat
  asBytes : V → Bytes
  fromBytes : Bytes → Option V
  fromBytes_asBytes : ∀ v, fromBytes (asBytes v) = some v
  length_asBytes : ∀ width, fixedWidth = some width → ∀ v, (asBytes v).length = width

namespace Struct

/- The types that fields may have, by their names, and a field of a struct value. -/
variable {T : Type} {V : T → Type} (types : (t : T) → FieldType (V t))

def bytes (field : (t : T) × V t) : Bytes := (types field.1).asBytes field.2

/- `generate_fixed_width`. -/
def fixedWidth : List T → Option Nat
  | [] => some 0
  | t :: ts => do
    let width ← (types t).fixedWidth
    let rest ← fixedWidth ts
    return width + rest

/- The length that a field of variable width is announced with. -/
def fieldLength (field : (t : T) × V t) : Option Bytes :=
  if (types field.1).fixedWidth.isNone then encodeVarintLen (bytes types field).length else some []

/- The first loop of `generate_as_bytes`: the lengths of all fields but the last. -/
def lengths : List ((t : T) × V t) → Option Bytes
  | [] => some []
  | [_] => some []
  | field :: next :: fields => do
    let len ← fieldLength types field
    let rest ← lengths (next :: fields)
    return len ++ rest

/- The second loop: the bytes of all fields. -/
def fieldBytes (fields : List ((t : T) × V t)) : Bytes := fields.flatMap (bytes types)

/- `generate_as_bytes`. A single field is passed on. -/
def asBytes : List ((t : T) × V t) → Option Bytes
  | [] => some []
  | [field] => some (bytes types field)
  | fields => do
    let result ← lengths types fields
    return result ++ fieldBytes types fields

/- The first loop of `generate_from_bytes`: `var_lengths` and the bytes after them. -/
def varLengths : List T → Bytes → Option (List Nat × Bytes)
  | [], data => some ([], data)
  | [_], data => some ([], data)
  | t :: next :: ts, data =>
    if (types t).fixedWidth.isNone then do
      let (len, bytesRead) ← decodeVarintLen data
      let (lens, rest) ← varLengths (next :: ts) (data.drop bytesRead)
      return (len :: lens, rest)
    else
      varLengths (next :: ts) data

/- The second loop: a field takes its width or the next length, the last one what is left. -/
def decodeFields : List T → List Nat → Bytes → Option (List ((t : T) × V t))
  | [], _, _ => some []
  | [t], _, data => do
    let fieldData ← match (types t).fixedWidth with
      | some width => (splitOff width data).map Prod.fst
      | none => some data
    let v ← (types t).fromBytes fieldData
    return [⟨t, v⟩]
  | t :: next :: ts, varLengths, data => do
    let (len, varLengths) ← match (types t).fixedWidth with
      | some width => some (width, varLengths)
      | none => varLengths.head?.map fun len => (len, varLengths.tail)
    let (fieldData, rest) ← splitOff len data
    let v ← (types t).fromBytes fieldData
    let fields ← decodeFields (next :: ts) varLengths rest
    return ⟨t, v⟩ :: fields

/- `generate_from_bytes`. -/
def fromBytes : List T → Bytes → Option (List ((t : T) × V t))
  | [], _ => some []
  | [t], data => do
    let v ← (types t).fromBytes data
    return [⟨t, v⟩]
  | ts, data => do
    let (lens, rest) ← varLengths types ts data
    decodeFields types ts lens rest

/- The fields of variable width except the last have a length of 32 bits. -/
def LengthsFit (fields : List ((t : T) × V t)) : Prop :=
  ∀ field ∈ fields.dropLast, (types field.1).fixedWidth = none → (bytes types field).length < 2 ^ 32

theorem fieldLength_iff (field : (t : T) × V t) : (∃ len, fieldLength types field = some len) ↔
      ((types field.1).fixedWidth = none → (bytes types field).length < 2 ^ 32) := by
  unfold fieldLength
  rw [← encodeVarintLen_isSome, isSome_iff_exists]
  cases (types field.1).fixedWidth with
  | none => simp
  | some => simp

theorem lengths_iff (fields : List ((t : T) × V t)) :
    (∃ header, lengths types fields = some header) ↔ LengthsFit types fields := by
  induction fields with
  | nil => simp [lengths, LengthsFit]
  | cons _ rest ih =>
    cases rest with
    | nil => simp [lengths, LengthsFit]
    | cons =>
      rw [LengthsFit, dropLast_cons_cons, forall_mem_cons, ← fieldLength_iff, ← LengthsFit, ← ih]
      constructor
      · rintro ⟨_, hHeader⟩
        rcases bind_eq_some_iff.mp hHeader with ⟨len, hLen, hHeader⟩
        rcases bind_eq_some_iff.mp hHeader with ⟨later, hLater, -⟩
        exact ⟨⟨len, hLen⟩, later, hLater⟩
      · rintro ⟨⟨len, hLen⟩, later, hLater⟩
        exact ⟨len ++ later, by simp [lengths, hLen, hLater]⟩

/- The lengths types are read back, and with them the fields. -/
theorem decode_lengths {fields : List ((t : T) × V t)} {header : Bytes}
    (hHeader : lengths types fields = some header) (rest : Bytes) :
    ∃ lens, varLengths types (fields.map Sigma.fst) (header ++ rest) = some (lens, rest) ∧
      decodeFields types (fields.map Sigma.fst) lens (fieldBytes types fields) = some fields := by
  induction fields generalizing header with
  | nil =>
    cases hHeader
    exact ⟨[], rfl, rfl⟩
  | cons field fields ih =>
    rcases field with ⟨t, v⟩
    have hBytes : fieldBytes types (⟨t, v⟩ :: fields) = (types t).asBytes v ++ fieldBytes types fields := rfl
    rw [hBytes]
    cases fields with
    | nil =>
      cases hHeader
      refine ⟨[], rfl, ?_⟩
      cases hWidth : (types t).fixedWidth with
      | some width =>
        have hSplit := splitOff_append ((types t).length_asBytes width hWidth v) (fieldBytes types [])
        simp [decodeFields, hWidth, hSplit, (types t).fromBytes_asBytes]
      | none => simp [decodeFields, fieldBytes, hWidth, (types t).fromBytes_asBytes]
    | cons next fields =>
      rcases bind_eq_some_iff.mp hHeader with ⟨len, hLen, hHeader⟩
      rcases bind_eq_some_iff.mp hHeader with ⟨later, hLater, hHeader⟩
      cases hHeader
      rcases ih hLater with ⟨lens, hLens, hFields⟩
      rw [map_cons] at hLens hFields
      cases hWidth : (types t).fixedWidth with
      | some width =>
        have hSplit := splitOff_append ((types t).length_asBytes width hWidth v)
          (fieldBytes types (next :: fields))
        simp only [fieldLength, hWidth, isNone_some, Bool.false_eq_true, if_false] at hLen
        cases hLen
        refine ⟨lens, by simpa [varLengths, hWidth] using hLens, ?_⟩
        simp [decodeFields, hWidth, hSplit, (types t).fromBytes_asBytes, hFields]
      | none =>
        have hSplit := splitOff_append (rfl : ((types t).asBytes v).length = _)
          (fieldBytes types (next :: fields))
        simp only [fieldLength, bytes, hWidth, isNone_none, if_true] at hLen
        have hDecode := decodeVarintLen_append hLen (later ++ rest)
        refine ⟨((types t).asBytes v).length :: lens, ?_, ?_⟩
        · simp [varLengths, hWidth, append_assoc, hDecode, hLens]
        · simp [decodeFields, hWidth, hSplit, (types t).fromBytes_asBytes, hFields]

theorem fromBytes_asBytes {fields : List ((t : T) × V t)} {bytes : Bytes}
    (hBytes : asBytes types fields = some bytes) :
    fromBytes types (fields.map Sigma.fst) bytes = some fields := by
  rcases fields with _ | ⟨field, _ | ⟨next, fields⟩⟩
  · rfl
  · cases hBytes
    simp [fromBytes, bytes, (types field.1).fromBytes_asBytes]
  · rcases bind_eq_some_iff.mp hBytes with ⟨_, hHeader, hBytes⟩
    cases hBytes
    rcases decode_lengths types hHeader (fieldBytes types (field :: next :: fields)) with
      ⟨lens, hLens, hFields⟩
    simp only [map_cons] at hLens hFields ⊢
    simp [fromBytes, hLens, hFields]

theorem asBytes_eq (fields : List ((t : T) × V t)) :
    asBytes types fields = (lengths types fields).map (· ++ fieldBytes types fields) := by
  rcases fields with _ | ⟨_, _ | ⟨_, _⟩⟩
  · rfl
  · simp [asBytes, lengths, fieldBytes]
  · simp [asBytes, map_eq_bind]

theorem asBytes_iff (fields : List ((t : T) × V t)) :
    (∃ bytes, asBytes types fields = some bytes) ↔ LengthsFit types fields := by
  rw [← lengths_iff, asBytes_eq]
  cases lengths types fields with
  | none => simp
  | some => simp

theorem lengths_fixed {fields : List ((t : T) × V t)} {width : Nat}
    (hWidth : fixedWidth types (fields.map Sigma.fst) = some width) :
    lengths types fields = some [] ∧ (fieldBytes types fields).length = width := by
  induction fields generalizing width with
  | nil =>
    cases hWidth
    exact ⟨rfl, rfl⟩
  | cons field fields ih =>
    rcases bind_eq_some_iff.mp hWidth with ⟨first, hFirst, hWidth⟩
    rcases bind_eq_some_iff.mp hWidth with ⟨_, hOthers, hWidth⟩
    cases hWidth
    rcases ih hOthers with ⟨hNone, hLength⟩
    have hOwn := (types field.1).length_asBytes first hFirst field.2
    constructor
    · cases fields with
      | nil => rfl
      | cons => simp [lengths, fieldLength, hFirst, hNone]
    · rw [fieldBytes, flatMap_cons, length_append, ← fieldBytes, hLength, bytes, hOwn]

/-
  A struct is encoded and read back exactly if the lengths written before its fields fit, and fields
  of fixed width take the width of the struct.
-/
theorem roundTrip_iff (fields : List ((t : T) × V t)) : ((∃ data, asBytes types fields = some data ∧
        fromBytes types (fields.map Sigma.fst) data = some fields) ↔ LengthsFit types fields) ∧
      ∀ width, fixedWidth types (fields.map Sigma.fst) = some width →
        ∃ data, asBytes types fields = some data ∧ data.length = width := by
  rw [← asBytes_iff]
  refine ⟨⟨fun ⟨data, hData, _⟩ => ⟨data, hData⟩,
    fun ⟨data, hData⟩ => ⟨data, hData, fromBytes_asBytes types hData⟩⟩, fun width hWidth => ?_⟩
  rcases lengths_fixed types hWidth with ⟨hNone, hLength⟩
  exact ⟨fieldBytes types fields, by rw [asBytes_eq, hNone]; rfl, hLength⟩

/- Byte slices, which are their own encoding. -/
def slices (_ : Unit) : FieldType Bytes :=
  ⟨none, id, some, fun _ => rfl, fun _ hWidth => by cases hWidth⟩

/- The length of a first field of 4 GiB has no encoding. -/
theorem large_field_has_no_encoding :
    asBytes slices [⟨(), replicate (2 ^ 32) 0⟩, ⟨(), []⟩] = none := by
  rw [eq_none_iff_forall_ne_some]
  intro data hData
  have hFit := (asBytes_iff slices _).mp ⟨data, hData⟩ ⟨(), replicate (2 ^ 32) 0⟩ mem_cons_self rfl
  simp only [bytes, slices, id, length_replicate] at hFit
  exact Nat.lt_irrefl _ hFit

end Struct

end Redbx

import Redbx.Core.Bytes

/-
  The types of keys and values, and how they are encoded.

  The types are given by a grammar: scalars, strings, byte strings and arrays, options, arrays,
  tuples, legacy tuples and vectors. Values are of one type `Val`; a sequence stands for the
  elements of an array, a tuple or a vector, and a float for its bits. An operation that panics
  returns `none`.

  Three formats of lengths occur. Arrays of elements of variable width begin with the end of each
  element in 32 bits; legacy tuples with the lengths of all elements but the last in 32 bits; tuples
  with those of the elements of variable width, the last one apart, in a variable number of bytes.

  Key definitions include:
    * `Tys`, `Val`
-/

namespace Redbx

-- Types and Values

/- The types of numbers. -/
inductive NumTy where
  | u8 | u16 | u32 | u64 | u128
  | i8 | i16 | i32 | i64 | i128
  | f32 | f64
  deriving DecidableEq

mutual

/- The types; `str` is `&str`, `bytes` is `&[u8]`. -/
inductive Ty where
  | unit
  | bool
  | num (t : NumTy)
  | char
  | str
  | string
  | bytes
  | byteArray (n : Nat)
  | option (t : Ty)
  | array (t : Ty) (n : Nat)
  | tuple (legacy : Bool) (ts : Tys)
  | vec (t : Ty)

/- The elements of a tuple. -/
inductive Tys where
  | one (t : Ty)
  | cons (t : Ty) (ts : Tys)

end

/- The values of all types. -/
inductive Val where
  | unit
  | bool (b : Bool)
  | num (i : Int)
  | char (c : Char)
  | str (s : String)
  | bytes (b : Bytes)
  | none
  | some (v : Val)
  | seq (vs : List Val)

namespace NumTy

/- `size_of`. -/
def size : NumTy → Nat
  | u8 | i8 => 1
  | u16 | i16 => 2
  | u32 | i32 | f32 => 4
  | u64 | i64 | f64 => 8
  | u128 | i128 => 16

def signed : NumTy → Bool
  | i8 | i16 | i32 | i64 | i128 => true
  | _ => false

/- The number is one of the type. -/
def InRange (t : NumTy) (i : Int) : Prop :=
  if t.signed then
    -(256 ^ t.size / 2) ≤ i ∧ i < 256 ^ t.size / 2
  else
    0 ≤ i ∧ i < 256 ^ t.size

instance (t : NumTy) : DecidablePred t.InRange := fun i =>
  inferInstanceAs (Decidable (if t.signed then
    -(256 ^ t.size / 2) ≤ i ∧ i < 256 ^ t.size / 2 else 0 ≤ i ∧ i < 256 ^ t.size))

/- `to_le_bytes`. -/
def toLeBytes (t : NumTy) (i : Int) : Bytes := Bytes.toLe t.size (i % 256 ^ t.size).toNat

/- `from_le_bytes`, on a slice of the right length. -/
def fromLeBytes (t : NumTy) (data : Bytes) : Option Int :=
  if data.length = t.size then
    let n : Int := Bytes.ofLe data
    if t.signed ∧ 256 ^ t.size / 2 ≤ n then
      some (n - 256 ^ t.size)
    else
      some n
  else
    none

end NumTy

namespace Val

def asBool : Val → Option Bool
  | bool b => Option.some b
  | _ => Option.none

def asNum : Val → Option Int
  | num i => Option.some i
  | _ => Option.none

def asChar : Val → Option Char
  | char c => Option.some c
  | _ => Option.none

def asStr : Val → Option String
  | str s => Option.some s
  | _ => Option.none

def asSlice : Val → Option Bytes
  | bytes b => Option.some b
  | _ => Option.none

def asOption : Val → Option (Option Val)
  | none => Option.some Option.none
  | some v => Option.some (Option.some v)
  | _ => Option.none

def asSeq : Val → Option (List Val)
  | seq vs => Option.some vs
  | _ => Option.none

end Val

-- Lengths and Slices

/- `encode_varint_len`. -/
def encodeVarintLen (len : Nat) : Option Bytes :=
  if len < 254 then
    some [UInt8.ofNat len]
  else if len ≤ 65535 then
    some (254 :: Bytes.toLe 2 len)
  else if len < 2 ^ 32 then
    some (255 :: Bytes.toLe 4 len)
  else
    none

/- The unsigned number in the first bytes. -/
def readLe (width : Nat) (data : Bytes) : Option Nat :=
  if width ≤ data.length then
    some (Bytes.ofLe (data.take width))
  else
    none

/- `decode_varint_len`, with the number of bytes read. -/
def decodeVarintLen : Bytes → Option (Nat × Nat)
  | [] => none
  | b :: rest =>
    if b.toNat < 254 then
      some (b.toNat, 1)
    else if b.toNat = 254 then
      (readLe 2 rest).map fun len => (len, 3)
    else
      (readLe 4 rest).map fun len => (len, 5)

/- The next `len` bytes, and those after them. -/
def splitOff (len : Nat) (data : Bytes) : Option (Bytes × Bytes) :=
  if len ≤ data.length then
    some (data.take len, data.drop len)
  else
    none

/- The slice `data[start..stop]`. -/
def range (data : Bytes) (start stop : Nat) : Option Bytes :=
  if start ≤ stop ∧ stop ≤ data.length then
    some (data.slice start (stop - start))
  else
    none

/- A length in 32 bits. -/
def wordLen (len : Nat) : Option Bytes :=
  if len < 2 ^ 32 then some (Bytes.toLe 4 len) else none

/- The bytes of a string. -/
def utf8 (s : String) : Bytes := s.toUTF8.data.toList

/- `from_utf8`. -/
def fromUtf8 (data : Bytes) : Option String := String.fromUTF8? ⟨data.toArray⟩

-- Widths

mutual

/- `fixed_width`. -/
def Ty.fixedWidth : Ty → Option Nat
  | .unit => some 0
  | .bool => some 1
  | .num t => some t.size
  | .char => some 3
  | .str => none
  | .string => none
  | .bytes => none
  | .byteArray n => some n
  | .option t => t.fixedWidth.map (· + 1)
  | .array t n => t.fixedWidth.map (· * n)
  | .tuple _ ts => ts.fixedWidth
  | .vec _ => none

/- `fixed_width_impl`. -/
def Tys.fixedWidth : Tys → Option Nat
  | .one t => t.fixedWidth
  | .cons t ts => do
    let first ← t.fixedWidth
    let rest ← ts.fixedWidth
    return first + rest

end

/- The widths of all elements but the last. -/
def Tys.initWidths : Tys → List (Option Nat)
  | .one _ => []
  | .cons t ts => t.fixedWidth :: ts.initWidths

-- Encoding

/- The ends of the elements of an array. -/
def arrayEnds : Nat → List Bytes → List Nat
  | _, [] => []
  | start, part :: rest =>
    (start + part.length) :: arrayEnds (start + part.length) rest

/- Elements of variable width after their ends. -/
def offsetBytes (parts : List Bytes) : Option Bytes := do
  let ends ← (arrayEnds (4 * parts.length) parts).mapM wordLen
  return ends.flatten ++ parts.flatten

/- The lengths that precede the elements of a tuple. -/
def varintHeader : List (Option Nat) → List Bytes → Option Bytes
  | none :: widths, part :: parts => do
    let len ← encodeVarintLen part.length
    let rest ← varintHeader widths parts
    return len ++ rest
  | some _ :: widths, _ :: parts => varintHeader widths parts
  | _, _ => some []

/- The lengths that precede those of a legacy tuple. -/
def wordHeader (parts : List Bytes) : Option Bytes := do
  let lens ← (parts.dropLast.map List.length).mapM wordLen
  return lens.flatten

/- `serialize_tuple_elements_variable`, before the elements. -/
def tupleHeader (legacy : Bool) (widths : List (Option Nat)) (parts : List Bytes) : Option Bytes :=
  if legacy then wordHeader parts else varintHeader widths parts

/- A vector element, preceded by its length if it varies. -/
def vecElement (width : Option Nat) (part : Bytes) : Option Bytes :=
  if width.isSome then
    some part
  else do
    let len ← encodeVarintLen part.length
    return len ++ part

mutual

/- `as_bytes`. -/
def Ty.asBytes : Ty → Val → Option Bytes
  | .unit, v =>
    match v with
    | .unit => some []
    | _ => none
  | .bool, v => v.asBool.map fun b => [if b then 1 else 0]
  | .num t, v => v.asNum.map t.toLeBytes
  | .char, v => v.asChar.map fun c => Bytes.toLe 3 c.toNat
  | .str, v => v.asStr.map utf8
  | .string, v => v.asStr.map utf8
  | .bytes, v => v.asSlice
  | .byteArray _, v => do
    let vs ← v.asSeq
    let parts ← vs.mapM fun u => u.asNum.map NumTy.u8.toLeBytes
    return parts.flatten
  | .option t, v => do
    match ← v.asOption with
    | none => return 0 :: Bytes.zeros (t.fixedWidth.getD 0)
    | some u =>
      let part ← t.asBytes u
      return 1 :: part
  | .array t _, v => do
    let vs ← v.asSeq
    let parts ← vs.mapM fun u => t.asBytes u
    if t.fixedWidth.isSome then
      return parts.flatten
    else
      offsetBytes parts
  | .tuple legacy ts, v => do
    let vs ← v.asSeq
    let parts ← ts.parts vs
    if ts.fixedWidth.isSome then
      return parts.flatten
    else
      let header ← tupleHeader legacy ts.initWidths parts
      return header ++ parts.flatten
  | .vec t, v => do
    let vs ← v.asSeq
    let count ← encodeVarintLen vs.length
    let parts ← vs.mapM fun u => t.asBytes u
    let elements ← parts.mapM (vecElement t.fixedWidth)
    return count ++ elements.flatten

/- The encodings of the elements of a tuple. -/
def Tys.parts : Tys → List Val → Option (List Bytes)
  | .one t, vs =>
    match vs with
    | [u] => do
      let part ← t.asBytes u
      return [part]
    | _ => none
  | .cons t ts, vs =>
    match vs with
    | u :: us => do
      let part ← t.asBytes u
      let rest ← ts.parts us
      return part :: rest
    | [] => none

end

-- Decoding

/- Elements of one width. -/
def fixedElements (width : Nat) (decode : Bytes → Option Val) : Nat → Bytes → Option (List Val)
  | 0, _ => some []
  | n + 1, data => do
    let (part, rest) ← splitOff width data
    let v ← decode part
    let vs ← fixedElements width decode n rest
    return v :: vs

/- Elements between the ends, read from `words` on. -/
def offsetElements (data : Bytes) (decode : Bytes → Option Val) :
    Nat → Bytes → Nat → Option (List Val)
  | 0, _, _ => some []
  | n + 1, words, start => do
    let stop ← readLe 4 words
    let part ← range data start stop
    let v ← decode part
    let vs ← offsetElements data decode n (words.drop 4) stop
    return v :: vs

/- `parse_lens` of a tuple, with the bytes after the lengths. -/
def parseLens : List (Option Nat) → Bytes → Option (List Nat × Bytes)
  | [], data => some ([], data)
  | some width :: widths, data => do
    let (lens, rest) ← parseLens widths data
    return (width :: lens, rest)
  | none :: widths, data => do
    let (len, bytesRead) ← decodeVarintLen data
    let (lens, rest) ← parseLens widths (data.drop bytesRead)
    return (len :: lens, rest)

/- `parse_lens` of a legacy tuple. -/
def parseWords : Nat → Bytes → Option (List Nat × Bytes)
  | 0, data => some ([], data)
  | n + 1, data => do
    let len ← readLe 4 data
    let (lens, rest) ← parseWords n (data.drop 4)
    return (len :: lens, rest)

/- The lengths of all elements but the last. -/
def tupleLens (legacy : Bool) (ts : Tys) (data : Bytes) : Option (List Nat × Bytes) :=
  if legacy then
    parseWords ts.initWidths.length data
  else
    parseLens ts.initWidths data

/- `(T,)`, which has an implementation of its own: the data is that of the element. -/
def Tys.single : Tys → Bool
  | .one _ => true
  | .cons _ _ => false

/- The elements of a vector, with the bytes after them. -/
def vecElements (width : Option Nat) (decode : Bytes → Option Val) :
    Nat → Bytes → Option (List Val × Bytes)
  | 0, data => some ([], data)
  | n + 1, data => do
    let (len, bytesRead) ← match width with
      | some len => some (len, 0)
      | none => decodeVarintLen data
    let (part, rest) ← splitOff len (data.drop bytesRead)
    let v ← decode part
    let (vs, rest) ← vecElements width decode n rest
    return (v :: vs, rest)

mutual

/- `from_bytes`. -/
def Ty.fromBytes : Ty → Bytes → Option Val
  | .unit, _ => some .unit
  | .bool, data => do
    match ← data.head? with
    | 0 => return .bool false
    | 1 => return .bool true
    | _ => none
  | .num t, data => (t.fromLeBytes data).map .num
  | .char, data => do
    let n ← readLe 3 data
    if n.isValidChar then return .char (Char.ofNat n) else none
  | .str, data => (fromUtf8 data).map .str
  | .string, data => (fromUtf8 data).map .str
  | .bytes, data => some (.bytes data)
  | .byteArray n, data =>
    if data.length = n then
      some (.seq (data.map fun b => .num b.toNat))
    else
      none
  | .option t, data => do
    match ← data.head? with
    | 0 => return .none
    | 1 => (t.fromBytes data.tail).map .some
    | _ => none
  | .array t n, data =>
    match t.fixedWidth with
    | some width =>
      (fixedElements width (fun part => t.fromBytes part) n data).map .seq
    | none =>
      (offsetElements data (fun part => t.fromBytes part) n data (4 * n)).map .seq
  | .tuple legacy ts, data =>
    if ts.fixedWidth.isSome && !ts.single then
      (ts.fromFixed data).map .seq
    else do
      let (lens, rest) ← tupleLens legacy ts data
      (ts.fromVariable lens rest).map .seq
  | .vec t, data => do
    let (count, bytesRead) ← decodeVarintLen data
    let (vs, rest) ← vecElements t.fixedWidth (fun part => t.fromBytes part) count
      (data.drop bytesRead)
    if rest = [] then return .seq vs else none

/- `from_bytes_fixed_impl`. -/
def Tys.fromFixed : Tys → Bytes → Option (List Val)
  | .one t, data => do
    let width ← t.fixedWidth
    let (part, _) ← splitOff width data
    let v ← t.fromBytes part
    return [v]
  | .cons t ts, data => do
    let width ← t.fixedWidth
    let (part, rest) ← splitOff width data
    let v ← t.fromBytes part
    let vs ← ts.fromFixed rest
    return v :: vs

/- `from_bytes_variable_impl`, after the lengths. -/
def Tys.fromVariable : Tys → List Nat → Bytes → Option (List Val)
  | .one t, _, data => do
    let v ← t.fromBytes data
    return [v]
  | .cons t ts, lens, data => do
    let len ← lens.head?
    let (part, rest) ← splitOff len data
    let v ← t.fromBytes part
    let vs ← ts.fromVariable lens.tail rest
    return v :: vs

end

-- Comparison

/- The lexicographic order of lists. -/
def lexCompare {α : Type} (compare : α → α → Ordering) : List α → List α → Ordering
  | [], [] => .eq
  | [], _ :: _ => .lt
  | _ :: _, [] => .gt
  | a :: as, b :: bs =>
    (compare a b).then (lexCompare compare as bs)

/- The order of byte slices. -/
def compareBytes (data1 data2 : Bytes) : Ordering :=
  lexCompare (fun a b => compare a.toNat b.toNat) data1 data2

/- Return an order that is not equal, or go on. -/
def unlessEqual (order : Ordering) (next : Option Ordering) : Option Ordering :=
  match order with
  | .eq => next
  | other => some other

/- The fixed case of `[T; N]`. -/
def compareFixedElements (width : Nat) (compare : Bytes → Bytes → Option Ordering) :
    Nat → Bytes → Bytes → Option Ordering
  | 0, _, _ => some .eq
  | n + 1, data1, data2 => do
    let (part1, rest1) ← splitOff width data1
    let (part2, rest2) ← splitOff width data2
    let order ← compare part1 part2
    unlessEqual order (compareFixedElements width compare n rest1 rest2)

/- The variable case of `[T; N]`. -/
def compareOffsetElements (data1 data2 : Bytes) (compare : Bytes → Bytes → Option Ordering) :
    Nat → Bytes → Bytes → Nat → Nat → Option Ordering
  | 0, _, _, _, _ => some .eq
  | n + 1, words1, words2, start1, start2 => do
    let stop1 ← readLe 4 words1
    let stop2 ← readLe 4 words2
    let part1 ← range data1 start1 stop1
    let part2 ← range data2 start2 stop2
    let order ← compare part1 part2
    unlessEqual order (compareOffsetElements data1 data2 compare n
        (words1.drop 4) (words2.drop 4) stop1 stop2)

mutual

/- The type is a `Key`. -/
def Ty.isKey : Ty → Bool
  | .num .f32 => false
  | .num .f64 => false
  | .option t => t.isKey
  | .array t _ => t.isKey
  | .tuple _ ts => ts.isKey
  | .vec _ => false
  | _ => true

def Tys.isKey : Tys → Bool
  | .one t => t.isKey
  | .cons t ts => t.isKey && ts.isKey

end

mutual

/- `compare`, for the types that are keys. -/
def Ty.compare : Ty → Bytes → Bytes → Option Ordering
  | .unit, _, _ => some .eq
  | .bool, data1, data2 => do
    let value1 ← (← Ty.bool.fromBytes data1).asBool
    let value2 ← (← Ty.bool.fromBytes data2).asBool
    return Ord.compare value1 value2
  | .num t, data1, data2 => do
    let value1 ← t.fromLeBytes data1
    let value2 ← t.fromLeBytes data2
    return Ord.compare value1 value2
  | .char, data1, data2 => do
    let value1 ← (← Ty.char.fromBytes data1).asChar
    let value2 ← (← Ty.char.fromBytes data2).asChar
    return Ord.compare value1.toNat value2.toNat
  | .str, data1, data2 => do
    let str1 ← fromUtf8 data1
    let str2 ← fromUtf8 data2
    return compareBytes (utf8 str1) (utf8 str2)
  | .string, data1, data2 => do
    let str1 ← fromUtf8 data1
    let str2 ← fromUtf8 data2
    return compareBytes (utf8 str1) (utf8 str2)
  | .bytes, data1, data2 => some (compareBytes data1 data2)
  | .byteArray _, data1, data2 =>
    some (compareBytes data1 data2)
  | .option t, data1, data2 => do
    let tag1 ← data1.head?
    let tag2 ← data2.head?
    if tag1 = 0 then
      if tag2 = 0 then return .eq else return .lt
    else if tag2 = 0 then
      return .gt
    else
      t.compare data1.tail data2.tail
  | .array t n, data1, data2 =>
    match t.fixedWidth with
    | some width =>
      compareFixedElements width (fun part1 part2 => t.compare part1 part2) n data1 data2
    | none =>
      compareOffsetElements data1 data2 (fun part1 part2 => t.compare part1 part2) n data1
        data2 (4 * n) (4 * n)
  | .tuple legacy ts, data1, data2 =>
    if ts.fixedWidth.isSome && !ts.single then
      ts.compareFixed data1 data2
    else do
      let (lens1, rest1) ← tupleLens legacy ts data1
      let (lens2, rest2) ← tupleLens legacy ts data2
      ts.compareVariable lens1 lens2 rest1 rest2
  | .vec _, _, _ => none

/- `compare_fixed_impl`. -/
def Tys.compareFixed : Tys → Bytes → Bytes → Option Ordering
  | .one t, data1, data2 => do
    let width ← t.fixedWidth
    let (part1, _) ← splitOff width data1
    let (part2, _) ← splitOff width data2
    t.compare part1 part2
  | .cons t ts, data1, data2 => do
    let width ← t.fixedWidth
    let (part1, rest1) ← splitOff width data1
    let (part2, rest2) ← splitOff width data2
    let order ← t.compare part1 part2
    unlessEqual order (ts.compareFixed rest1 rest2)

/- `compare_variable_impl`, after the lengths. -/
def Tys.compareVariable : Tys → List Nat → List Nat → Bytes → Bytes → Option Ordering
  | .one t, _, _, data1, data2 => t.compare data1 data2
  | .cons t ts, lens1, lens2, data1, data2 => do
    let len1 ← lens1.head?
    let len2 ← lens2.head?
    let (part1, rest1) ← splitOff len1 data1
    let (part2, rest2) ← splitOff len2 data2
    let order ← t.compare part1 part2
    unlessEqual order (ts.compareVariable lens1.tail lens2.tail rest1 rest2)

end

end Redbx

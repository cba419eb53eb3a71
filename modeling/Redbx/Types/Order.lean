import Redbx.Types.RoundTrip

/-
  Encodings are ordered as their values, and which values have an encoding.

  The comparison of two encodings goes through the parts as decoding does, and stops at the first
  that differ. A value has an encoding unless a length in it does not fit: parts of less than 4 GiB
  are too large for an array if their sum is, and a vector can have too many elements.

  Key theorems include:
    * `asBytes_isSome_iff`, `faithful_iff_lengths_fit`
-/

namespace Redbx

open List

-- The Order of Values

namespace Val

def elements (v : Val) : List Val := v.asSeq.getD []

def cmpBool : Val → Val → Ordering
  | bool a, bool b => Ord.compare a b
  | _, _ => .eq

def cmpNum : Val → Val → Ordering
  | num i, num j => Ord.compare i j
  | _, _ => .eq

def cmpChar : Val → Val → Ordering
  | char c, char d => Ord.compare c.toNat d.toNat
  | _, _ => .eq

/- Strings are ordered by their bytes, as `str` is. -/
def cmpStr : Val → Val → Ordering
  | str s, str r => compareBytes (utf8 s) (utf8 r)
  | _, _ => .eq

def cmpSlice : Val → Val → Ordering
  | bytes a, bytes b => compareBytes a b
  | _, _ => .eq

/- `None` comes first. -/
def cmpOption (cmp : Val → Val → Ordering) : Val → Val → Ordering
  | none, none => .eq
  | none, some _ => .lt
  | some _, none => .gt
  | some v, some w => cmp v w
  | _, _ => .eq

end Val

mutual

/- The natural order of the values of a type. -/
def Ty.cmp : Ty → Val → Val → Ordering
  | .unit, _, _ => .eq
  | .bool, v, w => v.cmpBool w
  | .num _, v, w => v.cmpNum w
  | .char, v, w => v.cmpChar w
  | .str, v, w => v.cmpStr w
  | .string, v, w => v.cmpStr w
  | .bytes, v, w => v.cmpSlice w
  | .byteArray _, v, w =>
    lexCompare Val.cmpNum v.elements w.elements
  | .option t, v, w => Val.cmpOption (fun a b => t.cmp a b) v w
  | .array t _, v, w =>
    lexCompare (fun a b => t.cmp a b) v.elements w.elements
  | .tuple _ ts, v, w => ts.cmps v.elements w.elements
  | .vec t, v, w =>
    lexCompare (fun a b => t.cmp a b) v.elements w.elements

def Tys.cmps : Tys → List Val → List Val → Ordering
  | .one t, vs, ws =>
    match vs, ws with
    | v :: _, w :: _ => t.cmp v w
    | _, _ => .eq
  | .cons t ts, vs, ws =>
    match vs, ws with
    | v :: vs, w :: ws => (t.cmp v w).then (ts.cmps vs ws)
    | _, _ => .eq

end

-- Comparing Part by Part

theorem unlessEqual_some (order next : Ordering) :
    unlessEqual order (some next) = some (order.then next) := by
  cases order with
  | lt | eq | gt => rfl

section Loops

variable {encode : Val → Option Bytes} {compare : Bytes → Bytes → Option Ordering}
    {cmp : Val → Val → Ordering} {vs ws : List Val} {parts1 parts2 : List Bytes}

theorem compareFixedElements_flatten
    {width : Nat} (hParts1 : Encodes encode vs parts1) (hParts2 : Encodes encode ws parts2)
    (hLength : vs.length = ws.length)
    (hCompare : ∀ v ∈ vs, ∀ w ∈ ws, ∀ part1 part2, encode v = some part1 → encode w = some part2 →
          compare part1 part2 = some (cmp v w) ∧ part1.length = width ∧ part2.length = width)
    (rest1 rest2 : Bytes) :
    compareFixedElements width compare vs.length
      (parts1.flatten ++ rest1) (parts2.flatten ++ rest2) =
      some (lexCompare cmp vs ws) := by
  induction hParts1 generalizing ws parts2 with
  | nil =>
    cases hParts2 with
    | nil => rfl
    | cons _ _ => cases hLength
  | @cons v part1 vs parts1 hHead1 _ ih =>
    cases hParts2 with
    | nil => cases hLength
    | @cons w part2 ws parts2 hHead2 hTail2 =>
      rcases hCompare v mem_cons_self w mem_cons_self part1 part2 hHead1 hHead2 with
        ⟨hOrder, hLen1, hLen2⟩
      have hRest := ih hTail2 (by simpa using hLength) fun a ha b hb => hCompare a
          (mem_cons_of_mem _ ha) b (mem_cons_of_mem _ hb)
      simp only [length_cons, compareFixedElements, flatten_cons, append_assoc,
        splitOff_append hLen1, splitOff_append hLen2,
        Option.bind_eq_bind, Option.bind_some, hOrder, hRest, unlessEqual_some, lexCompare]

theorem compareOffsetElements_flatten
    {words1 words2 : List Bytes} {front1 front2 : Bytes} (hParts1 : Encodes encode vs parts1)
    (hParts2 : Encodes encode ws parts2) (hLength : vs.length = ws.length)
    (hCompare : ∀ v ∈ vs, ∀ w ∈ ws, ∀ part1 part2, encode v = some part1 → encode w = some part2 →
          compare part1 part2 = some (cmp v w))
    (hWords1 : (arrayEnds front1.length parts1).mapM wordLen = some words1)
    (hWords2 : (arrayEnds front2.length parts2).mapM wordLen = some words2) (rest1 rest2 : Bytes) :
    compareOffsetElements (front1 ++ parts1.flatten) (front2 ++ parts2.flatten) compare vs.length
      (words1.flatten ++ rest1) (words2.flatten ++ rest2) front1.length front2.length =
      some (lexCompare cmp vs ws) := by
  induction hParts1 generalizing ws parts2 front1 front2 words1 words2 with
  | nil =>
    cases hParts2 with
    | nil => rfl
    | cons _ _ => cases hLength
  | @cons v part1 vs parts1 hHead1 _ ih =>
    cases hParts2 with
    | nil => cases hLength
    | @cons w part2 ws parts2 hHead2 hTail2 =>
      rcases nextElement hWords1 rest1 with ⟨_, hLater1, hRead1, hSlice1, hDrop1, hNext1⟩
      rcases nextElement hWords2 rest2 with ⟨_, hLater2, hRead2, hSlice2, hDrop2, hNext2⟩
      have hOrder := hCompare v mem_cons_self w mem_cons_self part1 part2 hHead1 hHead2
      have hRest := ih hTail2 (by simpa using hLength) (fun a ha b hb => hCompare a
          (mem_cons_of_mem _ ha) b (mem_cons_of_mem _ hb)) hLater1 hLater2
      simp only [length_cons, compareOffsetElements, hRead1, hRead2, Option.bind_eq_bind,
        Option.bind_some, hSlice1, hSlice2, hOrder, hDrop1, hDrop2, lexCompare]
      rw [hNext1, hNext2, ← length_append, ← length_append, hRest, unlessEqual_some]

end Loops

/- Bytes are ordered as the numbers they are. -/
theorem lexCompare_bytes (data1 data2 : Bytes) :
    lexCompare Val.cmpNum (data1.map fun b => .num b.toNat) (data2.map fun b => .num b.toNat) =
      compareBytes data1 data2 := by
  have hByte (a b : UInt8) : Ord.compare (a.toNat : Int) (b.toNat : Int) =
        Ord.compare a.toNat b.toNat := by
    simp [Ord.compare, compareOfLessAndEq]
  induction data1 generalizing data2 with
  | nil =>
    cases data2 with
    | nil => rfl
    | cons => rfl
  | cons _ _ ih =>
    cases data2 with
    | nil => rfl
    | cons => simp only [map_cons, lexCompare, ih, compareBytes, Val.cmpNum, hByte]

mutual

/- Encodings of keys compare as the keys do. -/
theorem Ty.compare_asBytes : (t : Ty) → {v w : Val} → {b c : Bytes} → t.HasType v → t.HasType w →
      t.asBytes v = some b → t.asBytes w = some c →
      t.isKey = true → t.compare b c = some (t.cmp v w)
  | .unit, v, w, b, c, hv, hw, hb, hc, hKey => rfl
  | .bool, v, w, b, c, hv, hw, hb, hc, hKey => by
    have hBack1 := Ty.fromBytes_asBytes .bool hv hb
    have hBack2 := Ty.fromBytes_asBytes .bool hw hc
    rcases hv with ⟨x, rfl⟩
    rcases hw with ⟨y, rfl⟩
    simp [Ty.compare, hBack1, hBack2, Val.asBool, Ty.cmp, Val.cmpBool]
  | .num t, v, w, b, c, hv, hw, hb, hc, hKey => by
    rcases hv with ⟨i, rfl, hRange1⟩
    rcases hw with ⟨j, rfl, hRange2⟩
    cases hb
    cases hc
    simp [Ty.compare, NumTy.fromLeBytes_toLeBytes hRange1,
      NumTy.fromLeBytes_toLeBytes hRange2, Ty.cmp, Val.cmpNum]
  | .char, v, w, b, c, hv, hw, hb, hc, hKey => by
    have hBack1 := Ty.fromBytes_asBytes .char hv hb
    have hBack2 := Ty.fromBytes_asBytes .char hw hc
    rcases hv with ⟨x, rfl⟩
    rcases hw with ⟨y, rfl⟩
    simp [Ty.compare, hBack1, hBack2, Val.asChar, Ty.cmp, Val.cmpChar]
  | .str, v, w, b, c, hv, hw, hb, hc, hKey | .string, v, w, b, c, hv, hw, hb, hc, hKey => by
    rcases hv with ⟨x, rfl⟩
    rcases hw with ⟨y, rfl⟩
    cases hb
    cases hc
    simp [Ty.compare, fromUtf8_utf8, Ty.cmp, Val.cmpStr]
  | .bytes, v, w, b, c, hv, hw, hb, hc, hKey => by
    rcases hv with ⟨x, rfl⟩
    rcases hw with ⟨y, rfl⟩
    cases hb
    cases hc
    rfl
  | .byteArray n, v, w, b, c, hv, hw, hb, hc, hKey => by
    rcases hv with ⟨vs, rfl, _, hAll1⟩
    rcases hw with ⟨ws, rfl, _, hAll2⟩
    simp only [Ty.asBytes, Val.asSeq, Option.bind_eq_bind,
      Option.bind_some, Option.bind_eq_some_iff] at hb hc
    rcases hb with ⟨parts1, hParts1, hEq1⟩
    rcases hc with ⟨parts2, hParts2, hEq2⟩
    cases hEq1
    cases hEq2
    have hMap1 := (byteArray_flatten (mapM_eq_some.mp hParts1) hAll1).1
    have hMap2 := (byteArray_flatten (mapM_eq_some.mp hParts2) hAll2).1
    have hOrder := lexCompare_bytes parts1.flatten parts2.flatten
    rw [hMap1, hMap2] at hOrder
    exact congrArg some hOrder.symm
  | .option t, v, w, b, c, hv, hw, hb, hc, hKey => by
    have hInner : t.isKey = true := hKey
    rcases hv with rfl | ⟨x, rfl, hx⟩
    · cases hb
      rcases hw with rfl | ⟨y, rfl, hy⟩
      · cases hc
        rfl
      · simp only [Ty.asBytes, Val.asOption, Option.bind_eq_bind, Option.bind_some,
          Option.bind_eq_some_iff] at hc
        rcases hc with ⟨part, hPart, hEq⟩
        cases hEq
        rfl
    · simp only [Ty.asBytes, Val.asOption, Option.bind_eq_bind, Option.bind_some,
        Option.bind_eq_some_iff] at hb
      rcases hb with ⟨part1, hPart1, hEq⟩
      cases hEq
      rcases hw with rfl | ⟨y, rfl, hy⟩
      · cases hc
        rfl
      · simp only [Ty.asBytes, Val.asOption, Option.bind_eq_bind, Option.bind_some,
          Option.bind_eq_some_iff] at hc
        rcases hc with ⟨part2, hPart2, hEq⟩
        cases hEq
        exact Ty.compare_asBytes t hx hy hPart1 hPart2 hInner
  | .array t n, v, w, b, c, hv, hw, hb, hc, hKey => by
    have hInner : t.isKey = true := hKey
    rcases hv with ⟨vs, rfl, hLength1, hAll1⟩
    rcases hw with ⟨ws, rfl, hLength2, hAll2⟩
    simp only [Ty.asBytes, Val.asSeq, Option.bind_eq_bind,
      Option.bind_some, Option.bind_eq_some_iff] at hb hc
    rcases hb with ⟨parts1, hParts1, hRest1⟩
    rcases hc with ⟨parts2, hParts2, hRest2⟩
    have hEncodes1 := mapM_eq_some.mp hParts1
    have hEncodes2 := mapM_eq_some.mp hParts2
    have hSame : vs.length = ws.length := by rw [hLength1, hLength2]
    cases hWidth : t.fixedWidth with
    | some =>
      rw [hWidth] at hRest1 hRest2
      cases hRest1
      cases hRest2
      have hOrder := compareFixedElements_flatten hEncodes1 hEncodes2 hSame
        (fun x hx y hy part1 part2 hPart1 hPart2 =>
          ⟨Ty.compare_asBytes t (hAll1 x hx) (hAll2 y hy) hPart1 hPart2 hInner,
          Ty.asBytes_width t (hAll1 x hx) hPart1 hWidth,
          Ty.asBytes_width t (hAll2 y hy) hPart2 hWidth⟩)
        [] []
      rw [append_nil, append_nil, hLength1] at hOrder
      simp only [Ty.compare, hWidth]
      exact hOrder
    | none =>
      rw [hWidth] at hRest1 hRest2
      simp only [Option.isSome_none, Bool.false_eq_true, if_false, offsetBytes, Option.bind_eq_bind,
        Option.bind_eq_some_iff] at hRest1 hRest2
      rcases hRest1 with ⟨_, hWords1, hEq1⟩
      rcases hRest2 with ⟨_, hWords2, hEq2⟩
      cases hEq1
      cases hEq2
      have hFront1 := arrayEnds_words hWords1
      have hFront2 := arrayEnds_words hWords2
      have hCount1 : parts1.length = n := by
        rw [← hLength1]
        exact hEncodes1.length_eq.symm
      have hCount2 : parts2.length = n := by
        rw [← hLength2]
        exact hEncodes2.length_eq.symm
      rw [← hFront1] at hWords1
      rw [← hFront2] at hWords2
      have hOrder := compareOffsetElements_flatten hEncodes1 hEncodes2 hSame
        (fun x hx y hy part1 part2 hPart1 hPart2 =>
          Ty.compare_asBytes t (hAll1 x hx) (hAll2 y hy) hPart1 hPart2 hInner)
        hWords1 hWords2 parts1.flatten parts2.flatten
      rw [hLength1, hFront1, hFront2, hCount1, hCount2] at hOrder
      simp only [Ty.compare, hWidth]
      exact hOrder
  | .tuple legacy ts, v, w, b, c, hv, hw, hb, hc, hKey => by
    have hInner : ts.isKey = true := hKey
    rcases hv with ⟨vs, rfl, hAll1⟩
    rcases hw with ⟨ws, rfl, hAll2⟩
    simp only [Ty.asBytes, Val.asSeq, Option.bind_eq_bind,
      Option.bind_some, Option.bind_eq_some_iff] at hb hc
    rcases hb with ⟨parts1, hParts1, hRest1⟩
    rcases hc with ⟨parts2, hParts2, hRest2⟩
    cases hWidth : ts.fixedWidth with
    | some =>
      rw [hWidth] at hRest1 hRest2
      cases hRest1
      cases hRest2
      cases hSingle : ts.single with
      | false =>
        have hOrder := Tys.compareFixed_parts ts hAll1 hAll2 hParts1 hParts2 hInner hWidth [] []
        rw [append_nil, append_nil] at hOrder
        simp only [Ty.compare, hWidth, hSingle, Option.isSome_some, Bool.not_false, Bool.and_true,
          if_true]
        exact hOrder
      | true =>
        have hLens1 := tupleLens_single hSingle hAll1 hParts1 legacy parts1.flatten
        have hLens2 := tupleLens_single hSingle hAll2 hParts2 legacy parts2.flatten
        have hOrder := Tys.compareVariable_parts ts hAll1 hAll2 hParts1 hParts2 hInner
        simp only [Ty.compare, hSingle, Bool.not_true, Bool.and_false, Bool.false_eq_true, if_false,
          hLens1, hLens2, Option.bind_eq_bind, Option.bind_some]
        exact hOrder
    | none =>
      rw [hWidth] at hRest1 hRest2
      simp only [Option.isSome_none, Bool.false_eq_true,
        if_false, Option.bind_eq_some_iff] at hRest1 hRest2
      rcases hRest1 with ⟨_, hHeader1, hEq1⟩
      rcases hRest2 with ⟨_, hHeader2, hEq2⟩
      cases hEq1
      cases hEq2
      have hLens1 := tupleLens_header hAll1 hParts1 hHeader1 parts1.flatten
      have hLens2 := tupleLens_header hAll2 hParts2 hHeader2 parts2.flatten
      have hOrder := Tys.compareVariable_parts ts hAll1 hAll2 hParts1 hParts2 hInner
      simp only [Ty.compare, hWidth, Option.isSome_none, Bool.false_and,
        Bool.false_eq_true, if_false, hLens1, hLens2, Option.bind_eq_bind, Option.bind_some]
      exact hOrder
  | .vec t, v, w, b, c, hv, hw, hb, hc, hKey => by
    cases hKey

theorem Tys.compareFixed_parts :
    (ts : Tys) → {vs ws : List Val} → {parts1 parts2 : List Bytes} → {width : Nat} →
      ts.HasTypes vs → ts.HasTypes ws →
      ts.parts vs = some parts1 → ts.parts ws = some parts2 →
      ts.isKey = true → ts.fixedWidth = some width →
      (rest1 rest2 : Bytes) →
      ts.compareFixed (parts1.flatten ++ rest1) (parts2.flatten ++ rest2) = some (ts.cmps vs ws)
  | .one t, vs, ws, parts1, parts2, width, hv, hw, h1, h2, hKey, hWidth, rest1, rest2 => by
    rcases Tys.parts_one hv h1 with ⟨x, part1, rfl, rfl, hx, hPart1⟩
    rcases Tys.parts_one hw h2 with ⟨y, part2, rfl, rfl, hy, hPart2⟩
    have hFixed : t.fixedWidth = some width := hWidth
    have hLen1 := Ty.asBytes_width t hx hPart1 hFixed
    have hLen2 := Ty.asBytes_width t hy hPart2 hFixed
    have hOrder := Ty.compare_asBytes t hx hy hPart1 hPart2 hKey
    simp [Tys.compareFixed, hFixed, splitOff_append hLen1, splitOff_append hLen2, hOrder, Tys.cmps]
  | .cons t ts, vs, ws, parts1, parts2, width, hv, hw, h1, h2, hKey, hWidth, rest1, rest2 => by
    rcases Tys.parts_cons hv h1 with ⟨_, _, _, _, rfl, rfl, hx, hPart1, hxs, hLater1⟩
    rcases Tys.parts_cons hw h2 with ⟨_, _, _, _, rfl, rfl, hy, hPart2, hys, hLater2⟩
    simp only [Tys.fixedWidth, Option.bind_eq_bind, Option.bind_eq_some_iff] at hWidth
    rcases hWidth with ⟨_, hFirst, _, hOthers, _⟩
    simp only [Tys.isKey, Bool.and_eq_true] at hKey
    have hLen1 := Ty.asBytes_width t hx hPart1 hFirst
    have hLen2 := Ty.asBytes_width t hy hPart2 hFirst
    have hOrder := Ty.compare_asBytes t hx hy hPart1 hPart2 hKey.1
    have hMore := Tys.compareFixed_parts ts hxs hys hLater1 hLater2 hKey.2 hOthers rest1 rest2
    simp [Tys.compareFixed, hFirst, append_assoc,
      splitOff_append hLen1, splitOff_append hLen2, hOrder, hMore, unlessEqual_some, Tys.cmps]

theorem Tys.compareVariable_parts : (ts : Tys) → {vs ws : List Val} → {parts1 parts2 : List Bytes} →
      ts.HasTypes vs → ts.HasTypes ws →
      ts.parts vs = some parts1 → ts.parts ws = some parts2 →
      ts.isKey = true →
      ts.compareVariable (parts1.dropLast.map List.length)
        (parts2.dropLast.map List.length) parts1.flatten parts2.flatten = some (ts.cmps vs ws)
  | .one t, vs, ws, parts1, parts2, hv, hw, h1, h2, hKey => by
    rcases Tys.parts_one hv h1 with ⟨x, part1, rfl, rfl, hx, hPart1⟩
    rcases Tys.parts_one hw h2 with ⟨y, part2, rfl, rfl, hy, hPart2⟩
    have hOrder := Ty.compare_asBytes t hx hy hPart1 hPart2 hKey
    simp [Tys.compareVariable, hOrder, Tys.cmps]
  | .cons t ts, vs, ws, parts1, parts2, hv, hw, h1, h2, hKey => by
    rcases Tys.parts_cons hv h1 with ⟨_, _, _, _, rfl, rfl, hx, hPart1, hxs, hLater1⟩
    rcases Tys.parts_cons hw h2 with ⟨_, _, _, _, rfl, rfl, hy, hPart2, hys, hLater2⟩
    simp only [Tys.isKey, Bool.and_eq_true] at hKey
    have hOrder := Ty.compare_asBytes t hx hy hPart1 hPart2 hKey.1
    have hMore := Tys.compareVariable_parts ts hxs hys hLater1 hLater2 hKey.2
    rw [dropLast_lengths_cons (ts.parts_ne_nil hLater1),
      dropLast_lengths_cons (ts.parts_ne_nil hLater2)]
    simp only [Tys.compareVariable, head?_cons, tail_cons, Option.bind_eq_bind, Option.bind_some,
      flatten_cons, splitOff_append rfl, hOrder, hMore, unlessEqual_some, Tys.cmps]

end

-- Which Values Have an Encoding

/- The elements of a tuple with their types. -/
def Tys.directParts : Tys → List Val → List (Ty × Val)
  | .one t, vs => (vs.take 1).map fun u => (t, u)
  | .cons t ts, vs =>
    (vs.take 1).map (fun u => (t, u)) ++ ts.directParts vs.tail

/- The parts that a value is put together from. -/
def Ty.directParts : Ty → Val → List (Ty × Val)
  | .option t, v =>
    match v with
    | .some u => [(t, u)]
    | _ => []
  | .array t _, v => v.elements.map fun u => (t, u)
  | .tuple _ ts, v => ts.directParts v.elements
  | .vec t, v => v.elements.map fun u => (t, u)
  | _, _ => []

/- The value encodes to less than 4 GiB. -/
def EncodesSmall (t : Ty) (v : Val) : Prop := ∃ b, t.asBytes v = some b ∧ b.length < 2 ^ 32

/- Every part of the value encodes to less than 4 GiB. -/
def PartsSmall (t : Ty) (v : Val) : Prop := ∀ part ∈ t.directParts v, EncodesSmall part.1 part.2

/- The ends of the elements of an array, and the number of elements of a vector, fit in 32 bits. -/
def LengthsFit (t : Ty) (v : Val) : Prop :=
  match t with
  | .array u n =>
    u.fixedWidth = none → n ≠ 0 → ∀ parts, v.elements.mapM u.asBytes = some parts →
        4 * n + parts.flatten.length < 2 ^ 32
  | .vec _ => v.elements.length < 2 ^ 32
  | _ => True

theorem encodeVarintLen_isSome (len : Nat) :
    (encodeVarintLen len).isSome = true ↔ len < 2 ^ 32 := by
  unfold encodeVarintLen
  split
  · next hSmall =>
    simp only [Option.isSome_some, true_iff]
    omega
  · split
    · next hMiddle =>
      simp only [Option.isSome_some, true_iff]
      omega
    · split
      · next hLarge =>
        simp only [Option.isSome_some, true_iff]
        exact hLarge
      · next hMore =>
        simp only [Option.isSome_none, Bool.false_eq_true, false_iff]
        exact hMore

theorem encodeVarintLen_returns {len : Nat} (hLess : len < 2 ^ 32) :
    ∃ header, encodeVarintLen len = some header :=
  Option.isSome_iff_exists.mp ((encodeVarintLen_isSome len).mpr hLess)

theorem mapM_returns
    {α β : Type} {f : α → Option β} {as : List α} (hAll : ∀ a ∈ as, ∃ b, f a = some b) :
    ∃ bs, as.mapM f = some bs := by
  induction as with
  | nil => exact ⟨[], rfl⟩
  | cons a as ih =>
    rcases hAll a mem_cons_self with ⟨b, hHead⟩
    rcases ih fun x hx => hAll x (mem_cons_of_mem _ hx) with ⟨bs, hTail⟩
    refine ⟨b :: bs, mapM_eq_some.mpr ?_⟩
    exact .cons hHead (mapM_eq_some.mp hTail)

theorem arrayEnds_returns_iff (start : Nat) (parts : List Bytes) :
    (∃ words, (arrayEnds start parts).mapM wordLen = some words) ↔
      (parts ≠ [] → start + parts.flatten.length < 2 ^ 32) := by
  induction parts generalizing start with
  | nil => simp [arrayEnds]
  | cons part parts ih =>
    have hSplit : (∃ words, (arrayEnds start (part :: parts)).mapM wordLen = some words) ↔
          start + part.length < 2 ^ 32 ∧ ∃ words, (arrayEnds (start + part.length)
              parts).mapM wordLen = some words := by
      refine ⟨?_, ?_⟩
      · rintro ⟨words, hWords⟩
        rw [arrayEnds, mapM_eq_some, List.forall₂_cons_left_iff] at hWords
        rcases hWords with ⟨word, later, hWord, hLater, _⟩
        exact ⟨(wordLen_eq_some.mp hWord).1, later, mapM_eq_some.mpr hLater⟩
      · rintro ⟨hLess, later, hLater⟩
        refine ⟨Bytes.toLe 4 (start + part.length) :: later, mapM_eq_some.mpr (.cons ?_ ?_)⟩
        · exact wordLen_eq_some.mpr ⟨hLess, rfl⟩
        · exact mapM_eq_some.mp hLater
    rw [hSplit, ih]
    simp only [ne_eq, reduceCtorEq, not_false_eq_true, true_implies, flatten_cons, length_append]
    refine ⟨?_, ?_⟩
    · rintro ⟨hLess, hRest⟩
      by_cases hNil : parts = []
      · rw [hNil]
        simpa using hLess
      · have hTotal := hRest hNil
        omega
    · intro hTotal
      exact ⟨by omega, fun _ => by omega⟩

theorem Tys.parts_returns :
    (ts : Tys) → {vs : List Val} → ts.HasTypes vs → (∀ part ∈ ts.directParts vs,
        EncodesSmall part.1 part.2) →
      ∃ parts, ts.parts vs = some parts ∧ ∀ part ∈ parts, part.length < 2 ^ 32
  | .one t, vs, hTypes, hSmall => by
    rcases hTypes with ⟨u, rfl, _⟩
    rcases hSmall (t, u) (by simp [Tys.directParts]) with ⟨part, hPart, hLess⟩
    have hEncode : t.asBytes u = some part := hPart
    refine ⟨[part], by simp [Tys.parts, hEncode], ?_⟩
    intro other hOther
    rw [mem_singleton.mp hOther]
    exact hLess
  | .cons t ts, vs, hTypes, hSmall => by
    rcases hTypes with ⟨u, us, rfl, _, hRest⟩
    rcases hSmall (t, u) (by simp [Tys.directParts]) with ⟨part, hPart, hLess⟩
    have hEncode : t.asBytes u = some part := hPart
    rcases Tys.parts_returns ts hRest (fun other hOther =>
      hSmall other (by simp [Tys.directParts, hOther])) with
      ⟨later, hLater, hAll⟩
    refine ⟨part :: later, by simp [Tys.parts, hEncode, hLater], ?_⟩
    intro other hOther
    rcases mem_cons.mp hOther with rfl | hIn
    · exact hLess
    · exact hAll other hIn

theorem tupleHeader_returns (legacy : Bool) (widths : List (Option Nat)) {parts : List Bytes}
    (hSmall : ∀ part ∈ parts, part.length < 2 ^ 32) :
    ∃ header, tupleHeader legacy widths parts = some header := by
  cases legacy with
  | true =>
    have hWords : ∃ words, (parts.dropLast.map List.length).mapM wordLen = some words := by
      refine mapM_returns fun len hLen => ?_
      rcases mem_map.mp hLen with ⟨part, hPart, rfl⟩
      exact ⟨_, wordLen_eq_some.mpr ⟨hSmall part (dropLast_subset _ hPart), rfl⟩⟩
    rcases hWords with ⟨words, hWords⟩
    refine ⟨words.flatten, ?_⟩
    simp only [tupleHeader, if_true, wordHeader, hWords, Option.bind_eq_bind, Option.bind_some]
    rfl
  | false =>
    change ∃ header, varintHeader widths parts = some header
    induction widths generalizing parts with
    | nil => exact ⟨[], rfl⟩
    | cons width _ ih =>
      rcases parts with _ | ⟨part, parts⟩
      · cases width with
        | none => exact ⟨[], rfl⟩
        | some w => exact ⟨[], rfl⟩
      rcases ih fun p hp => hSmall p (mem_cons_of_mem _ hp) with ⟨rest, hRest⟩
      cases width with
      | some w => exact ⟨rest, hRest⟩
      | none =>
        rcases encodeVarintLen_returns (hSmall part mem_cons_self) with ⟨len, hLen⟩
        exact ⟨len ++ rest, by simp [varintHeader, hLen, hRest]⟩

/- A value of small parts encodes if its lengths fit. -/
theorem asBytes_isSome_iff {t : Ty} {v : Val} (hType : t.HasType v) (hSmall : PartsSmall t v) :
    (∃ b, t.asBytes v = some b) ↔ LengthsFit t v := by
  cases t with
  | unit =>
    cases hType
    exact ⟨fun _ => trivial, fun _ => ⟨_, rfl⟩⟩
  | bool =>
    rcases hType with ⟨x, rfl⟩
    exact ⟨fun _ => trivial, fun _ => ⟨_, rfl⟩⟩
  | num t =>
    rcases hType with ⟨i, rfl, _⟩
    exact ⟨fun _ => trivial, fun _ => ⟨_, rfl⟩⟩
  | char =>
    rcases hType with ⟨c, rfl⟩
    exact ⟨fun _ => trivial, fun _ => ⟨_, rfl⟩⟩
  | str | string =>
    rcases hType with ⟨s, rfl⟩
    exact ⟨fun _ => trivial, fun _ => ⟨_, rfl⟩⟩
  | bytes =>
    rcases hType with ⟨b, rfl⟩
    exact ⟨fun _ => trivial, fun _ => ⟨_, rfl⟩⟩
  | byteArray n =>
    rcases hType with ⟨vs, rfl, _, hAll⟩
    have hParts : ∃ parts, vs.mapM (fun u => u.asNum.map NumTy.u8.toLeBytes) = some parts := by
      refine mapM_returns fun u hu => ?_
      rcases hAll u hu with ⟨i, rfl, _⟩
      exact ⟨_, rfl⟩
    rcases hParts with ⟨parts, hParts⟩
    refine ⟨fun _ => trivial, fun _ => ⟨parts.flatten, ?_⟩⟩
    simp [Ty.asBytes, Val.asSeq, hParts]
  | option t =>
    refine ⟨fun _ => trivial, fun _ => ?_⟩
    rcases hType with rfl | ⟨u, rfl, _⟩
    · exact ⟨_, rfl⟩
    · rcases hSmall (t, u) mem_cons_self with ⟨part, hPart, _⟩
      have hEncode : t.asBytes u = some part := hPart
      exact ⟨1 :: part, by simp [Ty.asBytes, Val.asOption, hEncode]⟩
  | array t n =>
    rcases hType with ⟨vs, rfl, hLength, _⟩
    have hParts : ∃ parts, vs.mapM (fun u => t.asBytes u) = some parts := by
      refine mapM_returns fun u hu => ?_
      rcases hSmall (t, u) (mem_map_of_mem hu) with ⟨part, hPart, _⟩
      exact ⟨part, hPart⟩
    rcases hParts with ⟨parts, hParts⟩
    have hCount : parts.length = n := by
      rw [← hLength]
      exact (mapM_eq_some.mp hParts).length_eq.symm
    cases hWidth : t.fixedWidth with
    | some =>
      refine ⟨fun _ hNone => ?_, fun _ => ⟨parts.flatten, ?_⟩⟩
      · rw [hWidth] at hNone
        cases hNone
      · simp [Ty.asBytes, Val.asSeq, hParts, hWidth]
    | none =>
      have hEncode : (Ty.array t n).asBytes (.seq vs) = offsetBytes parts := by
        simp [Ty.asBytes, Val.asSeq, hParts, hWidth]
      have hEnds := arrayEnds_returns_iff (4 * parts.length) parts
      have hNil : parts ≠ [] ↔ n ≠ 0 := by rw [← hCount, ne_eq, ne_eq, length_eq_zero_iff]
      have hBytes : (∃ b, offsetBytes parts = some b) ↔ ∃ words, (arrayEnds (4 * parts.length)
            parts).mapM wordLen = some words := by
        refine ⟨?_, ?_⟩
        · rintro ⟨b, hb⟩
          simp only [offsetBytes, Option.bind_eq_bind, Option.bind_eq_some_iff] at hb
          rcases hb with ⟨words, hWords, _⟩
          exact ⟨words, hWords⟩
        · rintro ⟨words, hWords⟩
          exact ⟨words.flatten ++ parts.flatten, by simp [offsetBytes, hWords]⟩
      rw [hEncode, hBytes, hEnds, hNil, hCount]
      refine ⟨fun hFits _ hNe parts' hParts' => ?_, fun hFits hNe => hFits hWidth hNe parts hParts⟩
      have hSame : some parts = some parts' := hParts.symm.trans hParts'
      cases hSame
      exact hFits hNe
  | tuple legacy ts =>
    rcases hType with ⟨vs, rfl, hAll⟩
    refine ⟨fun _ => trivial, fun _ => ?_⟩
    rcases ts.parts_returns hAll hSmall with ⟨parts, hParts, hLess⟩
    cases hWidth : ts.fixedWidth with
    | some => exact ⟨parts.flatten, by simp [Ty.asBytes, Val.asSeq, hParts, hWidth]⟩
    | none =>
      rcases tupleHeader_returns legacy ts.initWidths hLess with ⟨header, hHeader⟩
      exact ⟨header ++ parts.flatten, by simp [Ty.asBytes, Val.asSeq, hParts, hWidth, hHeader]⟩
  | vec t =>
    rcases hType with ⟨vs, rfl, _⟩
    refine ⟨?_, fun hCount => ?_⟩
    · rintro ⟨b, hb⟩
      simp only [Ty.asBytes, Val.asSeq, Option.bind_eq_bind,
        Option.bind_some, Option.bind_eq_some_iff] at hb
      rcases hb with ⟨count, hCount, _⟩
      exact (encodeVarintLen_isSome _).mp (Option.isSome_iff_exists.mpr ⟨count, hCount⟩)
    · have hParts : ∃ parts, vs.mapM (fun u => t.asBytes u) = some parts := by
        refine mapM_returns fun u hu => ?_
        rcases hSmall (t, u) (mem_map_of_mem hu) with ⟨part, hPart, _⟩
        exact ⟨part, hPart⟩
      rcases hParts with ⟨parts, hParts⟩
      have hLess : ∀ part ∈ parts, part.length < 2 ^ 32 := by
        intro part hPart
        rcases List.forall₂_iff_get.mp (mapM_eq_some.mp hParts) with ⟨hSame, hEach⟩
        rcases get_of_mem hPart with ⟨i, rfl⟩
        have hIn : i.1 < vs.length := by
          rw [hSame]
          exact i.2
        have hEncode := hEach i.1 hIn i.2
        rcases hSmall (t, vs.get ⟨i.1, hIn⟩) (mem_map_of_mem (get_mem _ _)) with
          ⟨other, hOther, hLen⟩
        have hEq : some other = some (parts.get i) := hOther.symm.trans hEncode
        cases hEq
        exact hLen
      have hElements : ∃ elements, parts.mapM (vecElement t.fixedWidth) = some elements := by
        refine mapM_returns fun part hPart => ?_
        cases hWidth : t.fixedWidth with
        | some => exact ⟨part, rfl⟩
        | none =>
          rcases encodeVarintLen_returns (hLess part hPart) with ⟨len, hLen⟩
          exact ⟨len ++ part, by simp [vecElement, hLen]⟩
      rcases hElements with ⟨elements, hElements⟩
      rcases encodeVarintLen_returns hCount with ⟨count, hVarint⟩
      refine ⟨count ++ elements.flatten, ?_⟩
      have hSeq : (Val.seq vs).elements = vs := rfl
      rw [hSeq] at hVarint
      simp [Ty.asBytes, Val.asSeq, hVarint, hParts, hElements]

-- Faithful Encodings

/-
  Both values encode and decode to themselves, have the fixed width if there is one, and keys are
  ordered as they are.
-/
def Faithful (t : Ty) (v w : Val) : Prop :=
  ∃ b c, t.asBytes v = some b ∧ t.asBytes w = some c ∧
      t.fromBytes b = some v ∧ t.fromBytes c = some w ∧
      (∀ width, t.fixedWidth = some width → b.length = width ∧ c.length = width) ∧
      (t.isKey = true → t.compare b c = some (t.cmp v w))

/-
  For values whose parts are less than 4 GiB the encoding is faithful exactly if the lengths in them
  fit.
-/
theorem faithful_iff_lengths_fit
    (t : Ty) (v w : Val) (hv : t.HasType v) (hw : t.HasType w) (hSmall1 : PartsSmall t v)
    (hSmall2 : PartsSmall t w) :
    Faithful t v w ↔ LengthsFit t v ∧ LengthsFit t w := by
  refine ⟨?_, ?_⟩
  · rintro ⟨b, c, hb, hc, _⟩
    exact ⟨(asBytes_isSome_iff hv hSmall1).mp ⟨b, hb⟩, (asBytes_isSome_iff hw hSmall2).mp ⟨c, hc⟩⟩
  · rintro ⟨hFit1, hFit2⟩
    rcases (asBytes_isSome_iff hv hSmall1).mpr hFit1 with ⟨b, hb⟩
    rcases (asBytes_isSome_iff hw hSmall2).mpr hFit2 with ⟨c, hc⟩
    exact ⟨b, c, hb, hc, t.fromBytes_asBytes hv hb, t.fromBytes_asBytes hw hc,
      fun width hWidth => ⟨t.asBytes_width hv hb hWidth, t.asBytes_width hw hc hWidth⟩,
      t.compare_asBytes hv hw hb hc⟩

/- A string and a number beside it. -/
def namedNumber : Ty := .tuple false (.cons .str (.one (.num .u8)))

theorem namedNumber_small (name : String) (i : Int) (hLess : (utf8 name).length < 2 ^ 32) :
    PartsSmall namedNumber (.seq [.str name, .num i]) := by
  intro part hPart
  have hParts : namedNumber.directParts (.seq [.str name, .num i]) =
        [(.str, .str name), (.num .u8, .num i)] := rfl
  rw [hParts] at hPart
  rcases mem_cons.mp hPart with rfl | hLast
  · exact ⟨utf8 name, rfl, hLess⟩
  · rw [mem_singleton.mp hLast]
    refine ⟨NumTy.u8.toLeBytes i, rfl, ?_⟩
    rw [NumTy.toLeBytes, Bytes.length_toLe]
    decide

/- The encodings of ("a", 2) and ("b", 1) are faithful. -/
theorem named_numbers_faithful :
    namedNumber.HasType (.seq [.str "a", .num 2]) ∧ namedNumber.HasType (.seq [.str "b", .num 1]) ∧
      Faithful namedNumber (.seq [.str "a", .num 2]) (.seq [.str "b", .num 1]) := by
  have hType (name : String) (i : Int) (hRange : NumTy.u8.InRange i) :
      namedNumber.HasType (.seq [.str name, .num i]) :=
    ⟨_, rfl, _, _, rfl, ⟨name, rfl⟩, _, rfl, i, rfl, hRange⟩
  have hFirst := hType "a" 2 ⟨by decide, by decide⟩
  have hSecond := hType "b" 1 ⟨by decide, by decide⟩
  refine ⟨hFirst, hSecond, ?_⟩
  exact (faithful_iff_lengths_fit _ _ _ hFirst hSecond (namedNumber_small "a" 2 (by decide))
    (namedNumber_small "b" 1 (by decide))).mpr
    ⟨trivial, trivial⟩

theorem two_slices_not_faithful {slice : Bytes} (hLess : slice.length < 2 ^ 32)
    (hMore : 2 ^ 32 ≤ 8 + (slice.length + slice.length)) :
    (Ty.array .bytes 2).HasType (.seq [.bytes slice, .bytes slice]) ∧
      PartsSmall (.array .bytes 2) (.seq [.bytes slice, .bytes slice]) ∧
      ¬Faithful (.array .bytes 2) (.seq [.bytes slice, .bytes slice])
        (.seq [.bytes slice, .bytes slice]) := by
  have hType : (Ty.array .bytes 2).HasType (.seq [.bytes slice, .bytes slice]) := by
    refine ⟨_, rfl, rfl, ?_⟩
    intro u hu
    simp only [mem_cons, not_mem_nil, or_false, or_self] at hu
    exact ⟨slice, hu⟩
  have hSmall : PartsSmall (.array .bytes 2) (.seq [.bytes slice, .bytes slice]) := by
    intro part hPart
    rcases mem_map.mp hPart with ⟨u, hu, rfl⟩
    have hSame : u = .bytes slice := by simpa [Val.elements, Val.asSeq] using hu
    rw [hSame]
    exact ⟨slice, rfl, hLess⟩
  refine ⟨hType, hSmall, ?_⟩
  rintro ⟨b, _, hb, _⟩
  have hFits := (asBytes_isSome_iff hType hSmall).mp ⟨b, hb⟩
  have hTotal := hFits rfl (by decide) [slice, slice] rfl
  simp only [flatten_cons, flatten_nil, length_append, length_nil] at hTotal
  omega

/-
  In an array of two slices of 2 GiB each part encodes to less than 4 GiB, but the second one ends
  beyond: there is no encoding.
-/
theorem large_pair_has_no_encoding :
    (Ty.array .bytes 2).HasType (.seq [.bytes (Bytes.zeros (2 ^ 31)),
          .bytes (Bytes.zeros (2 ^ 31))]) ∧
      PartsSmall (.array .bytes 2) (.seq [.bytes (Bytes.zeros (2 ^ 31)),
          .bytes (Bytes.zeros (2 ^ 31))]) ∧
      ¬Faithful (.array .bytes 2) (.seq [.bytes (Bytes.zeros (2 ^ 31)),
          .bytes (Bytes.zeros (2 ^ 31))])
        (.seq [.bytes (Bytes.zeros (2 ^ 31)), .bytes (Bytes.zeros (2 ^ 31))]) := by
  have hLength := Bytes.length_zeros (2 ^ 31)
  exact two_slices_not_faithful (by rw [hLength]; decide) (by rw [hLength]; decide)

end Redbx

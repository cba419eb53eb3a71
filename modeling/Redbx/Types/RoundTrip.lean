import Redbx.Types.Codec
import Mathlib.Data.List.Forall2

/-
  What has been encoded is decoded to the same value.

  Each length format delimits its elements: reading the lengths gives back the parts, and the parts
  are decoded one by one. The induction is over the type.

  Key theorems include:
    * `Ty.asBytes_width`, `Ty.fromBytes_asBytes`
-/

namespace Redbx

open List Option

-- Values of a Type

mutual

/- The value is one of the type. -/
def Ty.HasType : Ty → Val → Prop
  | .unit, v => v = .unit
  | .bool, v => ∃ b, v = .bool b
  | .num t, v => ∃ i, v = .num i ∧ t.InRange i
  | .char, v => ∃ c, v = .char c
  | .str, v => ∃ s, v = .str s
  | .string, v => ∃ s, v = .str s
  | .bytes, v => ∃ b, v = .bytes b
  | .byteArray n, v =>
    ∃ vs, v = .seq vs ∧ vs.length = n ∧ ∀ u ∈ vs, ∃ i, u = .num i ∧ NumTy.u8.InRange i
  | .option t, v => v = .none ∨ ∃ u, v = .some u ∧ t.HasType u
  | .array t n, v =>
    ∃ vs, v = .seq vs ∧ vs.length = n ∧ ∀ u ∈ vs, t.HasType u
  | .tuple _ ts, v => ∃ vs, v = .seq vs ∧ ts.HasTypes vs
  | .vec t, v => ∃ vs, v = .seq vs ∧ ∀ u ∈ vs, t.HasType u

def Tys.HasTypes : Tys → List Val → Prop
  | .one t, vs => ∃ u, vs = [u] ∧ t.HasType u
  | .cons t ts, vs =>
    ∃ u us, vs = u :: us ∧ t.HasType u ∧ ts.HasTypes us

end

-- Lengths

variable {width : Nat}

theorem readLe_append {n : Nat} (hFits : n < 256 ^ width) (rest : Bytes) :
    readLe width (Bytes.toLe width n ++ rest) = some n := by
  have hTake : (Bytes.toLe width n ++ rest).take width = Bytes.toLe width n :=
    take_left' (Bytes.length_toLe width n)
  simp [readLe, hTake, Bytes.ofLe_toLe hFits]

variable {len : Nat}

/- A length at the front is read back, with its size. -/
theorem decodeVarintLen_append
    {header : Bytes} (hEncode : encodeVarintLen len = some header) (rest : Bytes) :
    decodeVarintLen (header ++ rest) = some (len, header.length) := by
  unfold encodeVarintLen at hEncode
  split at hEncode
  · next hSmall =>
    cases hEncode
    have hByte : (UInt8.ofNat len).toNat = len := by
      rw [UInt8.toNat_ofNat']
      omega
    simp [decodeVarintLen, hByte, hSmall]
  · split at hEncode
    · next hMiddle =>
      cases hEncode
      have hRead := readLe_append (show len < 256 ^ 2 by omega) rest
      have hByte : (254 : UInt8).toNat = 254 := rfl
      simp [decodeVarintLen, hByte, hRead]
    · split at hEncode
      · next hLarge =>
        cases hEncode
        have hRead := readLe_append (show len < 256 ^ 4 by omega) rest
        have hByte : (255 : UInt8).toNat = 255 := rfl
        simp [decodeVarintLen, hByte, hRead]
      · cases hEncode

theorem splitOff_append {part : Bytes} (hLen : part.length = len) (rest : Bytes) :
    splitOff len (part ++ rest) = some (part, rest) := by
  have hTake : (part ++ rest).take len = part := take_left' hLen
  have hDrop : (part ++ rest).drop len = rest := drop_left' hLen
  have hLe : len ≤ (part ++ rest).length := by
    rw [length_append]
    omega
  rw [splitOff, if_pos hLe, hTake, hDrop]

theorem wordLen_eq_some {word : Bytes} :
    wordLen len = some word ↔ len < 2 ^ 32 ∧ word = Bytes.toLe 4 len := by
  unfold wordLen
  split
  · next hLess =>
    rw [Option.some.injEq]
    exact ⟨fun hEq => ⟨hLess, hEq.symm⟩, fun h => h.2.symm⟩
  · next hMore =>
    refine ⟨fun hEq => ?_, fun h => absurd h.1 hMore⟩
    cases hEq

-- Parts

/- Each value has the encoding beside it. -/
def Encodes (encode : Val → Option Bytes) (vs : List Val) (parts : List Bytes) : Prop :=
  List.Forall₂ (fun v part => encode v = some part) vs parts

/- Encoding a list is encoding its members. -/
theorem mapM_eq_some {α β : Type} {f : α → Option β} {as : List α} {bs : List β} :
    as.mapM f = some bs ↔ List.Forall₂ (fun a b => f a = some b) as bs := by
  induction as generalizing bs with
  | nil =>
    rw [mapM_nil, List.forall₂_nil_left_iff]
    exact ⟨fun hEq => (Option.some.inj hEq).symm, fun hEq => congrArg some hEq.symm⟩
  | cons a as ih =>
    rw [mapM_cons]
    cases hHead : f a with
    | none => simp [List.forall₂_cons_left_iff, hHead]
    | some b =>
      cases hTail : as.mapM f with
      | none =>
        have hNone : ∀ rest, ¬List.Forall₂ (fun a b => f a = some b) as rest := by
          intro rest hAll
          rw [ih.mpr hAll] at hTail
          cases hTail
        simp [hHead, hNone, List.forall₂_cons_left_iff]
      | some rest =>
        have hRest : ∀ other, List.Forall₂ (fun a b => f a = some b) as other ↔ rest = other := by
          intro other
          rw [← ih, hTail, Option.some.injEq]
        simp [hHead, hRest, List.forall₂_cons_left_iff, eq_comm]

variable
    {vs : List Val} {parts : List Bytes} {encode : Val → Option Bytes} {decode : Bytes → Option Val}

theorem fixedElements_flatten (hParts : Encodes encode vs parts)
    (hDecode : ∀ v ∈ vs, ∀ part, encode v = some part → decode part = some v ∧ part.length = width)
    (rest : Bytes) :
    fixedElements width decode vs.length (parts.flatten ++ rest) = some vs := by
  induction hParts with
  | nil => rfl
  | @cons v part vs parts hHead _ ih =>
    rcases hDecode v mem_cons_self part hHead with ⟨hValue, hLen⟩
    have hRest := ih fun u hu => hDecode u (mem_cons_of_mem _ hu)
    simp [fixedElements, append_assoc, splitOff_append hLen, hValue, hRest]

variable {words : List Bytes}

/- The ends of all elements fit in 32 bits. -/
theorem arrayEnds_words {start : Nat} (hWords : (arrayEnds start parts).mapM wordLen = some words) :
    words.flatten.length = 4 * parts.length := by
  induction parts generalizing start words with
  | nil =>
    rw [arrayEnds, mapM_eq_some, List.forall₂_nil_left_iff] at hWords
    rw [hWords]
    rfl
  | cons _ _ ih =>
    rw [arrayEnds, mapM_eq_some, List.forall₂_cons_left_iff] at hWords
    rcases hWords with ⟨_, _, hWord, hRest, rfl⟩
    have hLength := ih (mapM_eq_some.mpr hRest)
    rw [(wordLen_eq_some.mp hWord).2]
    simp only [flatten_cons, length_append, Bytes.length_toLe, hLength, length_cons]
    omega

variable {parts : List Bytes}

/- The first word gives the end of the first part, and the others those of the later parts. -/
theorem nextElement {front part : Bytes}
    (hWords : (arrayEnds front.length (part :: parts)).mapM wordLen = some words) (rest : Bytes) :
    ∃ later, (arrayEnds (front ++ part).length parts).mapM wordLen = some later ∧
        readLe 4 (words.flatten ++ rest) = some (front.length + part.length) ∧
        range (front ++ (part :: parts).flatten) front.length
          (front.length + part.length) = some part ∧
        (words.flatten ++ rest).drop 4 = later.flatten ++ rest ∧
        front ++ (part :: parts).flatten = (front ++ part) ++ parts.flatten := by
  rw [arrayEnds, mapM_eq_some, List.forall₂_cons_left_iff] at hWords
  rcases hWords with ⟨word, later, hWord, hLater, rfl⟩
  rcases wordLen_eq_some.mp hWord with ⟨hFits, rfl⟩
  have hWord : (Bytes.toLe 4 (front.length + part.length) :: later).flatten ++ rest =
      Bytes.toLe 4 (front.length + part.length) ++ (later.flatten ++ rest) := by
    rw [flatten_cons, append_assoc]
  have hInside : front.length + part.length ≤ (front ++ (part :: parts).flatten).length := by
    simp only [flatten_cons, length_append]
    omega
  refine ⟨later, ?_, ?_, ?_, ?_, ?_⟩
  · rw [length_append]
    exact mapM_eq_some.mpr hLater
  · rw [hWord]
    exact readLe_append (show front.length + part.length < 256 ^ 4 by omega) _
  · rw [range, if_pos ⟨Nat.le_add_right _ _, hInside⟩, Nat.add_sub_cancel_left, flatten_cons]
    exact congrArg some (Bytes.slice_append_middle rfl rfl _)
  · rw [hWord]
    exact drop_left' (Bytes.length_toLe 4 _)
  · rw [flatten_cons, append_assoc]

theorem offsetElements_flatten {front : Bytes} (hParts : Encodes encode vs parts)
    (hDecode : ∀ v ∈ vs, ∀ part, encode v = some part → decode part = some v)
    (hWords : (arrayEnds front.length parts).mapM wordLen = some words) (rest : Bytes) :
    offsetElements (front ++ parts.flatten) decode vs.length
      (words.flatten ++ rest) front.length = some vs := by
  induction hParts generalizing front words with
  | nil => rfl
  | @cons v part vs parts hHead _ ih =>
    rcases nextElement hWords rest with ⟨later, hLater, hRead, hSlice, hDrop, hNext⟩
    have hRest := ih (fun u hu => hDecode u (mem_cons_of_mem _ hu)) hLater
    simp only [length_cons, offsetElements, hRead,
      bind_eq_bind, bind_some, hSlice, hDecode v mem_cons_self part hHead, hDrop]
    rw [hNext, ← length_append, hRest]
    rfl

theorem parseLens_header
    {widths : List (Option Nat)} {header : Bytes} (hCount : parts.length = widths.length + 1)
    (hWidths : ∀ (i : Nat) width part, widths[i]? = some (some width) →
        parts[i]? = some part → part.length = width)
    (hHeader : varintHeader widths parts = some header) (rest : Bytes) :
    parseLens widths (header ++ rest) = some (parts.dropLast.map List.length, rest) := by
  induction widths generalizing parts header with
  | nil =>
    rcases parts with _ | ⟨_, _ | ⟨_, _⟩⟩
    · cases hCount
    · cases hHeader
      rfl
    · simp at hCount
  | cons width widths ih =>
    rcases parts with _ | ⟨part, parts⟩
    · cases hCount
    have hRestCount : parts.length = widths.length + 1 := by simpa using hCount
    have hRestWidths : ∀ (i : Nat) width part, widths[i]? = some (some width) →
            parts[i]? = some part → part.length = width :=
      fun i w p hw hp => hWidths (i + 1) w p hw hp
    have hInit : (part :: parts).dropLast = part :: parts.dropLast := by
      rcases parts with _ | ⟨_, _⟩
      · cases hRestCount
      · rfl
    rw [hInit]
    cases width with
    | some w =>
      simp only [varintHeader] at hHeader
      have hLen := hWidths 0 w part rfl rfl
      simp [parseLens, ih hRestCount hRestWidths hHeader, hLen]
    | none =>
      simp only [varintHeader, bind_eq_bind, bind_eq_some_iff] at hHeader
      rcases hHeader with ⟨len, hLen, later, hLater, hEq⟩
      cases hEq
      have hDecode := decodeVarintLen_append hLen (later ++ rest)
      have hRest := ih hRestCount hRestWidths hLater
      simp [parseLens, append_assoc, hDecode, hRest]

/- The lengths of a legacy tuple are read back. -/
theorem parseWords_header {lens : List Nat} (hWords : lens.mapM wordLen = some words)
    (rest : Bytes) :
    parseWords lens.length (words.flatten ++ rest) = some (lens, rest) := by
  induction lens generalizing words with
  | nil =>
    rw [mapM_eq_some, List.forall₂_nil_left_iff] at hWords
    rw [hWords]
    rfl
  | cons len lens ih =>
    rw [mapM_eq_some, List.forall₂_cons_left_iff] at hWords
    rcases hWords with ⟨word, later, hWord, hLater, rfl⟩
    rcases wordLen_eq_some.mp hWord with ⟨hFits, rfl⟩
    have hRead := readLe_append (show len < 256 ^ 4 by omega) (later.flatten ++ rest)
    have hDrop : (Bytes.toLe 4 len ++ (later.flatten ++ rest)).drop 4 = later.flatten ++ rest :=
      drop_left' (Bytes.length_toLe 4 _)
    have hRest := ih (mapM_eq_some.mpr hLater)
    simp [parseWords, append_assoc, hRead, hDrop, hRest]

theorem vecElements_flatten
    {width : Option Nat} {elements : List Bytes} (hParts : Encodes encode vs parts)
    (hElements : parts.mapM (vecElement width) = some elements)
    (hDecode : ∀ v ∈ vs, ∀ part, encode v = some part → decode part = some v ∧
          ∀ w, width = some w → part.length = w)
    (rest : Bytes) :
    vecElements width decode vs.length (elements.flatten ++ rest) = some (vs, rest) := by
  induction hParts generalizing elements with
  | nil =>
    rw [mapM_eq_some, List.forall₂_nil_left_iff] at hElements
    rw [hElements]
    rfl
  | @cons v part vs parts hHead _ ih =>
    rw [mapM_eq_some, List.forall₂_cons_left_iff] at hElements
    rcases hElements with ⟨_, later, hElement, hLater, rfl⟩
    rcases hDecode v mem_cons_self part hHead with ⟨hValue, hLen⟩
    have hRest := ih (mapM_eq_some.mpr hLater) fun u hu => hDecode u (mem_cons_of_mem _ hu)
    cases width with
    | some w =>
      cases hElement
      simp [vecElements, append_assoc, splitOff_append (hLen w rfl), hValue, hRest]
    | none =>
      simp only [vecElement, isSome_none, Bool.false_eq_true, if_false, bind_eq_bind,
        bind_eq_some_iff] at hElement
      rcases hElement with ⟨len, hVarint, hEq⟩
      cases hEq
      have hRead := decodeVarintLen_append hVarint (part ++ (later.flatten ++ rest))
      simp [vecElements, append_assoc, hRead, splitOff_append rfl, hValue, hRest]

-- Scalars

theorem NumTy.fromLeBytes_toLeBytes {t : NumTy} {i : Int} (hRange : t.InRange i) :
    t.fromLeBytes (t.toLeBytes i) = some i := by
  have hPos : (0 : Int) < 256 ^ t.size := Int.pow_pos (by decide)
  have hNonneg := Int.emod_nonneg i hPos.ne'
  have hLess := Int.emod_lt_of_pos i hPos
  have hFits : (i % 256 ^ t.size).toNat < 256 ^ t.size := by
    have hCast : ((256 ^ t.size : Nat) : Int) = 256 ^ t.size := by push_cast; rfl
    omega
  have hBack : ((Bytes.ofLe (t.toLeBytes i) : Nat) : Int) = i % 256 ^ t.size := by
    rw [toLeBytes, Bytes.ofLe_toLe hFits, Int.toNat_of_nonneg hNonneg]
  have hLength : (t.toLeBytes i).length = t.size := Bytes.length_toLe _ _
  rw [fromLeBytes, if_pos hLength]
  simp only [hBack]
  unfold InRange at hRange
  cases hSigned : t.signed with
  | false =>
    rw [hSigned] at hRange
    simp only [Bool.false_eq_true, if_false] at hRange
    simp [Int.emod_eq_of_lt hRange.1 hRange.2]
  | true =>
    rw [hSigned] at hRange
    simp only [if_true] at hRange
    generalize hM : (256 : Int) ^ t.size = M at *
    by_cases hNeg : i < 0
    · have hMod : i % M = i + M := by
        rw [← Int.add_emod_right]
        exact Int.emod_eq_of_lt (by omega) (by omega)
      rw [hMod, if_pos ⟨rfl, by omega⟩]
      exact congrArg some (by omega)
    · have hMod : i % M = i := Int.emod_eq_of_lt (by omega) (by omega)
      rw [hMod, if_neg (by omega)]

theorem byteArray_flatten (hParts : Encodes (fun u => u.asNum.map NumTy.u8.toLeBytes) vs parts)
    (hBytes : ∀ u ∈ vs, ∃ i, u = .num i ∧ NumTy.u8.InRange i) :
    parts.flatten.map (fun b => Val.num b.toNat) = vs ∧ parts.flatten.length = vs.length := by
  induction hParts with
  | nil => exact ⟨rfl, rfl⟩
  | @cons v part vs parts hHead _ ih =>
    rcases hBytes v mem_cons_self with ⟨i, rfl, hRange⟩
    rcases ih fun u hu => hBytes u (mem_cons_of_mem _ hu) with ⟨hMap, hLength⟩
    cases hHead
    have hByte : NumTy.u8.toLeBytes i = [UInt8.ofNat (i % 256).toNat] := rfl
    have hBack : (((UInt8.ofNat (i % 256).toNat).toNat : Nat) : Int) = i := by
      have hIn : 0 ≤ i ∧ i < 256 := hRange
      rw [UInt8.toNat_ofNat']
      omega
    refine ⟨?_, ?_⟩
    · rw [hByte, flatten_cons, map_append, hMap, map_singleton, hBack]
      rfl
    · simp [hByte, hLength]

theorem readLe_char (c : Char) : readLe 3 (Bytes.toLe 3 c.toNat) = some c.toNat ∧
      c.toNat.isValidChar := by
  have hValid : c.toNat.isValidChar := c.valid
  have hLess : c.toNat < 256 ^ 3 := by
    unfold Nat.isValidChar at hValid
    omega
  have hRead := readLe_append hLess []
  rw [append_nil] at hRead
  exact ⟨hRead, hValid⟩

theorem fromUtf8_utf8 (s : String) : fromUtf8 (utf8 s) = some s := by
  have hArray : (⟨(utf8 s).toArray⟩ : ByteArray) = s.toUTF8 := by rw [utf8, Array.toArray_toList]
  have hValid : s.toUTF8.IsValidUTF8 := s.isValidUTF8
  rw [fromUtf8, hArray, String.fromUTF8?, dif_pos hValid]
  rfl

-- Widths

theorem length_flatten_of_width (hParts : Encodes encode vs parts)
    (hWidth : ∀ v ∈ vs, ∀ part, encode v = some part → part.length = width) :
    parts.flatten.length = width * vs.length := by
  induction hParts with
  | nil => rfl
  | @cons v part vs parts hHead _ ih =>
    have hRest := ih fun u hu => hWidth u (mem_cons_of_mem _ hu)
    have hFirst := hWidth v mem_cons_self part hHead
    simp only [flatten_cons, length_append, hRest, hFirst, length_cons, Nat.mul_add]
    omega

theorem Tys.parts_one {t : Ty} {vs : List Val} (hTypes : (Tys.one t).HasTypes vs)
    (hParts : (Tys.one t).parts vs = some parts) :
    ∃ u part, vs = [u] ∧ parts = [part] ∧ t.HasType u ∧ t.asBytes u = some part := by
  rcases hTypes with ⟨u, rfl, hType⟩
  simp only [Tys.parts, bind_eq_bind, bind_eq_some_iff] at hParts
  rcases hParts with ⟨part, hPart, hEq⟩
  cases hEq
  exact ⟨u, part, rfl, rfl, hType, hPart⟩

theorem Tys.parts_cons {t : Ty} {ts : Tys} {vs : List Val}
    (hTypes : (Tys.cons t ts).HasTypes vs) (hParts : (Tys.cons t ts).parts vs = some parts) :
    ∃ u us part later, vs = u :: us ∧ parts = part :: later ∧ t.HasType u ∧
      t.asBytes u = some part ∧ ts.HasTypes us ∧ ts.parts us = some later := by
  rcases hTypes with ⟨u, us, rfl, hType, hRest⟩
  simp only [Tys.parts, bind_eq_bind, bind_eq_some_iff] at hParts
  rcases hParts with ⟨part, hPart, later, hLater, hEq⟩
  cases hEq
  exact ⟨u, us, part, later, rfl, rfl, hType, hPart, hRest, hLater⟩

mutual

/- An encoding has the fixed width, if there is one. -/
theorem Ty.asBytes_width :
    (t : Ty) → {v : Val} → {b : Bytes} → {width : Nat} → t.HasType v → t.asBytes v = some b →
      t.fixedWidth = some width → b.length = width
  | .unit, v, b, width, hType, hBytes, hWidth => by
    cases hType
    cases hBytes
    cases hWidth
    rfl
  | .bool, v, b, width, hType, hBytes, hWidth => by
    rcases hType with ⟨value, rfl⟩
    cases hBytes
    cases hWidth
    rfl
  | .num t, v, b, width, hType, hBytes, hWidth => by
    rcases hType with ⟨i, rfl, _⟩
    cases hBytes
    cases hWidth
    exact Bytes.length_toLe _ _
  | .char, v, b, width, hType, hBytes, hWidth => by
    rcases hType with ⟨c, rfl⟩
    cases hBytes
    cases hWidth
    exact Bytes.length_toLe _ _
  | .str, v, b, width, hType, hBytes, hWidth => by
    cases hWidth
  | .string, v, b, width, hType, hBytes, hWidth => by
    cases hWidth
  | .bytes, v, b, width, hType, hBytes, hWidth => by
    cases hWidth
  | .byteArray n, v, b, width, hType, hBytes, hWidth => by
    rcases hType with ⟨vs, rfl, hLength, hAll⟩
    simp only [Ty.asBytes, Val.asSeq, bind_eq_bind, bind_some, bind_eq_some_iff] at hBytes
    rcases hBytes with ⟨parts, hParts, hEq⟩
    cases hEq
    cases hWidth
    rw [(byteArray_flatten (mapM_eq_some.mp hParts) hAll).2, hLength]
  | .option t, v, b, width, hType, hBytes, hWidth => by
    simp only [Ty.fixedWidth, map_eq_some_iff] at hWidth
    rcases hWidth with ⟨inner, hInner, rfl⟩
    rcases hType with rfl | ⟨u, rfl, hElement⟩
    · cases hBytes
      simp [hInner]
    · simp only [Ty.asBytes, Val.asOption, bind_eq_bind, bind_some, bind_eq_some_iff] at hBytes
      rcases hBytes with ⟨part, hPart, hEq⟩
      cases hEq
      rw [length_cons, Ty.asBytes_width t hElement hPart hInner]
  | .array t n, v, b, width, hType, hBytes, hWidth => by
    simp only [Ty.fixedWidth, map_eq_some_iff] at hWidth
    rcases hWidth with ⟨inner, hInner, rfl⟩
    rcases hType with ⟨vs, rfl, hLength, hAll⟩
    simp only [Ty.asBytes, Val.asSeq, bind_eq_bind,
      bind_some, bind_eq_some_iff, hInner, isSome_some, if_true] at hBytes
    rcases hBytes with ⟨parts, hParts, hEq⟩
    cases hEq
    rw [length_flatten_of_width (mapM_eq_some.mp hParts) fun u hu part hPart =>
        Ty.asBytes_width t (hAll u hu) hPart hInner, hLength]
  | .tuple legacy ts, v, b, width, hType, hBytes, hWidth => by
    rcases hType with ⟨vs, rfl, hAll⟩
    have hFixed : ts.fixedWidth = some width := hWidth
    simp only [Ty.asBytes, Val.asSeq, bind_eq_bind,
      bind_some, bind_eq_some_iff, hFixed, isSome_some, if_true] at hBytes
    rcases hBytes with ⟨parts, hParts, hEq⟩
    cases hEq
    exact Tys.parts_width ts hAll hParts hFixed
  | .vec t, v, b, width, hType, hBytes, hWidth => by
    cases hWidth

theorem Tys.parts_width :
    (ts : Tys) → {vs : List Val} → {parts : List Bytes} → {width : Nat} → ts.HasTypes vs →
      ts.parts vs = some parts → ts.fixedWidth = some width →
      parts.flatten.length = width
  | .one t, vs, parts, width, hTypes, hParts, hWidth => by
    rcases Tys.parts_one hTypes hParts with ⟨u, part, rfl, rfl, hType, hPart⟩
    simpa using Ty.asBytes_width t hType hPart hWidth
  | .cons t ts, vs, parts, width, hTypes, hParts, hWidth => by
    rcases Tys.parts_cons hTypes hParts with ⟨_, _, _, _, rfl, rfl, hType, hPart, hRest, hLater⟩
    simp only [Tys.fixedWidth, bind_eq_bind, bind_eq_some_iff] at hWidth
    rcases hWidth with ⟨_, hFirst, _, hOther, hSum⟩
    cases hSum
    rw [flatten_cons, length_append, Ty.asBytes_width t hType hPart hFirst,
      Tys.parts_width ts hRest hLater hOther]

end

-- Tuples

theorem Tys.parts_length :
    (ts : Tys) → {vs : List Val} → {parts : List Bytes} → ts.parts vs = some parts →
      parts.length = ts.initWidths.length + 1
  | .one t, vs, parts, hParts => by
    match vs, hParts with
    | [u], hParts =>
      simp only [Tys.parts, bind_eq_bind, bind_eq_some_iff] at hParts
      rcases hParts with ⟨part, _, hEq⟩
      cases hEq
      rfl
  | .cons t ts, vs, parts, hParts => by
    match vs, hParts with
    | u :: us, hParts =>
      simp only [Tys.parts, bind_eq_bind, bind_eq_some_iff] at hParts
      rcases hParts with ⟨_, _, _, hLater, hEq⟩
      cases hEq
      rw [length_cons, Tys.parts_length ts hLater]
      rfl

variable {parts : List Bytes}

theorem Tys.parts_ne_nil (ts : Tys) {vs : List Val} (hParts : ts.parts vs = some parts) :
    parts ≠ [] := by
  intro hNil
  have hCount := ts.parts_length hParts
  rw [hNil] at hCount
  cases hCount

theorem Tys.parts_initWidths : (ts : Tys) → {vs : List Val} → {parts : List Bytes} →
      ts.HasTypes vs → ts.parts vs = some parts →
      ∀ (i : Nat) width part, ts.initWidths[i]? = some (some width) →
          parts[i]? = some part → part.length = width
  | .one t, vs, parts, hTypes, hParts => by
    intro i width part hWidth
    simp [Tys.initWidths] at hWidth
  | .cons t ts, vs, parts, hTypes, hParts => by
    rcases Tys.parts_cons hTypes hParts with ⟨_, _, _, _, rfl, rfl, hType, hFirst, hRest, hLater⟩
    intro i width part hWidth hPart
    cases i with
    | zero =>
      cases hPart
      exact Ty.asBytes_width t hType hFirst (Option.some.inj hWidth)
    | succ i => exact Tys.parts_initWidths ts hRest hLater i width part hWidth hPart

theorem tupleLens_single
    {ts : Tys}
    {vs : List Val}
    (hSingle : ts.single = true)
    (hTypes : ts.HasTypes vs)
    (hParts : ts.parts vs = some parts)
    (legacy : Bool)
    (data : Bytes) :
    tupleLens legacy ts data = some (parts.dropLast.map List.length, data) := by
  cases ts with
  | one t =>
    rcases Tys.parts_one hTypes hParts with ⟨_, _, rfl, rfl, _, _⟩
    cases legacy with
    | false | true => rfl
  | cons t ts => cases hSingle

/- The lengths before the elements are read back. -/
theorem tupleLens_header
    {legacy : Bool} {ts : Tys} {vs : List Val} {header : Bytes} (hTypes : ts.HasTypes vs)
    (hParts : ts.parts vs = some parts)
    (hHeader : tupleHeader legacy ts.initWidths parts = some header) (rest : Bytes) :
    tupleLens legacy ts (header ++ rest) = some (parts.dropLast.map List.length, rest) := by
  have hCount := ts.parts_length hParts
  cases legacy with
  | false => exact parseLens_header hCount (ts.parts_initWidths hTypes hParts) hHeader rest
  | true =>
    simp only [tupleHeader, if_true, wordHeader, bind_eq_bind, bind_eq_some_iff] at hHeader
    rcases hHeader with ⟨words, hWords, hEq⟩
    cases hEq
    have hRead := parseWords_header hWords rest
    rw [length_map, length_dropLast, hCount, Nat.add_sub_cancel] at hRead
    exact hRead

theorem dropLast_lengths_cons {part : Bytes} (hNe : parts ≠ []) :
    (part :: parts).dropLast.map List.length = part.length :: parts.dropLast.map List.length := by
  rw [dropLast_cons_of_ne_nil hNe, map_cons]

-- Decoding

mutual

/- An encoded value is decoded to itself. -/
theorem Ty.fromBytes_asBytes :
    (t : Ty) → {v : Val} → {b : Bytes} → t.HasType v → t.asBytes v = some b → t.fromBytes b = some v
  | .unit, v, b, hType, hBytes => by
    cases hType
    rfl
  | .bool, v, b, hType, hBytes => by
    rcases hType with ⟨value, rfl⟩
    cases hBytes
    cases value with
    | false | true => rfl
  | .num t, v, b, hType, hBytes => by
    rcases hType with ⟨i, rfl, hRange⟩
    cases hBytes
    simp only [Ty.fromBytes, NumTy.fromLeBytes_toLeBytes hRange, map_some]
  | .char, v, b, hType, hBytes => by
    rcases hType with ⟨c, rfl⟩
    cases hBytes
    rcases readLe_char c with ⟨hRead, hValid⟩
    simp only [Ty.fromBytes, hRead, bind_eq_bind, bind_some, hValid, if_true, Char.ofNat_toNat]
    rfl
  | .str, v, b, hType, hBytes | .string, v, b, hType, hBytes => by
    rcases hType with ⟨s, rfl⟩
    cases hBytes
    simp only [Ty.fromBytes, fromUtf8_utf8, map_some]
  | .bytes, v, b, hType, hBytes => by
    rcases hType with ⟨slice, rfl⟩
    cases hBytes
    rfl
  | .byteArray n, v, b, hType, hBytes => by
    rcases hType with ⟨vs, rfl, hLength, hAll⟩
    simp only [Ty.asBytes, Val.asSeq, bind_eq_bind, bind_some, bind_eq_some_iff] at hBytes
    rcases hBytes with ⟨parts, hParts, hEq⟩
    cases hEq
    rcases byteArray_flatten (mapM_eq_some.mp hParts) hAll with ⟨hMap, hCount⟩
    simp only [Ty.fromBytes, hCount, hLength, if_true, hMap]
  | .option t, v, b, hType, hBytes => by
    rcases hType with rfl | ⟨u, rfl, hElement⟩
    · cases hBytes
      rfl
    · simp only [Ty.asBytes, Val.asOption, bind_eq_bind, bind_some, bind_eq_some_iff] at hBytes
      rcases hBytes with ⟨part, hPart, hEq⟩
      cases hEq
      have hBack := Ty.fromBytes_asBytes t hElement hPart
      simp [Ty.fromBytes, hBack]
  | .array t n, v, b, hType, hBytes => by
    rcases hType with ⟨vs, rfl, hLength, hAll⟩
    simp only [Ty.asBytes, Val.asSeq, bind_eq_bind, bind_some, bind_eq_some_iff] at hBytes
    rcases hBytes with ⟨parts, hParts, hRest⟩
    have hEncodes := mapM_eq_some.mp hParts
    cases hWidth : t.fixedWidth with
    | some =>
      rw [hWidth] at hRest
      cases hRest
      have hBack := fixedElements_flatten hEncodes (fun u hu part hPart =>
          ⟨Ty.fromBytes_asBytes t (hAll u hu) hPart,
            Ty.asBytes_width t (hAll u hu) hPart hWidth⟩) []
      rw [append_nil, hLength] at hBack
      simp only [Ty.fromBytes, hWidth]
      rw [hBack, map_some]
    | none =>
      rw [hWidth] at hRest
      simp only [isSome_none, Bool.false_eq_true, if_false, offsetBytes, bind_eq_bind,
        bind_eq_some_iff] at hRest
      rcases hRest with ⟨words, hWords, hEq⟩
      cases hEq
      have hFront := arrayEnds_words hWords
      have hCount : parts.length = n := by
        rw [← hLength]
        exact hEncodes.length_eq.symm
      rw [← hFront] at hWords
      have hBack := offsetElements_flatten hEncodes (fun u hu part hPart =>
          Ty.fromBytes_asBytes t (hAll u hu) hPart)
        hWords parts.flatten
      rw [hLength, hFront, hCount] at hBack
      simp only [Ty.fromBytes, hWidth]
      rw [hBack, map_some]
  | .tuple legacy ts, v, b, hType, hBytes => by
    rcases hType with ⟨vs, rfl, hAll⟩
    simp only [Ty.asBytes, Val.asSeq, bind_eq_bind, bind_some, bind_eq_some_iff] at hBytes
    rcases hBytes with ⟨parts, hParts, hRest⟩
    cases hWidth : ts.fixedWidth with
    | some =>
      rw [hWidth] at hRest
      cases hRest
      cases hSingle : ts.single with
      | false =>
        have hBack := Tys.fromFixed_parts ts hAll hParts hWidth []
        rw [append_nil] at hBack
        simp [Ty.fromBytes, hWidth, hSingle, hBack]
      | true =>
        have hLens := tupleLens_single hSingle hAll hParts legacy parts.flatten
        have hBack := Tys.fromVariable_parts ts hAll hParts
        simp only [Ty.fromBytes, hSingle, Bool.not_true, Bool.and_false, Bool.false_eq_true, if_false,
          hLens, bind_eq_bind, bind_some, hBack, map_some]
    | none =>
      rw [hWidth] at hRest
      simp only [isSome_none, Bool.false_eq_true, if_false, bind_eq_some_iff] at hRest
      rcases hRest with ⟨_, hHeader, hEq⟩
      cases hEq
      have hLens := tupleLens_header hAll hParts hHeader parts.flatten
      have hBack := Tys.fromVariable_parts ts hAll hParts
      simp only [Ty.fromBytes, hWidth, isSome_none, Bool.false_and, Bool.false_eq_true, if_false,
        hLens, bind_eq_bind, bind_some, hBack, map_some]
  | .vec t, v, b, hType, hBytes => by
    rcases hType with ⟨vs, rfl, hAll⟩
    simp only [Ty.asBytes, Val.asSeq, bind_eq_bind, bind_some, bind_eq_some_iff] at hBytes
    rcases hBytes with ⟨_, hCount, _, hParts, _, hElements, hEq⟩
    cases hEq
    have hBack := vecElements_flatten (mapM_eq_some.mp hParts) hElements
      (fun u hu part hPart => ⟨Ty.fromBytes_asBytes t (hAll u hu) hPart, fun w hw =>
            Ty.asBytes_width t (hAll u hu) hPart hw⟩) []
    rw [append_nil] at hBack
    simp [Ty.fromBytes, decodeVarintLen_append hCount, hBack]

theorem Tys.fromFixed_parts :
    (ts : Tys) → {vs : List Val} → {parts : List Bytes} → {width : Nat} → ts.HasTypes vs →
      ts.parts vs = some parts → ts.fixedWidth = some width →
      (rest : Bytes) →
      ts.fromFixed (parts.flatten ++ rest) = some vs
  | .one t, vs, parts, width, hTypes, hParts, hWidth, rest => by
    rcases Tys.parts_one hTypes hParts with ⟨u, part, rfl, rfl, hType, hPart⟩
    have hFixed : t.fixedWidth = some width := hWidth
    have hLen := Ty.asBytes_width t hType hPart hFixed
    have hBack := Ty.fromBytes_asBytes t hType hPart
    simp [Tys.fromFixed, hFixed, splitOff_append hLen, hBack]
  | .cons t ts, vs, parts, width, hTypes, hParts, hWidth, rest => by
    rcases Tys.parts_cons hTypes hParts with ⟨_, _, _, _, rfl, rfl, hType, hPart, hRest, hLater⟩
    simp only [Tys.fixedWidth, bind_eq_bind, bind_eq_some_iff] at hWidth
    rcases hWidth with ⟨_, hFirst, _, hOthers, _⟩
    have hLen := Ty.asBytes_width t hType hPart hFirst
    have hBack := Ty.fromBytes_asBytes t hType hPart
    have hMore := Tys.fromFixed_parts ts hRest hLater hOthers rest
    simp [Tys.fromFixed, hFirst, append_assoc, splitOff_append hLen, hBack, hMore]

theorem Tys.fromVariable_parts : (ts : Tys) → {vs : List Val} → {parts : List Bytes} →
      ts.HasTypes vs → ts.parts vs = some parts →
      ts.fromVariable (parts.dropLast.map List.length) parts.flatten = some vs
  | .one t, vs, parts, hTypes, hParts => by
    rcases Tys.parts_one hTypes hParts with ⟨u, part, rfl, rfl, hType, hPart⟩
    have hBack := Ty.fromBytes_asBytes t hType hPart
    simp [Tys.fromVariable, hBack]
  | .cons t ts, vs, parts, hTypes, hParts => by
    rcases Tys.parts_cons hTypes hParts with ⟨_, _, _, _, rfl, rfl, hType, hPart, hRest, hLater⟩
    have hBack := Ty.fromBytes_asBytes t hType hPart
    have hMore := Tys.fromVariable_parts ts hRest hLater
    rw [dropLast_lengths_cons (ts.parts_ne_nil hLater)]
    simp only [Tys.fromVariable, head?_cons, tail_cons, bind_eq_bind, bind_some,
      flatten_cons, splitOff_append rfl, hBack, hMore]
    rfl

end

end Redbx

import Redbx.Types.RoundTrip

/-
  The bytes of a `DateTime<FixedOffset>`: its date and time in UTC, then the offset.

  The types and constructors are those of chrono, which is a parameter. Its documentation says
  that a leap second is a fraction of a second or more, which a time may have only in the last
  second of a minute, and that the shift to UTC keeps the fraction, also when the offset moves the
  time to another second of the minute.

  Key theorems include:
    * `Chrono.stored_time_read_back`
    * `Chrono.local_leap_second_lost`
-/

namespace Redbx

open Bytes Option

------------------------------------------------------------
-- Chrono
------------------------------------------------------------

/- What the codec calls of chrono. The parts of a value are those `with_timezone(&Utc)` shows. -/
structure Chrono where
  NaiveDate : Type
  NaiveTime : Type
  FixedOffset : Type
  DateTime : Type
  fromYmdOpt : Int → Nat → Nat → Option NaiveDate
  fromNumSecondsFromMidnightOpt : Nat → Nat → Option NaiveTime
  eastOpt : Int → Option FixedOffset
  fromUtcDatetime : FixedOffset → NaiveDate → NaiveTime → DateTime
  fromLocalDatetime : FixedOffset → NaiveDate → NaiveTime → Option DateTime
  year : DateTime → Int
  month : DateTime → Nat
  day : DateTime → Nat
  numSecondsFromMidnight : DateTime → Nat
  nanosecond : DateTime → Nat
  localMinusUtc : DateTime → Int

namespace Chrono

/- What is assumed of it. -/
structure Documented (chrono : Chrono) : Prop where
  /- A fraction of a second or more is accepted only when the second of the minute is 59. -/
  time_accepted : ∀ seconds nanosecond,
    (chrono.fromNumSecondsFromMidnightOpt seconds nanosecond).isSome ↔
      seconds < 86400 ∧ nanosecond < 2 * 10 ^ 9 ∧ (nanosecond < 10 ^ 9 ∨ seconds % 60 = 59)
  /- The shift by an offset keeps the fraction. -/
  shift_keeps_fraction : ∀ seconds nanosecond east time offset date value,
    chrono.fromNumSecondsFromMidnightOpt seconds nanosecond = some time →
    chrono.eastOpt east = some offset →
    chrono.fromLocalDatetime offset date time = some value →
      chrono.nanosecond value = nanosecond ∧
      (chrono.numSecondsFromMidnight value : Int) = (seconds - east) % 86400
  /- The parts of a value are in the ranges of their types. -/
  parts_in_range : ∀ value,
    NumTy.i32.InRange (chrono.year value) ∧ chrono.month value < 256 ∧ chrono.day value < 256 ∧
      chrono.numSecondsFromMidnight value < 86400 ∧ chrono.nanosecond value < 2 * 10 ^ 9 ∧
      NumTy.i32.InRange (chrono.localMinusUtc value)
  /- A value is made again from its parts, if its time is. -/
  made_from_parts : ∀ value, ∃ date offset,
    chrono.fromYmdOpt (chrono.year value) (chrono.month value) (chrono.day value) = some date ∧
    chrono.eastOpt (chrono.localMinusUtc value) = some offset ∧
    ∀ time,
      chrono.fromNumSecondsFromMidnightOpt (chrono.numSecondsFromMidnight value)
        (chrono.nanosecond value) = some time →
      chrono.fromUtcDatetime offset date time = value

------------------------------------------------------------
-- Bytes
------------------------------------------------------------

/- `as_bytes`. -/
def asBytes (chrono : Chrono) (value : chrono.DateTime) : Bytes :=
  NumTy.i32.toLeBytes (chrono.year value) ++ (toLe 1 (chrono.month value) ++
    (toLe 1 (chrono.day value) ++ (toLe 3 (chrono.numSecondsFromMidnight value) ++
    (toLe 4 (chrono.nanosecond value) ++ NumTy.i32.toLeBytes (chrono.localMinusUtc value)))))

/- `from_bytes`, without a result where it panics. -/
def fromBytes (chrono : Chrono) (data : Bytes) : Option chrono.DateTime := do
  let (year, data) ← splitOff 4 data
  let (month, data) ← splitOff 1 data
  let (day, data) ← splitOff 1 data
  let (seconds, data) ← splitOff 3 data
  let (nanosecond, data) ← splitOff 4 data
  let year ← NumTy.i32.fromLeBytes year
  let date ← chrono.fromYmdOpt year (ofLe month) (ofLe day)
  let time ← chrono.fromNumSecondsFromMidnightOpt (ofLe seconds) (ofLe nanosecond)
  let east ← NumTy.i32.fromLeBytes data
  let offset ← chrono.eastOpt east
  some (chrono.fromUtcDatetime offset date time)

variable {chrono : Chrono}

/- Of what the decoder asks only the time can be refused. -/
theorem fromBytes_asBytes
    (hChrono : chrono.Documented)
    (value : chrono.DateTime) :
    chrono.fromBytes (chrono.asBytes value) =
      (chrono.fromNumSecondsFromMidnightOpt (chrono.numSecondsFromMidnight value)
        (chrono.nanosecond value)).map fun _ => value := by
  rcases hChrono.parts_in_range value with ⟨hYear, hMonth, hDay, hSeconds, hNano, hEast⟩
  rcases hChrono.made_from_parts value with ⟨date, offset, hDate, hOffset, hMade⟩
  have hSeconds : chrono.numSecondsFromMidnight value < 256 ^ 3 := by omega
  have hNano : chrono.nanosecond value < 256 ^ 4 := by omega
  have hFirst : (NumTy.i32.toLeBytes (chrono.year value)).length = 4 := length_toLe 4 _
  simp only [fromBytes, asBytes, bind_eq_bind, bind_some, splitOff_append hFirst,
    splitOff_append (length_toLe 1 _), splitOff_append (length_toLe 3 _),
    splitOff_append (length_toLe 4 _), NumTy.fromLeBytes_toLeBytes hYear,
    NumTy.fromLeBytes_toLeBytes hEast, ofLe_toLe (show _ < 256 ^ 1 from hMonth),
    ofLe_toLe (show _ < 256 ^ 1 from hDay), ofLe_toLe hSeconds, ofLe_toLe hNano, hDate, hOffset]
  cases hTime : chrono.fromNumSecondsFromMidnightOpt (chrono.numSecondsFromMidnight value)
      (chrono.nanosecond value) with
  | none => rfl
  | some time =>
    simp only [bind_some, map_some]
    rw [hMade time hTime]

/-
  A value is read back unless it is a leap second that is not in the last second of a minute in UTC;
  then the decoder panics.
-/
theorem stored_time_read_back
    (hChrono : chrono.Documented)
    (value : chrono.DateTime) :
    chrono.fromBytes (chrono.asBytes value) =
      if chrono.nanosecond value < 10 ^ 9 ∨ chrono.numSecondsFromMidnight value % 60 = 59 then
        some value
      else
        none := by
  rw [fromBytes_asBytes hChrono]
  rcases hChrono.parts_in_range value with ⟨_, _, _, hSeconds, hNano, _⟩
  have hAccepted := hChrono.time_accepted (chrono.numSecondsFromMidnight value)
    (chrono.nanosecond value)
  split
  case isTrue hLast =>
    rcases Option.isSome_iff_exists.mp (hAccepted.mpr ⟨hSeconds, hNano, hLast⟩) with ⟨time, hTime⟩
    rw [hTime, map_some]
  case isFalse hLast =>
    rw [Option.map_eq_none_iff, ← Option.not_isSome_iff_eq_none]
    intro hSome
    exact hLast (hAccepted.mp hSome).2.2

/- A local leap second that the offset moves off the last second of the minute is not read. -/
theorem local_leap_second_lost
    (hChrono : chrono.Documented)
    (seconds nanosecond : Nat)
    (east : Int)
    {time : chrono.NaiveTime} {offset : chrono.FixedOffset}
    {date : chrono.NaiveDate} {value : chrono.DateTime}
    (hTime : chrono.fromNumSecondsFromMidnightOpt seconds nanosecond = some time)
    (hOffset : chrono.eastOpt east = some offset)
    (hValue : chrono.fromLocalDatetime offset date time = some value)
    (hLeap : 10 ^ 9 ≤ nanosecond)
    (hMoved : (seconds - east) % 60 ≠ 59) :
    chrono.fromBytes (chrono.asBytes value) = none := by
  rcases hChrono.shift_keeps_fraction _ _ _ _ _ _ _ hTime hOffset hValue with ⟨hNano, hSeconds⟩
  rw [fromBytes_asBytes hChrono, Option.map_eq_none_iff, ← Option.not_isSome_iff_eq_none,
    hChrono.time_accepted]
  omega

------------------------------------------------------------
-- A chrono that keeps the parts
------------------------------------------------------------

/- The parts of a value, in the ranges of their types. -/
structure Parts where
  year : Int
  month : Nat
  day : Nat
  seconds : Nat
  nanosecond : Nat
  east : Int
  inRange : NumTy.i32.InRange year ∧ month < 256 ∧ day < 256 ∧ seconds < 86400 ∧
    nanosecond < 2 * 10 ^ 9 ∧ NumTy.i32.InRange east

theorem toNat_second_lt (i : Int) : (i % 86400).toNat < 86400 := by
  omega

/- A constructor that returns what it accepts. -/
def accept {α : Type} (P : α → Prop) [DecidablePred P] (x : α) : Option { x // P x } :=
  if hValid : P x then some ⟨x, hValid⟩ else none

theorem accept_isSome {α : Type} {P : α → Prop} [DecidablePred P] {x : α} :
    (accept P x).isSome ↔ P x := by
  unfold accept
  split <;> simp_all

theorem accept_of {α : Type} {P : α → Prop} [DecidablePred P] {x : α} (hValid : P x) :
    accept P x = some ⟨x, hValid⟩ :=
  dif_pos hValid

theorem eq_of_accept {α : Type} {P : α → Prop} [DecidablePred P] {x : α} {y : { x // P x }}
    (hSome : accept P x = some y) : y.1 = x := by
  have hValid : P x := accept_isSome.mp (hSome ▸ rfl)
  rw [accept_of hValid, Option.some.injEq] at hSome
  rw [← hSome]

abbrev DateFits (date : Int × Nat × Nat) : Prop :=
  NumTy.i32.InRange date.1 ∧ date.2.1 < 256 ∧ date.2.2 < 256

abbrev TimeFits (time : Nat × Nat) : Prop :=
  time.1 < 86400 ∧ time.2 < 2 * 10 ^ 9 ∧ (time.2 < 10 ^ 9 ∨ time.1 % 60 = 59)

/- The documented time of day, without a calendar: every date is accepted. -/
def plainChrono : Chrono where
  NaiveDate := { date // DateFits date }
  NaiveTime := { time // TimeFits time }
  FixedOffset := { east // NumTy.i32.InRange east }
  DateTime := Parts
  fromYmdOpt year month day := accept DateFits (year, month, day)
  fromNumSecondsFromMidnightOpt seconds nanosecond := accept TimeFits (seconds, nanosecond)
  eastOpt east := accept NumTy.i32.InRange east
  fromUtcDatetime offset date time :=
    ⟨date.1.1, date.1.2.1, date.1.2.2, time.1.1, time.1.2, offset.1, date.2.1, date.2.2.1,
      date.2.2.2, time.2.1, time.2.2.1, offset.2⟩
  fromLocalDatetime offset date time :=
    some ⟨date.1.1, date.1.2.1, date.1.2.2, ((time.1.1 - offset.1) % 86400).toNat, time.1.2,
      offset.1, date.2.1, date.2.2.1, date.2.2.2, toNat_second_lt _, time.2.2.1, offset.2⟩
  year := Parts.year
  month := Parts.month
  day := Parts.day
  numSecondsFromMidnight := Parts.seconds
  nanosecond := Parts.nanosecond
  localMinusUtc := Parts.east

theorem plainChrono_documented : plainChrono.Documented where
  time_accepted seconds nanosecond := accept_isSome
  shift_keeps_fraction := by
    intro seconds nanosecond east time offset date value hTime hOffset hValue
    have hTime : time.1 = (seconds, nanosecond) := eq_of_accept hTime
    have hOffset : offset.1 = east := eq_of_accept hOffset
    cases hValue
    refine ⟨congrArg Prod.snd hTime, ?_⟩
    change ((((time.1.1 : Int) - offset.1) % 86400).toNat : Int) = _
    rw [hTime, hOffset]
    omega
  parts_in_range value := value.inRange
  made_from_parts value := by
    rcases value with ⟨year, month, day, seconds, nanosecond, east, hYear, hMonth, hDay, hRest⟩
    have hDate : DateFits (year, month, day) := ⟨hYear, hMonth, hDay⟩
    refine ⟨⟨_, hDate⟩, ⟨_, hRest.2.2⟩, accept_of hDate, accept_of hRest.2.2, ?_⟩
    intro time hTime
    have hParts : time.1 = (seconds, nanosecond) := eq_of_accept hTime
    rcases time with ⟨time, hFits⟩
    cases hParts
    rfl

/- The leap second at the end of 2016 in UTC, an hour ahead of UTC. -/
theorem utc_leap_second_read_back :
    plainChrono.fromBytes (plainChrono.asBytes
      ⟨2016, 12, 31, 86399, 1500000000, 3600, by decide⟩) =
      some ⟨2016, 12, 31, 86399, 1500000000, 3600, by decide⟩ :=
  stored_time_read_back plainChrono_documented _

/- 12:00:60.5 half a minute ahead of UTC is stored as a time that the decoder does not accept. -/
theorem local_leap_second_not_read :
    ∃ date time offset value,
      plainChrono.fromYmdOpt 2016 12 31 = some date ∧
      plainChrono.fromNumSecondsFromMidnightOpt 43259 1500000000 = some time ∧
      plainChrono.eastOpt 30 = some offset ∧
      plainChrono.fromLocalDatetime offset date time = some value ∧
      plainChrono.fromBytes (plainChrono.asBytes value) = none := by
  have hDate : DateFits (2016, 12, 31) := by decide
  have hTime : TimeFits (43259, 1500000000) := by decide
  have hEast : NumTy.i32.InRange 30 := by decide
  refine ⟨_, _, _, _, accept_of hDate, accept_of hTime, accept_of hEast, rfl, ?_⟩
  exact local_leap_second_lost plainChrono_documented 43259 1500000000 30 (accept_of hTime)
    (accept_of hEast) rfl (by decide) (by decide)

end Chrono

end Redbx

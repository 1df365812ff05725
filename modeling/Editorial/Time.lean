import Editorial.Number.Numeral

/-!
# Instants

Points in time to the microsecond, without time zone. `Instant.text` writes one as a date and a time
of day, with the microseconds only when there are any; the calendar is the Gregorian one, extended
backwards.
-/

namespace Editorial

open Number

/-- A point in time, in microseconds since the first moment of 2020. -/
structure Instant where
  micros : Int
  deriving DecidableEq, Repr, Inhabited

/-- A day of the calendar. -/
structure Date where
  year : Int
  month : Nat
  day : Nat
  deriving DecidableEq, Repr

/-- Why an instant has no date. -/
inductive NoDate where
  /-- It lies before the year 1 or after the year 9999. -/
  | outside
  /-- It lies more days from the first one than can be counted to. -/
  | tooManyDays (days : Int)
  /-- Not even the number of days can be held. -/
  | uncountable
  deriving DecidableEq, Repr

namespace Instant

/-- The number of microseconds of a second. -/
def secondMicros : Int := 1000000

/-- The number of microseconds of a day. -/
def dayMicros : Int := 86400 * secondMicros

/-- The number of days from the first of March of the year 0 to the first day of 2020. -/
def daysBefore2020 : Int := 737730

/-- The number of days since the first of March of the year 0. Years are counted from March on, so
that the leap day is the last one of its year. -/
def days (t : Instant) : Int := t.micros / dayMicros + daysBefore2020

/-- The time of day in microseconds. -/
def timeOfDay (t : Instant) : Nat := (t.micros % dayMicros).toNat

/-- The day of the calendar on which an instant falls. -/
def date (t : Instant) : Date :=
  let era := t.days / 146097
  let dayOfEra := (t.days % 146097).toNat
  let yearOfEra := (dayOfEra - dayOfEra / 1460 + dayOfEra / 36524 - dayOfEra / 146096) / 365
  let dayOfYear := dayOfEra - (365 * yearOfEra + yearOfEra / 4 - yearOfEra / 100)
  let shifted := (5 * dayOfYear + 2) / 153
  let month := if shifted < 10 then shifted + 3 else shifted - 9
  { year := era * 400 + yearOfEra + (if month ≤ 2 then 1 else 0)
    month := month
    day := dayOfYear - (153 * shifted + 2) / 5 + 1 }

/-- A number with leading zeros up to a width. -/
def padded (width n : Nat) : String :=
  let digits := Nat.toDigits 10 n
  String.ofList (List.replicate (width - digits.length) '0' ++ digits)

/-- The time of day to the second. -/
def clockText (t : Instant) : String :=
  let seconds := t.timeOfDay / 1000000
  padded 2 (seconds / 3600) ++ ":" ++ padded 2 (seconds / 60 % 60) ++ ":" ++ padded 2 (seconds % 60)

/-- The date and time of an instant. -/
def text (t : Instant) : String :=
  let d := t.date
  let micros := t.timeOfDay % 1000000
  padded 4 d.year.toNat ++ "-" ++ padded 2 d.month ++ "-" ++ padded 2 d.day ++ "T" ++ t.clockText ++
    (if micros = 0 then "" else "." ++ padded 6 micros)

/-! ### Instants without a date -/

/-- The greatest number of days from the first day of 2020 that can be counted to. -/
def countableDays : Nat := 999999999

/-- The first number of days that cannot be held, the 31st power of two. -/
def daysLimit : Int := 2147483648

/-- Fails for an instant that has no date. -/
def requireDate (t : Instant) : Except NoDate Unit :=
  let days := t.micros / dayMicros
  if days < -daysLimit ∨ daysLimit ≤ days then .error .uncountable
  else if countableDays < days.natAbs then .error (.tooManyDays days)
  else if t.date.year < 1 ∨ 9999 < t.date.year then .error .outside
  else .ok ()

/-- The order of instants. -/
def before (a b : Instant) : Bool := a.micros < b.micros

end Instant

end Editorial

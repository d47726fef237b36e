import SourceTables.Schema

/-!
# `SourceTables.Calendar.Instant`: days of the Gregorian calendar and points in time

A date is a year, a month and a day; it is also a count of days since 1970-01-01. Years count from
March in between, so that the leap day is the last day of its year, and 400 of them are one era of
146097 days.

A point in time is a second since the start of 1970 and nanoseconds within it. A leap second is
written as second 60 and counts as the second before it with one more second of nanoseconds.

`Instant.count` is the count of a unit and `Instant.ofCount` its reader.
-/

set_option autoImplicit false

namespace SourceTables.Calendar

/-! ### Days -/

/-- A day. Year 0 stands before year 1. -/
structure Date where
  year : Int
  month : Nat
  day : Nat
deriving DecidableEq, Inhabited

/-- Whether a year has a leap day. -/
def isLeapYear (year : Int) : Bool := year % 4 = 0 && (year % 100 ≠ 0 || year % 400 = 0)

/-- The days of a month; none for numbers that are no month. -/
def daysInMonth (year : Int) (month : Nat) : Nat :=
  if month = 2 then (if isLeapYear year then 29 else 28)
  else if month = 4 || month = 6 || month = 9 || month = 11 then 30
  else if 1 ≤ month && month ≤ 12 then 31
  else 0

namespace Date

/-- The date of these numbers, if there is one. -/
def ofNumbers? (year : Int) (month day : Nat) : Option Date :=
  if 1 ≤ day && day ≤ daysInMonth year month then some ⟨year, month, day⟩ else none

/-- The days from 1970-01-01 to a date. -/
def toDays (d : Date) : Int :=
  let year := if d.month ≤ 2 then d.year - 1 else d.year
  let era := year / 400
  let yearOfEra := year % 400
  let monthFromMarch : Int := if d.month ≤ 2 then d.month + 9 else d.month - 3
  let dayOfYear := (153 * monthFromMarch + 2) / 5 + d.day - 1
  era * 146097 + yearOfEra * 365 + yearOfEra / 4 - yearOfEra / 100 + dayOfYear - 719468

/-- The date that lies these days after 1970-01-01. -/
def ofDays (days : Int) : Date :=
  let fromEra := days + 719468
  let dayOfEra := fromEra % 146097
  let yearOfEra := (dayOfEra - dayOfEra / 1460 + dayOfEra / 36524 - dayOfEra / 146096) / 365
  let dayOfYear := dayOfEra - (365 * yearOfEra + yearOfEra / 4 - yearOfEra / 100)
  let monthFromMarch := (5 * dayOfYear + 2) / 153
  let day := dayOfYear - (153 * monthFromMarch + 2) / 5 + 1
  let month := if monthFromMarch < 10 then monthFromMarch + 3 else monthFromMarch - 9
  let year := fromEra / 146097 * 400 + yearOfEra + (if month ≤ 2 then 1 else 0)
  ⟨year, month.toNat, day.toNat⟩

end Date

/-- A number with zeros in front up to a width. -/
def padded (width : Nat) (n : Nat) : String :=
  let digits := Nat.toDigits 10 n
  String.ofList (List.replicate (width - digits.length) '0' ++ digits)

/-- The text of a year: four digits, with a sign outside 0 to 9999. -/
def yearText (year : Int) : String :=
  if 0 ≤ year && year ≤ 9999 then padded 4 year.toNat
  else (if year < 0 then "-" else "+") ++ padded 4 year.natAbs

/-- The text of a date. -/
def Date.text (d : Date) : String :=
  yearText d.year ++ "-" ++ padded 2 d.month ++ "-" ++ padded 2 d.day

/-! ### Points in time -/

/-- A point in time. -/
structure Instant where
  seconds : Int
  nanoseconds : Nat
deriving DecidableEq, Inhabited

/-- A time of day; `nanoseconds` reaches into a leap second. -/
structure TimeOfDay where
  hour : Nat
  minute : Nat
  second : Nat
  nanoseconds : Nat
deriving DecidableEq, Inhabited

namespace TimeOfDay

/-- The start of a day. -/
def midnight : TimeOfDay := ⟨0, 0, 0, 0⟩

/-- The time of these numbers, if there is one. -/
def ofNumbers? (hour minute second nanoseconds : Nat) : Option TimeOfDay :=
  if hour < 24 && minute < 60 && second < 60 then some ⟨hour, minute, second, nanoseconds⟩
  else if hour < 24 && minute < 60 && second = 60 then
    some ⟨hour, minute, 59, nanoseconds + 1000000000⟩
  else none

/-- The seconds since midnight. -/
def seconds (t : TimeOfDay) : Nat := (t.hour * 60 + t.minute) * 60 + t.second

end TimeOfDay

namespace Instant

/-- The seconds of a day. -/
def secondsPerDay : Int := 86400

/-- The point at which a clock that is `offset` seconds ahead shows a date and a time. -/
def ofLocal (date : Date) (time : TimeOfDay) (offset : Int) : Instant :=
  ⟨date.toDays * secondsPerDay + Int.ofNat time.seconds - offset, time.nanoseconds⟩

/-- The day of a point in time. -/
def days (t : Instant) : Int := t.seconds / secondsPerDay

/-- Whole units since the start of 1970, the rest cut off downward. Whole seconds do not tell a leap
second from the one before it. -/
def count (t : Instant) (unit : TimeUnit) : Int :=
  match unit with
  | .second => t.seconds
  | .millisecond | .microsecond | .nanosecond =>
    t.seconds * unit.perSecond + Int.ofNat (t.nanoseconds / (1000000000 / unit.perSecond))

/-- The point in time of a count. -/
def ofCount (unit : TimeUnit) (n : Int) : Instant :=
  ⟨n / unit.perSecond, (n % unit.perSecond).toNat * (1000000000 / unit.perSecond)⟩

/-- The fraction of a second: nothing, or three, six or nine digits, as few as it needs. -/
def fractionText (nanoseconds : Nat) : String :=
  if nanoseconds = 0 then ""
  else if nanoseconds % 1000000 = 0 then "." ++ padded 3 (nanoseconds / 1000000)
  else if nanoseconds % 1000 = 0 then "." ++ padded 6 (nanoseconds / 1000)
  else "." ++ padded 9 nanoseconds

/-- The text of a point in time: date, `T`, time. -/
def text (t : Instant) : String :=
  let leap := 1000000000 ≤ t.nanoseconds
  let inDay := (t.seconds % secondsPerDay).toNat
  (Date.ofDays t.days).text ++ "T" ++ padded 2 (inDay / 3600) ++ ":" ++ padded 2 (inDay / 60 % 60)
    ++ ":" ++ padded 2 (inDay % 60 + (if leap then 1 else 0))
    ++ fractionText (t.nanoseconds % 1000000000)

end Instant

end SourceTables.Calendar

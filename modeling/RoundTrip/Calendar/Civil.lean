import RoundTrip.Calendar.Instant

/-!
# Civil dates

Dates of the Gregorian calendar, extended to all years, and their day numbers. Years are
counted from March, so that the day added in a leap year is the last one of its year.

Main definitions: `Date.ofDays`, `Date.toDays`, `daysInMonth`, `Instant.civil`.
-/

set_option autoImplicit false

namespace RoundTrip

/-- A date of the Gregorian calendar. -/
structure Date where
  year : Int
  /-- Between 1 and 12. -/
  month : Nat
  /-- Between 1 and 31. -/
  day : Nat
  deriving DecidableEq, Repr

/-- Leap years have a 29th of February. -/
def isLeapYear (year : Int) : Bool :=
  year % 4 == 0 && (year % 100 != 0 || year % 400 == 0)

/-- The number of days of a month. -/
def daysInMonth (year : Int) (month : Nat) : Nat :=
  if month = 2 then (if isLeapYear year then 29 else 28)
  else if month = 4 ∨ month = 6 ∨ month = 9 ∨ month = 11 then 30
  else 31

namespace Date

/-- Days from the first of March of the year 0 to the start of 1970. -/
def epochShift : Int := 719468

/-- Days of a cycle of 400 years. -/
def cycle : Int := 146097

/-- The date that lies `days` after the first of January 1970. -/
def ofDays (days : Int) : Date :=
  let era := (days + epochShift).fdiv cycle
  let dayOfEra := ((days + epochShift).fmod cycle).toNat
  let yearOfEra :=
    (dayOfEra - dayOfEra / 1460 + dayOfEra / 36524 - dayOfEra / 146096) / 365
  let dayOfYear := dayOfEra - (365 * yearOfEra + yearOfEra / 4 - yearOfEra / 100)
  let shifted := (5 * dayOfYear + 2) / 153
  let month := if shifted < 10 then shifted + 3 else shifted - 9
  { year := era * 400 + yearOfEra + (if month ≤ 2 then 1 else 0)
    month := month
    day := dayOfYear - (153 * shifted + 2) / 5 + 1 }

/-- The number of days from the first of January 1970 to a date. -/
def toDays (d : Date) : Int :=
  let year := if d.month ≤ 2 then d.year - 1 else d.year
  let era := year.fdiv 400
  let yearOfEra := (year.fmod 400).toNat
  let shifted := if 2 < d.month then d.month - 3 else d.month + 9
  let dayOfYear := (153 * shifted + 2) / 5 + (d.day - 1)
  let dayOfEra := yearOfEra * 365 + yearOfEra / 4 - yearOfEra / 100 + dayOfYear
  era * cycle + dayOfEra - epochShift

end Date

/-- A date with a time of day. -/
structure Civil where
  date : Date
  hour : Nat
  minute : Nat
  second : Nat
  deriving DecidableEq, Repr

/-- Seconds of a day. -/
def daySeconds : Nat := 86400

namespace Instant

/-- Seconds from the earliest representable moment to the start of 1970: a whole number of
400-year cycles before the first of March of the year 0. -/
def absoluteShift : Int := (730692556 * Date.cycle + Date.epochShift) * daySeconds

/-- The date and time of day that an instant shows in its zone. The sum of seconds and
offset wraps at 64 bits, counted from the earliest representable moment. -/
def civil (t : Instant) : Civil :=
  let shown := (t.seconds + t.zone.offset + absoluteShift) % wordCount - absoluteShift
  let second := (shown.fmod daySeconds).toNat
  { date := Date.ofDays (shown.fdiv daySeconds)
    hour := second / 3600
    minute := second / 60 % 60
    second := second % 60 }

/-- The instant at which clocks with the given zone show a date and time of day. -/
def ofCivil (c : Civil) (nanos : Nat) (zone : Zone) : Instant where
  seconds :=
    c.date.toDays * daySeconds + (c.hour * 3600 + c.minute * 60 + c.second) - zone.offset
  nanos := nanos
  zone := zone

/-- The first second of the year 1, which stands for an unset instant. -/
def unset : Instant := ⟨-62135596800, 0, .utc⟩

/-- An instant is unset whatever its zone. -/
def isUnset (t : Instant) : Bool := t.seconds == unset.seconds && t.nanos == 0

end Instant

end RoundTrip

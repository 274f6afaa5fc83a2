/-!
# `Instant` -- points in time, to the nanosecond

An instant counts seconds from the start of 1970 in universal time, leap seconds not counted, and
nanoseconds within the second. A leap second is the second before it drawn out: its nanoseconds run
from 10⁹ on. Instants are ordered by second, then by nanosecond.

The calendar is the Gregorian one, continued in both directions. Years are counted from March, so
that the leap day is the last day of its year and a year's months have lengths that repeat every
five months.
-/

set_option autoImplicit false

namespace MetadataArchive

structure Instant where
  second : Int
  nano : Nat
  deriving DecidableEq, Repr, Inhabited

namespace Instant

def compare (a b : Instant) : Ordering :=
  (Ord.compare a.second b.second).then (Ord.compare a.nano b.nano)

def le (a b : Instant) : Bool := a.compare b != .gt

def addMicroseconds (t : Instant) (us : Int) : Instant :=
  let n : Int := (t.nano : Int) + us * 1000
  ⟨t.second + n.fdiv 1000000000, (n.fmod 1000000000).toNat⟩

end Instant

structure Day where
  year : Int
  month : Nat
  day : Nat
  deriving DecidableEq, Repr

namespace Day

def toEpochDay (d : Day) : Int :=
  let y : Int := if d.month ≤ 2 then d.year - 1 else d.year
  let era := y.fdiv 400
  let yearOfEra := y - era * 400
  let monthFromMarch : Int := if d.month ≤ 2 then d.month + 9 else d.month - 3
  let dayOfYear := (153 * monthFromMarch + 2) / 5 + d.day - 1
  let dayOfEra := yearOfEra * 365 + yearOfEra / 4 - yearOfEra / 100 + dayOfYear
  era * 146097 + dayOfEra - 719468

def ofEpochDay (n : Int) : Day :=
  let z := n + 719468
  let era := z.fdiv 146097
  let dayOfEra := z - era * 146097
  let yearOfEra := (dayOfEra - dayOfEra / 1460 + dayOfEra / 36524 - dayOfEra / 146096) / 365
  let dayOfYear := dayOfEra - (365 * yearOfEra + yearOfEra / 4 - yearOfEra / 100)
  let monthFromMarch := (5 * dayOfYear + 2) / 153
  let day := dayOfYear - (153 * monthFromMarch + 2) / 5 + 1
  let month := if monthFromMarch < 10 then monthFromMarch + 3 else monthFromMarch - 9
  let year := yearOfEra + era * 400
  ⟨if month ≤ 2 then year + 1 else year, month.toNat, day.toNat⟩

def isLeapYear (y : Int) : Bool := y % 4 = 0 && (y % 100 ≠ 0 || y % 400 = 0)

def daysInMonth (y : Int) (month : Nat) : Nat :=
  match month with
  | 2 => if isLeapYear y then 29 else 28
  | 4 | 6 | 9 | 11 => 30
  | _ => 31

def yearInRange (y : Int) : Bool := -262143 ≤ y && y ≤ 262142

def isValid (d : Day) : Bool :=
  yearInRange d.year && 1 ≤ d.month && d.month ≤ 12 && 1 ≤ d.day &&
    d.day ≤ daysInMonth d.year d.month

end Day

/-- The day of an instant in universal time. -/
def Instant.day (t : Instant) : Day := .ofEpochDay (t.second.fdiv 86400)

end MetadataArchive

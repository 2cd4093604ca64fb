/-!
Gregorian dates with times of day, and the seconds since the first of January 1970 that they stand
for.
-/
namespace PdfStream

namespace Calendar

def IsLeap (year : Nat) : Prop :=
  year % 4 = 0 ∧ (year % 100 ≠ 0 ∨ year % 400 = 0)

instance (year : Nat) : Decidable (IsLeap year) := by unfold IsLeap; infer_instance

def monthLengths (year : Nat) : List Nat :=
  [31, if IsLeap year then 29 else 28, 31, 30, 31, 30, 31, 31, 30, 31, 30, 31]

/-- Days from the start of the year 0 to the start of `year`. -/
def daysBefore (year : Nat) : Nat :=
  365 * year + (year + 3) / 4 - (year + 99) / 100 + (year + 399) / 400

theorem daysBefore_succ (year : Nat) :
    daysBefore (year + 1) = daysBefore year + if IsLeap year then 366 else 365 := by
  have h4 : (year + 1 + 3) / 4 = (year + 3) / 4 + if year % 4 = 0 then 1 else 0 := by
    split <;> omega
  have h100 : (year + 1 + 99) / 100 = (year + 99) / 100 + if year % 100 = 0 then 1 else 0 := by
    split <;> omega
  have h400 : (year + 1 + 399) / 400 = (year + 399) / 400 + if year % 400 = 0 then 1 else 0 := by
    split <;> omega
  have hle : (year + 99) / 100 ≤ (year + 3) / 4 := by omega
  have hmod : year % 100 = 0 → year % 4 = 0 := by omega
  have hmod' : year % 400 = 0 → year % 100 = 0 := by omega
  simp only [daysBefore, IsLeap, h4, h100, h400]
  generalize (year + 99) / 100 = c at *
  generalize (year + 3) / 4 = q at *
  by_cases h : year % 4 = 0 <;> by_cases h' : year % 100 = 0 <;> by_cases h'' : year % 400 = 0 <;>
    simp only [h, h', h'', if_true, if_false, true_and, false_and, ne_eq, not_true_eq_false,
      not_false_eq_true, or_true, or_false] <;> simp_all <;> omega

/-- The year of a day. Four hundred years have 146097 days, which gives the year or the one before
it. -/
def yearOf (day : Nat) : Nat :=
  let low := (day - 2) * 400 / 146097
  if daysBefore (low + 1) ≤ day then low + 1 else low

/-- Whole months in front of a day, and the days left. -/
def monthOf : List Nat → Nat → Nat × Nat
  | [], day => (0, day)
  | length :: lengths, day =>
    if day < length then (0, day)
    else
      let (months, day) := monthOf lengths (day - length)
      (months + 1, day)

/-- The first of January 1970. -/
def epochDay : Nat := daysBefore 1970

end Calendar

open Calendar

structure CivilTime where
  year : Nat
  month : Nat
  day : Nat
  hour : Nat
  minute : Nat
  second : Nat
  deriving DecidableEq, Repr

namespace CivilTime

/-- A date of the calendar from 1970 to 9999, and a time of day. -/
def IsValid (c : CivilTime) : Prop :=
  1970 ≤ c.year ∧ c.year ≤ 9999 ∧ 1 ≤ c.month ∧ 1 ≤ c.day ∧
    c.day ≤ (monthLengths c.year).getD (c.month - 1) 0 ∧
    c.hour < 24 ∧ c.minute < 60 ∧ c.second < 60

instance (c : CivilTime) : Decidable c.IsValid := by unfold IsValid; infer_instance

def ofSeconds (seconds : Nat) : CivilTime :=
  let day := epochDay + seconds / 86400
  let year := yearOf day
  let (months, rest) := monthOf (monthLengths year) (day - daysBefore year)
  { year
    month := months + 1
    day := rest + 1
    hour := seconds / 3600 % 24
    minute := seconds / 60 % 60
    second := seconds % 60 }

def toSeconds (c : CivilTime) : Nat :=
  let day := daysBefore c.year +
    ((monthLengths c.year).take (c.month - 1)).foldl (· + ·) 0 + (c.day - 1)
  (day - epochDay) * 86400 + c.hour * 3600 + c.minute * 60 + c.second

end CivilTime

/-- A moment, in nanoseconds since the start of 1970. -/
structure Instant where
  nanoseconds : Int
  deriving DecidableEq, Repr

namespace Instant

/-- The last second of the year 9999. -/
def lastSecond : Nat := 253402300799

/-- The date and time, less the fraction of a second, from 1970 up to the last second of 9999. -/
def civil? (t : Instant) : Option CivilTime :=
  if 0 ≤ t.nanoseconds ∧ t.nanoseconds ≤ lastSecond * 1000000000 then
    some (.ofSeconds (t.nanoseconds / 1000000000).toNat)
  else none

end Instant
end PdfStream

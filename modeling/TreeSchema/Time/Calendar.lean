/-
# The proleptic Gregorian calendar

Dates as a count of days from 1970-01-01 and back, for years of either sign.
The days before a year and before a month are closed formulas; the way back
estimates the year by the mean length of a year and corrects it by one.
-/

namespace TreeSchema

/-- A day of the calendar. -/
structure Date where
  year : Int
  month : Nat
  day : Nat
deriving DecidableEq

namespace Date

/-- The year has 366 days. -/
def isLeap (year : Int) : Bool :=
  year % 4 == 0 && (year % 100 != 0 || year % 400 == 0)

/-- The days of a year before its month, months counted from 1. -/
def daysBeforeMonth (leap : Bool) (month : Nat) : Nat :=
  [0, 31, 59, 90, 120, 151, 181, 212, 243, 273, 304, 334, 365].getD (month - 1) 365 +
    if leap ∧ 2 < month then 1 else 0

/-- The number of days of a month. -/
def daysInMonth (leap : Bool) (month : Nat) : Nat :=
  daysBeforeMonth leap (month + 1) - daysBeforeMonth leap month

/-- The days from 0001-01-01 to the first of January. -/
def daysBeforeYear (year : Int) : Int :=
  365 * (year - 1) + (year - 1) / 4 - (year - 1) / 100 + (year - 1) / 400

/-- The days from 0001-01-01 to 1970-01-01. -/
def epochDay : Int := 719162

/-- The day exists: its month is one of the twelve and has that many days. -/
def IsValid (d : Date) : Prop :=
  1 ≤ d.month ∧ d.month ≤ 12 ∧ 1 ≤ d.day ∧ d.day ≤ daysInMonth (isLeap d.year) d.month

instance (d : Date) : Decidable d.IsValid :=
  inferInstanceAs (Decidable (_ ∧ _ ∧ _ ∧ _))

/-- The days from 1970-01-01. -/
def toDays (d : Date) : Int :=
  daysBeforeYear d.year + daysBeforeMonth (isLeap d.year) d.month + d.day - 1 - epochDay

/-- The year of a day counted from 0001-01-01. -/
def yearOfDay (n : Int) : Int :=
  let year := n * 400 / 146097 + 1
  if n < daysBeforeYear year then year - 1
  else if daysBeforeYear (year + 1) ≤ n then year + 1
  else year

/-- The month of a day of the year counted from 0: the last that does not begin after it. -/
def monthOfDay (leap : Bool) (n : Nat) : Nat :=
  (List.range' 1 12).countP fun month => daysBeforeMonth leap month ≤ n

/-- The date of a day counted from 1970-01-01. -/
def ofDays (days : Int) : Date :=
  let n := days + epochDay
  let year := yearOfDay n
  let dayOfYear := (n - daysBeforeYear year).toNat
  let month := monthOfDay (isLeap year) dayOfYear
  { year, month, day := dayOfYear - daysBeforeMonth (isLeap year) month + 1 }

end Date

end TreeSchema

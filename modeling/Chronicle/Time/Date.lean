/-!
# Calendar dates

Dates of the proleptic Gregorian calendar, and the number of days from 1970-01-01 to them. The count starts its years in
March, so that a leap day is the last day of its year, and splits days into cycles of 400, 100, 4 and 1 years.
-/

namespace Chronicle

/-- A year, a month from 1 to 12 and a day of the month. -/
structure Date where
  year : Int
  month : Nat
  day : Nat
deriving DecidableEq, Repr

namespace Date

/-- Whether a year has a 29th of February. -/
def isLeapYear (year : Int) : Bool :=
  year % 4 = 0 && (year % 100 ≠ 0 || year % 400 = 0)

/-- The number of days of a month. -/
def daysInMonth (year : Int) (month : Nat) : Nat :=
  if month = 2 then (if isLeapYear year then 29 else 28)
  else if month = 4 ∨ month = 6 ∨ month = 9 ∨ month = 11 then 30
  else 31

/-- Whether the calendar has this date. -/
def isValid (d : Date) : Bool :=
  1 ≤ d.month && d.month ≤ 12 && 1 ≤ d.day && d.day ≤ daysInMonth d.year d.month

/-- The days from 0000-03-01 to 1970-01-01. -/
def epoch : Int := 719468

/-- The number of days from 1970-01-01 to a date, negative before it. -/
def toDays (d : Date) : Int :=
  let year := if d.month ≤ 2 then d.year - 1 else d.year
  let month : Int := if d.month ≤ 2 then d.month + 9 else (d.month : Int) - 3
  let cycle := year / 400
  let ofCycle := year % 400
  cycle * 146097 + ofCycle / 100 * 36524 + ofCycle % 100 / 4 * 1461 + ofCycle % 4 * 365
    + (153 * month + 2) / 5 + (d.day - 1) - epoch

/-- The date a number of days after 1970-01-01. -/
def ofDays (days : Int) : Date :=
  let n := days + epoch
  let cycle := n / 146097
  let n := n % 146097
  let century := min 3 (n / 36524)
  let n := n - century * 36524
  let quad := n / 1461
  let n := n % 1461
  let single := min 3 (n / 365)
  let ofYear := n - single * 365
  let month := (5 * ofYear + 2) / 153
  let day := ofYear - (153 * month + 2) / 5 + 1
  let year := 400 * cycle + 100 * century + 4 * quad + single
  if month < 10 then ⟨year, (month + 3).toNat, day.toNat⟩
  else ⟨year + 1, (month - 9).toNat, day.toNat⟩

end Date

end Chronicle

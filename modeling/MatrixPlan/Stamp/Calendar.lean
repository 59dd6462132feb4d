/-!
# Calendar — dates of the Gregorian calendar as day numbers

Days are counted from 1 January 1970.  The year is taken to start in March, so that the leap day is its last one; then
the months have the lengths of a fixed pattern and a date is found from its number by division.
-/
namespace MatrixPlan
namespace Calendar

def isLeap (year : Int) : Bool := year % 4 == 0 && (year % 100 != 0 || year % 400 == 0)

def monthLength (year : Int) (month : Nat) : Nat :=
  if month = 2 then if isLeap year then 29 else 28
  else if month = 4 ∨ month = 6 ∨ month = 9 ∨ month = 11 then 30
  else 31

/-- The days of a year from its March on before the given month, March being 0. -/
def daysBeforeMonth (shifted : Nat) : Nat := (153 * shifted + 2) / 5

/-- The number of a date. -/
def dayNumber (year : Int) (month day : Nat) : Int :=
  let shifted := (month + 9) % 12
  let year := if month ≤ 2 then year - 1 else year
  year * 365 + year / 4 - year / 100 + year / 400 + daysBeforeMonth shifted + day - 1 - 719468

/-- The year, month and day with a number. -/
def date (number : Int) : Int × Nat × Nat :=
  let z := number + 719468
  let era := z / 146097
  let dayOfEra := (z % 146097).toNat
  let yearOfEra := (dayOfEra - dayOfEra / 1460 + dayOfEra / 36524 - dayOfEra / 146096) / 365
  let dayOfYear := dayOfEra - (365 * yearOfEra + yearOfEra / 4 - yearOfEra / 100)
  let shifted := (5 * dayOfYear + 2) / 153
  let day := dayOfYear - daysBeforeMonth shifted + 1
  let month := if shifted < 10 then shifted + 3 else shifted - 9
  let year := yearOfEra + era * 400
  (if month ≤ 2 then year + 1 else year, month, day)

def isDate (year : Int) (month day : Nat) : Bool :=
  decide (1 ≤ month ∧ month ≤ 12 ∧ 1 ≤ day ∧ day ≤ monthLength year month)

end Calendar
end MatrixPlan

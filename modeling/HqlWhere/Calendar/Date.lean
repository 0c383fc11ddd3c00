/-!
# Days of the Gregorian calendar

A `Date` is a day that exists, in the Gregorian calendar carried on in both directions, with a year
between `Date.firstYear` and `Date.lastYear`; year 0 is a leap year before year 1.

* `Date.of?`         the day of a year, a month and a day, if there is one;
* `Date.number`      the count of days from 1 January 1970;
* `Date.ofNumber?`   the day at a count.
-/

namespace HqlWhere

namespace Calendar

def isLeap (year : Int) : Bool := year % 4 = 0 && (year % 100 ≠ 0 || year % 400 = 0)

def monthLength (year : Int) (month : Nat) : Nat :=
  if month = 2 then (if isLeap year then 29 else 28)
  else if month = 4 ∨ month = 6 ∨ month = 9 ∨ month = 11 then 30
  else 31

end Calendar

namespace Date

/-- The first year that can be told. -/
def firstYear : Int := -262143

/-- The last year that can be told. -/
def lastYear : Int := 262142

/-- Whether a year, a month and a day name a day that can be told. -/
def Exists (year : Int) (month day : Nat) : Prop :=
  firstYear ≤ year ∧ year ≤ lastYear ∧ 1 ≤ month ∧ month ≤ 12 ∧ 1 ≤ day ∧
    day ≤ Calendar.monthLength year month

instance (year : Int) (month day : Nat) : Decidable (Exists year month day) := by
  unfold Exists; infer_instance

end Date

structure Date where
  year : Int
  month : Nat
  day : Nat
  real : Date.Exists year month day
deriving DecidableEq

namespace Date

/-- The day of that name, if there is one. -/
def of? (year : Int) (month day : Nat) : Option Date :=
  if h : Exists year month day then some ⟨year, month, day, h⟩ else none

/-- The number of days from 1 January 1970 to a day.  Years are taken to start in March, so that a
leap day ends its year, and are counted in eras of 400 years or 146097 days. -/
def number (d : Date) : Int :=
  let y := if d.month ≤ 2 then d.year - 1 else d.year
  let m : Int := (d.month + 9) % 12
  let era := Int.fdiv y 400
  let yearOfEra := y - era * 400
  let dayOfYear := (153 * m + 2) / 5 + d.day - 1
  let dayOfEra := yearOfEra * 365 + yearOfEra / 4 - yearOfEra / 100 + dayOfYear
  era * 146097 + dayOfEra - 719468

/-- The day at a count of days from 1 January 1970, if it can be told. -/
def ofNumber? (n : Int) : Option Date :=
  let z := n + 719468
  let era := Int.fdiv z 146097
  let dayOfEra := z - era * 146097
  let yearOfEra := (dayOfEra - dayOfEra / 1460 + dayOfEra / 36524 - dayOfEra / 146096) / 365
  let dayOfYear := dayOfEra - (365 * yearOfEra + yearOfEra / 4 - yearOfEra / 100)
  let m := (5 * dayOfYear + 2) / 153
  let day := dayOfYear - (153 * m + 2) / 5 + 1
  let month := if m < 10 then m + 3 else m - 9
  let year := yearOfEra + era * 400 + (if month ≤ 2 then 1 else 0)
  of? year month.toNat day.toNat

end Date

end HqlWhere

import HqlWhere.Calendar.Date

/-!
# Moments in time

A `Timestamp` is a moment in Coordinated Universal Time, to the nanosecond.  A leap second is told
by a nanosecond count from one thousand million on, within the second before it.
-/

namespace HqlWhere

/-- A moment in Coordinated Universal Time. -/
structure Timestamp where
  date : Date
  /-- Seconds since midnight. -/
  second : Nat
  /-- Nanoseconds since the second, above 999999999 in a leap second. -/
  nano : Nat
deriving DecidableEq

namespace Timestamp

def dayLength : Nat := 86400

/-- The moment at which clocks `offset` seconds ahead show a date and a time of day, if the calendar
holds it. -/
def ofLocal? (date : Date) (second nano : Nat) (offset : Int) : Option Timestamp :=
  let utc := (second : Int) - offset
  let days := Int.fdiv utc dayLength
  (Date.ofNumber? (date.number + days)).map fun d =>
    ⟨d, (utc - days * dayLength).toNat, nano⟩

end Timestamp

end HqlWhere

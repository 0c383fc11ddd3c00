/-!
# What is wrong with a date or a time of day

The readers of dates and timestamps report one of five faults, each the first from the left.
-/

namespace HqlWhere.Calendar

/-- The reasons why a text is no date or no timestamp. -/
inductive Fault
  /-- A number is outside its range, or no such day exists. -/
  | outOfRange
  | unexpected
  | tooShort
  | tooLong
  /-- The moment lies outside the calendar once its offset is taken off. -/
  | impossible
deriving DecidableEq

def Fault.message : Fault → String
  | .outOfRange => "input is out of range"
  | .unexpected => "input contains invalid characters"
  | .tooShort => "premature end of input"
  | .tooLong => "trailing input"
  | .impossible => "no possible date and time matching input"

end HqlWhere.Calendar

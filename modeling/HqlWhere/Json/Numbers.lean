import HqlWhere.Json.Reader

/-!
# Reading numbers

* `readNumberText`       splits a number into its parts and knows only the form;
* `NumberText.number?`   gives the parts their value, an integer or a floating point number;
* `readNumber`           does both.
-/

namespace HqlWhere.Json

/-- The parts of a written number. -/
structure NumberText where
  negative : Bool
  whole : List Char
  /-- The digits behind the point. -/
  fraction : Option (List Char)
  /-- The sign and the digits behind the letter E. -/
  exponent : Option (Bool × List Char)

/-- One or more digits; `missing` is the fault if there is none. -/
def readDigits (missing : List Char → Fault) : Reader (List Char) := fun s =>
  let digits := s.takeWhile Char.isDigit
  if digits.isEmpty then .error (missing s) else .ok (digits, s.dropWhile Char.isDigit)

/-- The digits of a number's whole part; a zero stands alone. -/
def readWhole (missing : List Char → Fault) : Reader (List Char) := fun s => do
  let (digits, r) ← readDigits missing s
  if digits.head? = some '0' ∧ digits.length ≠ 1 then throw (.malformed .badNumber)
  pure (digits, r)

/-- A point and the digits behind it, or nothing. -/
def readFraction (missing : List Char → Fault) : Reader (Option (List Char))
  | '.' :: s => do
    let (digits, r) ← readDigits missing s
    pure (some digits, r)
  | s => .ok (none, s)

/-- The letter E with a sign or none and the digits behind it, or nothing. -/
def readExponent (missing : List Char → Fault) : Reader (Option (Bool × List Char)) := fun s =>
  match s with
  | [] => .ok (none, s)
  | c :: r =>
    if c = 'e' ∨ c = 'E' then do
      let (negative, r) := match r with
        | '-' :: r => (true, r)
        | '+' :: r => (false, r)
        | _ => (false, r)
      let (digits, r) ← readDigits missing r
      pure (some (negative, digits), r)
    else .ok (none, s)

/-- The parts of a number from its first character on. -/
def readNumberText (missing : List Char → Fault) : Reader NumberText := fun s => do
  let (negative, s) := match s with
    | '-' :: s => (true, s)
    | _ => (false, s)
  let (whole, s) ← readWhole missing s
  let (fraction, s) ← readFraction missing s
  let (exponent, s) ← readExponent missing s
  pure (⟨negative, whole, fraction, exponent⟩, s)

/-- The floating point number of the parts, if it is not too large.  It is the nearest one to all
the digits that are written; `Binary64.ofDecimal?` says where a reader of less care may find
another. -/
def NumberText.float? (t : NumberText) : Option Binary64 :=
  let fraction := t.fraction.getD []
  let exponent : Int := match t.exponent with
    | none => 0
    | some (true, digits) => -(Numeral.value digits : Int)
    | some (false, digits) => Numeral.value digits
  Binary64.ofDecimal? t.negative (Numeral.value (t.whole ++ fraction)) (exponent - fraction.length)

/-- The integer of the parts, if it is written as one and fits a 64-bit word.  A minus sign before
zero makes no integer. -/
def NumberText.integer? (t : NumberText) : Option Int :=
  let n := Numeral.value t.whole
  if t.fraction.isSome ∨ t.exponent.isSome then none
  else if t.negative then (if 1 ≤ n ∧ n ≤ 0x8000000000000000 then some (-(n : Int)) else none)
  else if n < 0x10000000000000000 then some (n : Int)
  else none

def NumberText.number? (t : NumberText) : Option Number :=
  match t.integer? with
  | some n => some (.integer n)
  | none => t.float?.map .float

/-- The fault of a digit missing at the head of a text. -/
def missingDigit (s : List Char) : Fault :=
  if s.isEmpty then .endOfText .value else .malformed .badNumber

/-- A number from its first character on. -/
def readNumber : Reader Number := fun s => do
  let (t, r) ← readNumberText missingDigit s
  match t.number? with
  | some n => pure (n, r)
  | none => throw (.malformed .numberTooLarge)

/-- Whether a number starts with this character. -/
def startsNumber (c : Char) : Bool := c == '-' || c.isDigit

end HqlWhere.Json

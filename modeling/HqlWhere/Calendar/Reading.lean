import HqlWhere.Calendar.Fault
import HqlWhere.Calendar.Timestamp
import HqlWhere.Text.Numeral

/-!
# Reading dates and timestamps

The reader goes from left to right and reports the first thing it cannot accept.  Blanks may stand
before each number and before each hyphen or colon.  A year may have a sign, and then any number of
digits; a month, a day, an hour, a minute and a second may have one digit or two.  A number outside
its range is reported at once, a day that its month does not have at the end of the text.

A timestamp ends with its offset from Coordinated Universal Time: `Z`, `UTC`, or a sign, two digits
of hours and two of minutes.

* `Date.ofText`, `Timestamp.ofText`        the readers of whole texts;
* `day`, `timeOfDay`, `offset`             their three parts;
* `digits`, `field`, `separator`, `year`   the steps of the parts.
-/

namespace HqlWhere

namespace Calendar

/-- A step of the reader: what it found and the rest of the text. -/
abbrev Reader (α : Type) := List Char → Except Fault (α × List Char)

/-- The greatest number a numeral may denote. -/
def greatestNumber : Nat := 0x7FFFFFFFFFFFFFFF

/-- A numeral of one to `most` digits. -/
def digits (most : Nat) : Reader Nat := fun s =>
  match s with
  | [] => .error .tooShort
  | _ =>
    let found := (s.take most).takeWhile Char.isDigit
    if found.isEmpty then .error .unexpected
    else if greatestNumber < Numeral.value found then .error .outOfRange
    else .ok (Numeral.value found, s.drop found.length)

/-- A numeral of at most two digits after any blanks, for a number from `low` to `high`. -/
def field (low high : Nat) : Reader Nat := fun s => do
  let (n, r) ← digits 2 (Text.trimStart s)
  if low ≤ n ∧ n ≤ high then pure (n, r) else throw .outOfRange

/-- One given character after any blanks. -/
def separator (c : Char) : List Char → Except Fault (List Char) := fun s =>
  match Text.trimStart s with
  | [] => .error .tooShort
  | d :: r => if c = d then .ok r else .error .unexpected

/-- A year after any blanks: four digits at most, or a sign and any number of digits. -/
def year : Reader Int := fun s => do
  let (y, r) ← match Text.trimStart s with
    | '-' :: r => do let (n, r) ← digits r.length r; pure (-(n : Int), r)
    | '+' :: r => do let (n, r) ← digits r.length r; pure ((n : Int), r)
    | r => do let (n, r) ← digits 4 r; pure ((n : Int), r)
  if -0x80000000 ≤ y ∧ y < 0x80000000 then pure (y, r) else throw .outOfRange

/-- A year, a month and a day with hyphens between. -/
def day : Reader (Int × Nat × Nat) := fun s => do
  let (y, s) ← year s
  let s ← separator '-' s
  let (m, s) ← field 1 12 s
  let s ← separator '-' s
  let (d, s) ← field 1 31 s
  pure ((y, m, d), s)

/-- The nanoseconds that a fraction's digits stand for; digits after the ninth are passed over. -/
def fraction : Reader Nat := fun s =>
  match s with
  | '.' :: s => do
    let (n, r) ← digits 9 s
    pure (n * Nat.pow 10 (9 - (s.length - r.length)), r.dropWhile Char.isDigit)
  | _ => .ok (0, s)

/-- An hour, a minute and a second with colons between, and perhaps a fraction: the seconds since
midnight and the nanoseconds.  The sixtieth second is the leap second after the fifty-ninth. -/
def timeOfDay : Reader (Nat × Nat) := fun s => do
  let (h, s) ← field 0 23 s
  let s ← separator ':' s
  let (m, s) ← field 0 59 s
  let s ← separator ':' s
  let (sec, s) ← field 0 60 s
  let (nano, s) ← fraction s
  let (sec, nano) := if sec = 60 then (59, nano + 1000000000) else (sec, nano)
  pure ((h * 3600 + m * 60 + sec, nano), s)

def twoDigits : Reader Nat := fun s =>
  match s with
  | a :: b :: r =>
    if a.isDigit && b.isDigit then .ok (Numeral.value [a, b], r) else .error .unexpected
  | [a] => if a.utf8Size < 2 then .error .tooShort else .error .unexpected
  | [] => .error .tooShort

/-- A signed offset in seconds: hours, any colons and blanks, minutes. -/
def signedOffset (sign : Int) : Reader Int := fun s => do
  let (h, s) ← twoDigits s
  let (m, s) ← twoDigits (s.dropWhile fun c => c == ':' || Text.isBlank c)
  if m ≤ 59 then pure (sign * (h * 3600 + m * 60), s) else throw .outOfRange

/-- The letters of `UTC`, in either case, at the start of a text. -/
def afterUtc? (s : List Char) : Option (List Char) :=
  if (s.take 3).map Char.toUpper = ['U', 'T', 'C'] then some (s.drop 3) else none

/-- An offset from Coordinated Universal Time, in seconds. -/
def offset : Reader Int := fun s =>
  match afterUtc? s, s with
  | some r, _ => .ok (0, r)
  | none, [] => .error .tooShort
  | none, c :: r =>
    if c = 'Z' ∨ c = 'z' then .ok (0, r)
    else if c = '+' then signedOffset 1 r
    else if c = '-' ∨ c = '\u2212' then signedOffset (-1) r
    else .error .unexpected

end Calendar

def Date.ofText (s : List Char) : Except Calendar.Fault Date := do
  let ((y, m, d), s) ← Calendar.day s
  if Text.trimStart s ≠ [] then throw .tooLong
  match Date.of? y m d with
  | some date => pure date
  | none => throw .outOfRange

/-- The letter or blank between a date and a time of day. -/
def Timestamp.afterMark : List Char → Except Calendar.Fault (List Char)
  | [] => .error .tooShort
  | c :: s => if c = 'T' ∨ c = 't' ∨ c = ' ' then .ok s else .error .unexpected

def Timestamp.ofText (s : List Char) : Except Calendar.Fault Timestamp := do
  let ((y, m, d), s) ← Calendar.day s
  let s ← afterMark s
  let ((second, nano), s) ← Calendar.timeOfDay s
  let (offset, s) ← Calendar.offset (Text.trimStart s)
  if Text.trimStart s ≠ [] then throw .tooLong
  match Date.of? y m d with
  | none => throw .outOfRange
  | some date =>
    if dayLength ≤ offset.natAbs then throw .outOfRange
    match Timestamp.ofLocal? date second nano offset with
    | some t => pure t
    | none => throw .impossible

end HqlWhere

import HqlWhere.Json.Brackets
import HqlWhere.Json.Numbers

/-!
# Reading values of a wanted kind

Each reader here wants a value of one kind, and is told what a message shall say that it wants:
`readString`, `readInteger`, `readFloat`, `readBoolean`, `readNull`, `readArray`.  The fault of any
other value is found by `unwanted`.
-/

namespace HqlWhere.Json

/-- The fault of a value that is not what `expected` asks for.  A word, a string or a number is read
to its end, and its own faults come first; a list or an object is not entered. -/
def unwanted (expected : String) (s : List Char) : Fault :=
  let wrong (found : Found) : Fault := .mismatch (.wrongType found expected)
  let after {α : Type} (read : Except Fault α) (found : α → Found) : Fault :=
    match read with
    | .ok x => wrong (found x)
    | .error f => f
  match s with
  | [] => .endOfText .value
  | c :: r =>
    if c = 'n' then after (readWord "ull".toList r) fun _ => .null
    else if c = 't' then after (readWord "rue".toList r) fun _ => .boolean true
    else if c = 'f' then after (readWord "alse".toList r) fun _ => .boolean false
    else if c = '"' then after (readText r) fun t => .string t.1
    else if startsNumber c then after (readNumber s) fun n => .number n.1
    else if c = '[' then wrong .array
    else if c = '{' then wrong .object
    else .malformed .noValue

/-- A string where one is wanted. -/
def readString (expected : String) : Reader String := fun s =>
  match skipSpace s with
  | '"' :: r => readText r
  | s => .error (unwanted expected s)

/-- A number where one is wanted. -/
def readNumeric (expected : String) : Reader Number := fun s =>
  match skipSpace s with
  | [] => .error (.endOfText .value)
  | c :: r => if startsNumber c then readNumber (c :: r) else .error (unwanted expected (c :: r))

/-- An integer from `low` to `high`. -/
def readInteger (low high : Int) (expected : String) : Reader Int := fun s => do
  let (n, r) ← readNumeric expected s
  match n with
  | .integer n =>
    if low ≤ n ∧ n ≤ high then pure (n, r) else throw (.mismatch (.wrongInteger n expected))
  | .float _ => throw (.mismatch (.wrongType (.number n) expected))

/-- A floating point number; an integer is taken for the nearest one. -/
def readFloat (expected : String) : Reader Binary64 := fun s => do
  let (n, r) ← readNumeric expected s
  match n with
  | .integer n => pure (.ofInt n, r)
  | .float x => pure (x, r)

/-- A truth value where one is wanted. -/
def readBoolean (expected : String) : Reader Bool := fun s =>
  match skipSpace s with
  | 't' :: r => (readWord "rue".toList r).map (true, ·)
  | 'f' :: r => (readWord "alse".toList r).map (false, ·)
  | s => .error (unwanted expected s)

/-- The word `null` where it is wanted. -/
def readNull (expected : String) : Reader Unit := fun s =>
  match skipSpace s with
  | 'n' :: r => (readWord "ull".toList r).map ((), ·)
  | s => .error (unwanted expected s)

/-- A list where one is wanted.  `item` reads an item inside one bracket more; `none` tells that no
bracket may be opened. -/
def readArray {α : Type} (expected : String) (item : Option (Reader α)) : Reader (List α) :=
  fun s =>
  match skipSpace s, item with
  | '[' :: _, none => .error (.malformed .tooDeep)
  | '[' :: r, some item => readList item r
  | s, _ => .error (unwanted expected s)

end HqlWhere.Json

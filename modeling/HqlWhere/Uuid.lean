import HqlWhere.Text.Hex

/-!
# Universally unique identifiers

A `Uuid` is a number of 128 bits.  It is written as thirty-two lower-case hexadecimal digits in five
groups with hyphens between, and read from that form in either case, also within braces or after
`urn:uuid:`, or from the digits alone.

* `write`, `ofText`   the text of an identifier and the identifier of a text;
* `join`, `isJoined`  hyphens put between groups of digits, and the test for them;
* `faultOf`           what is wrong with any other text.
-/

namespace HqlWhere

/-- An identifier of 128 bits. -/
structure Uuid where
  bits : BitVec 128
deriving DecidableEq

namespace Uuid

/-- The reasons why a text is no identifier.  Places and the length of a text count UTF-8 bytes;
groups count from zero. -/
inductive Fault
  | badLength (found : Nat)
  | badCharacter (found : Char) (place : Nat)
  | badGroupCount (found : Nat)
  | badGroupLength (group expected found : Nat)
deriving DecidableEq

/-- The wording of a fault, after the words that all of them share. -/
def Fault.reason : Fault → String
  | .badLength n => "invalid length: found " ++ toString n
  | .badCharacter c n => "invalid character: found `" ++ c.toString ++ "` at " ++ toString n
  | .badGroupCount n => "invalid group count: expected 5, found " ++ toString n
  | .badGroupLength group expected n =>
    "invalid group length in group " ++ toString group ++ ": expected " ++ toString expected ++
      ", found " ++ toString n

def Fault.message (f : Fault) : String := "UUID parsing failed: " ++ f.reason

def groups : List Nat := [8, 4, 4, 4, 12]

def total (groups : List Nat) : Nat := groups.foldr (· + ·) 0

def digitCount : Nat := total groups

/-- The length of the digits in groups, with the hyphens between. -/
def joinedLength : Nat := digitCount + (groups.length - 1)

/-- What may stand before the groups. -/
def urn : List Char := "urn:uuid:".toList

/-- The length of the longest text of an identifier. -/
def longest : Nat := urn.length + joinedLength

/-- Digits with a hyphen between groups of the given lengths. -/
def join : List Nat → List Char → List Char
  | [], _ => []
  | [n], s => s.take n
  | n :: ns, s => s.take n ++ '-' :: join ns (s.drop n)

/-- Whether a text has a hyphen in each place where `join` puts one. -/
def isJoined : List Nat → List Char → Bool
  | [], s => s.isEmpty
  | [n], s => s.length == n
  | n :: ns, s => match s.drop n with
    | '-' :: r => isJoined ns r
    | _ => false

def unjoin (s : List Char) : List Char := s.filter (· != '-')

def write (u : Uuid) : List Char := join groups (Hex.digits digitCount u.bits.toNat)

def ofNumber (n : Nat) : Uuid := ⟨BitVec.ofNat 128 n⟩

/-- A text without its wrapping, with the number of bytes taken off its front: braces, `urn:uuid:`
in either case, or nothing. -/
def unwrap (s : List Char) : Nat × List Char :=
  if s.head? = some '{' ∧ s.getLast? = some '}' ∧ 2 ≤ s.length then (1, (s.drop 1).dropLast)
  else if (s.take urn.length).map Char.toLower = urn then (urn.length, s.drop urn.length)
  else (0, s)

/-- The first character that no identifier has, with its place. -/
def stray? (place : Nat) : List Char → Option (Char × Nat)
  | [] => none
  | c :: s => if Hex.isDigit c || c == '-' then stray? (place + c.utf8Size) s else some (c, place)

/-- The lengths of the pieces of a text between hyphens. -/
def pieceLengths (s : List Char) : List Nat :=
  s.foldr (fun c lengths => if c = '-' then 0 :: lengths else (lengths.headD 0 + 1) :: lengths.tail)
    [0]

/-- The first group that has not the expected length, with the expected length and its own. -/
def misfit? (group : Nat) : List Nat → List Nat → Option (Nat × Nat × Nat)
  | expected :: groups, found :: pieces =>
    if found = expected then misfit? (group + 1) groups pieces else some (group, expected, found)
  | _, _ => none

/-- The length of the last group, the other four being right, in a text of a given length.  All that
is not one of those four or a hyphen after it is counted, wrapping too. -/
def lastLength (length : Nat) : Nat := length - (total groups.dropLast + groups.dropLast.length)

/-- What is wrong with a part of a text: a character that no identifier has, else the number of
groups, else the length of a group.  If digits alone would do as well, a part without a hyphen has
the wrong length instead.  `length` is that of the text, `start` the place where the part starts. -/
def faultWithin (length start : Nat) (grouped : Bool) (part : List Char) : Fault :=
  match stray? start part with
  | some (c, place) => .badCharacter c place
  | none =>
    let pieces := pieceLengths part
    if pieces.length = 1 ∧ !grouped then .badLength length
    else if pieces.length ≠ groups.length then .badGroupCount pieces.length
    else match misfit? 0 groups.dropLast pieces with
      | some (group, expected, found) => .badGroupLength group expected found
      | none => .badGroupLength groups.dropLast.length (groups.getLastD 0) (lastLength length)

/-- What is wrong with a text that is no identifier.  A text that is as long as a joined one is looked
at as it is, wrapped or not; what is wrapped in another text is looked at by itself if it is as long
as a joined one, and in its place in the text otherwise. -/
def faultOf (s : List Char) : Fault :=
  let length := Text.byteCount s
  let (start, body) := unwrap s
  if longest < length then .badLength length
  else if length = joinedLength then faultWithin length 0 true s
  else if Text.byteCount body = joinedLength then faultWithin joinedLength 0 true body
  else faultWithin length start (0 < start) body

def number? (s : List Char) : Option Nat :=
  let (start, body) := unwrap s
  let digits := unjoin body
  let bare := start = 0 ∧ body.length = digitCount
  if digits.length = digitCount ∧ (isJoined groups body ∨ bare) then
    Hex.number? digits
  else none

def ofText (s : List Char) : Except Fault Uuid :=
  match number? s with
  | some n => .ok (ofNumber n)
  | none => .error (faultOf s)

end Uuid

end HqlWhere

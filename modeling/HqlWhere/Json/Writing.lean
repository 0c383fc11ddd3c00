import HqlWhere.Decimal.Notation
import HqlWhere.Json.Basic
import HqlWhere.Text.Hex
import HqlWhere.Text.Numeral

/-!
# Writing JSON

* `Json.write`           puts nothing between the tokens;
* `Json.writeIndented`   puts every item and every member on a line of its own, two blanks deeper
                         than its bracket, and leaves an empty list or object closed up.

Both write in front of a given text, so that what they cost is proportional to what they write.

A string escapes the quote, the backslash and the characters below U+0020, five of these by a letter
and the others by four lower-case hexadecimal digits.  A floating point number that is not finite is
written as `null`.
-/

namespace HqlWhere.Json

/-- The letter that stands for a character after a backslash. -/
def escapeLetter? (c : Char) : Option Char :=
  if c = '"' then some '"'
  else if c = '\\' then some '\\'
  else if c = '\x08' then some 'b'
  else if c = '\t' then some 't'
  else if c = '\n' then some 'n'
  else if c = '\x0c' then some 'f'
  else if c = '\r' then some 'r'
  else none

/-- One character of a string, in front of `k`. -/
def writeChar (c : Char) (k : List Char) : List Char :=
  match escapeLetter? c with
  | some e => '\\' :: e :: k
  | none =>
    if c.toNat < 0x20 then '\\' :: 'u' :: (Hex.digits 4 c.toNat ++ k) else c :: k

/-- A string between its quotes, in front of `k`. -/
def writeString (s : String) (k : List Char) : List Char :=
  '"' :: s.toList.foldr writeChar ('"' :: k)

def Number.write (n : Number) (k : List Char) : List Char :=
  match n with
  | .integer n => Numeral.writeInt n ++ k
  | .float x => if x.isFinite then x.write ++ k else "null".toList ++ k

def writeBool (b : Bool) (k : List Char) : List Char :=
  (if b then "true" else "false").toList ++ k

mutual

/-- A value without any layout, in front of `k`. -/
def write : Json → List Char → List Char
  | .null, k => "null".toList ++ k
  | .boolean b, k => writeBool b k
  | .number n, k => n.write k
  | .string s, k => writeString s k
  | .array [], k => '[' :: ']' :: k
  | .array (x :: xs), k => '[' :: x.write (writeItems xs k)
  | .object [], k => '{' :: '}' :: k
  | .object ((name, x) :: ms), k => '{' :: writeString name (':' :: x.write (writeMembers ms k))

/-- The items of a list after its first, and its closing bracket. -/
def writeItems : List Json → List Char → List Char
  | [], k => ']' :: k
  | x :: xs, k => ',' :: x.write (writeItems xs k)

/-- The members of an object after its first, and its closing brace. -/
def writeMembers : List (String × Json) → List Char → List Char
  | [], k => '}' :: k
  | (name, x) :: ms, k => ',' :: writeString name (':' :: x.write (writeMembers ms k))

end

/-- A new line at a level of indentation, in front of `k`. -/
def newLine (level : Nat) (k : List Char) : List Char :=
  '\n' :: List.replicate (2 * level) ' ' ++ k

mutual

/-- A value with an item or a member on each line, in front of `k`, its bracket at `level`. -/
def writeIndented : Json → Nat → List Char → List Char
  | .null, _, k => "null".toList ++ k
  | .boolean b, _, k => writeBool b k
  | .number n, _, k => n.write k
  | .string s, _, k => writeString s k
  | .array [], _, k => '[' :: ']' :: k
  | .array (x :: xs), level, k =>
    '[' :: newLine (level + 1) (x.writeIndented (level + 1) (indentedItems xs level k))
  | .object [], _, k => '{' :: '}' :: k
  | .object ((name, x) :: ms), level, k =>
    '{' :: newLine (level + 1) (writeString name (':' :: ' ' ::
      x.writeIndented (level + 1) (indentedMembers ms level k)))

/-- The items of a list after its first, on lines of their own, and its closing bracket. -/
def indentedItems : List Json → Nat → List Char → List Char
  | [], level, k => newLine level (']' :: k)
  | x :: xs, level, k =>
    ',' :: newLine (level + 1) (x.writeIndented (level + 1) (indentedItems xs level k))

/-- The members of an object after its first, on lines of their own, and its closing brace. -/
def indentedMembers : List (String × Json) → Nat → List Char → List Char
  | [], level, k => newLine level ('}' :: k)
  | (name, x) :: ms, level, k =>
    ',' :: newLine (level + 1) (writeString name (':' :: ' ' ::
      x.writeIndented (level + 1) (indentedMembers ms level k)))

end

/-- The text of a value without any layout. -/
def compact (j : Json) : String := String.ofList (j.write [])

/-- The text of a value with an item or a member on each line. -/
def indented (j : Json) : String := String.ofList (j.writeIndented 0 [])

end HqlWhere.Json

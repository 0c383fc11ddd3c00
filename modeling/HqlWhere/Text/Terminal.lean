import HqlWhere.Text.Hex
import HqlWhere.Text.Quoted

/-!
# Text on a terminal

A text that goes to a terminal must not steer it.  `harmless` shows by their numbers the characters
that a terminal obeys: bell, backspace, form feed, escape and delete, such as `\x1b`, and the
control characters from U+0080 to U+009F, such as `\u{9b}`.  All other characters stay as they are,
line feeds and tabs among them.
-/

namespace HqlWhere.Text

/-- Whether a terminal obeys a character of one byte. -/
def isSignal (c : Char) : Bool := [0x07, 0x08, 0x0C, 0x1B, 0x7F].contains c.toNat

/-- Whether a terminal obeys a character of two bytes. -/
def isWideSignal (c : Char) : Bool := 0x80 ≤ c.toNat && c.toNat ≤ 0x9F

def harmlessChar (c : Char) : List Char :=
  if isSignal c then '\\' :: 'x' :: Hex.digits 2 c.toNat
  else if isWideSignal c then byNumber c
  else [c]

/-- A text that steers no terminal. -/
def harmless (s : String) : String := String.ofList (s.toList.flatMap harmlessChar)

end HqlWhere.Text

import HqlWhere.Text.Printable

/-!
# Quoted text

A text as a reader of messages sees it: between double quotes, the quote and the backslash escaped,
line feed, carriage return, tab and NUL by their short names, every other character that is not
printable by its number, such as `\u{7f}`, and all else as it is.
-/

namespace HqlWhere.Text

/-- The number of a character between `\u{` and `}`, in lower-case hexadecimal. -/
def byNumber (c : Char) : List Char :=
  "\\u\x7b".toList ++ Nat.toDigits 16 c.toNat ++ ['}']

def quotedChar (c : Char) : List Char :=
  if c = '"' then ['\\', '"']
  else if c = '\\' then ['\\', '\\']
  else if c = '\n' then ['\\', 'n']
  else if c = '\r' then ['\\', 'r']
  else if c = '\t' then ['\\', 't']
  else if c.toNat = 0 then ['\\', '0']
  else if isPrintable c then [c]
  else byNumber c

/-- A text between double quotes. -/
def quoted (s : String) : String :=
  String.ofList ('"' :: s.toList.flatMap quotedChar ++ ['"'])

/-- Quoted texts between brackets, with commas and blanks between them. -/
def quotedList (l : List String) : String :=
  "[" ++ ", ".intercalate (l.map quoted) ++ "]"

end HqlWhere.Text

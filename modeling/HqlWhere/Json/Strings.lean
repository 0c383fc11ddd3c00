import HqlWhere.Json.Reader

/-!
# Reading strings

A string runs from its opening quote to the next quote that is not escaped.  A backslash and a
letter stand for one character, and so do `\u` and four hexadecimal digits, or two such escapes that
are the halves of a surrogate pair.  Characters below U+0020 must be escaped.
-/

namespace HqlWhere.Json

def fourHex? (a b c d : Char) : Option Nat := Hex.number? [a, b, c, d]

/-- The fault of an escape for whose digits fewer than four characters are left.  Of fewer than four
bytes the text is taken to end early. -/
def shortEscape (s : List Char) : Fault :=
  if Text.byteCount s < 4 then .endOfText .string else .malformed .badEscape

/-- The character that a letter after a backslash stands for. -/
def escaped? (e : Char) : Option Char :=
  if e = '"' ∨ e = '\\' ∨ e = '/' then some e
  else if e = 'b' then some '\x08'
  else if e = 't' then some '\t'
  else if e = 'n' then some '\n'
  else if e = 'f' then some '\x0c'
  else if e = 'r' then some '\r'
  else none

/-- Whether a number is the first half of a surrogate pair. -/
def isHigh (n : Nat) : Bool := 0xD800 ≤ n && n ≤ 0xDBFF

/-- Whether a number is the second half of a surrogate pair. -/
def isLow (n : Nat) : Bool := 0xDC00 ≤ n && n ≤ 0xDFFF

def pairChar (high low : Nat) : Char :=
  Char.ofNat (0x10000 + (high - 0xD800) * 0x400 + (low - 0xDC00))

/-- The rest of a string, from behind its opening quote or any character of it to its closing quote.
`done` holds the characters read before, the last one first. -/
def readChars (done : List Char) : Reader (List Char)
  | [] => .error (.endOfText .string)
  | '"' :: s => .ok (done.reverse, s)
  | '\\' :: [] => .error (.endOfText .string)
  | '\\' :: 'u' :: a :: b :: c :: d :: s =>
    match fourHex? a b c d with
    | none => .error (.malformed .badEscape)
    | some n =>
      if isLow n then .error (.malformed .loneSurrogate)
      else if isHigh n then
        match s with
        | [] => .error (.endOfText .string)
        | '\\' :: [] => .error (.endOfText .string)
        | '\\' :: 'u' :: a :: b :: c :: d :: s =>
          match fourHex? a b c d with
          | none => .error (.malformed .badEscape)
          | some m =>
            if isLow m then readChars (pairChar n m :: done) s
            else .error (.malformed .loneSurrogate)
        | '\\' :: 'u' :: s => .error (shortEscape s)
        | _ => .error (.malformed .brokenPair)
      else readChars (Char.ofNat n :: done) s
  | '\\' :: 'u' :: s => .error (shortEscape s)
  | '\\' :: e :: s =>
    match escaped? e with
    | none => .error (.malformed .badEscape)
    | some c => readChars (c :: done) s
  | c :: s =>
    if c.toNat < 0x20 then .error (.malformed .controlCharacter) else readChars (c :: done) s

/-- A string from behind its opening quote. -/
def readText : Reader String := fun s => do
  let (t, r) ← readChars [] s
  pure (String.ofList t, r)

end HqlWhere.Json

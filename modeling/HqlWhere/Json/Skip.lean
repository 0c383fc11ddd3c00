import HqlWhere.Json.Brackets
import HqlWhere.Json.Numbers

/-!
# Passing over a value

The value of a member that nobody asked for is passed over.  It has to be JSON, but its nesting has
no limit, its numbers may be of any size and its strings may hold half surrogate pairs.  The open
brackets are kept in a list, so that no nesting is too deep.
-/

namespace HqlWhere.Json

/-- The rest of the text behind a string's closing quote, from behind its opening quote. -/
def skipChars : List Char → Except Fault (List Char)
  | [] => .error (.endOfText .string)
  | '"' :: s => .ok s
  | '\\' :: [] => .error (.endOfText .string)
  | '\\' :: 'u' :: a :: b :: c :: d :: s =>
    if (fourHex? a b c d).isSome then skipChars s else .error (.malformed .badEscape)
  | '\\' :: 'u' :: s => .error (shortEscape s)
  | '\\' :: e :: s =>
    if (escaped? e).isSome then skipChars s else .error (.malformed .badEscape)
  | c :: s => if c.toNat < 0x20 then .error (.malformed .controlCharacter) else skipChars s

/-- The rest of the text behind a number. -/
def skipNumber (s : List Char) : Except Fault (List Char) := do
  let (_, r) ← readNumberText (fun _ => .malformed .badNumber) s
  pure r

inductive Bracket
  | list
  | object
deriving DecidableEq

/-- The fault of a text that ends inside a bracket. -/
def Bracket.endOfText : Bracket → Fault
  | .list => .endOfText .list
  | .object => .endOfText .object

/-- The fault of an item or member without a comma or the closing bracket behind it. -/
def Bracket.notClosed : Bracket → Fault
  | .list => .malformed .itemsNotClosed
  | .object => .malformed .membersNotClosed

def Bracket.closing : Bracket → Char
  | .list => ']'
  | .object => '}'

/-- Passes over a member's name and colon, inside an object; nothing inside a list. -/
def Bracket.skipName : Bracket → List Char → Except Fault (List Char)
  | .list, s => .ok s
  | .object, s =>
    match skipSpace s with
    | [] => .error (.endOfText .object)
    | c :: r => if c = '"' then skipChars r >>= readColon else .error (.malformed .nameNotString)

/-- What stands at the head of a text: a bracket that opens, or a whole value that is none. -/
def skipOpening (s : List Char) : Except Fault (Option Bracket × List Char) :=
  match skipSpace s with
  | [] => .error (.endOfText .value)
  | c :: r =>
    if c = 'n' then (readWord "ull".toList r).map (none, ·)
    else if c = 't' then (readWord "rue".toList r).map (none, ·)
    else if c = 'f' then (readWord "alse".toList r).map (none, ·)
    else if c = '"' then (skipChars r).map (none, ·)
    else if startsNumber c then (skipNumber (c :: r)).map (none, ·)
    else if c = '[' then .ok (some .list, r)
    else if c = '{' then .ok (some .object, r)
    else .error (.malformed .noValue)

/-- Closes as many of the open brackets, the innermost first, as the text does, up to the place
where the next value stands.  `fresh` tells that the innermost bracket has just been opened, so that
no comma may follow.  Gives the brackets that stay open, none at the end of the outermost value. -/
def skipClosing : List Bracket → Bool → List Char → Except Fault (List Bracket × List Char)
  | [], _, s => .ok ([], s)
  | b :: outer, fresh, s =>
    match skipSpace s with
    | [] => .error b.endOfText
    | c :: r =>
      if c = b.closing then skipClosing outer false r
      else if fresh then (b.skipName (c :: r)).map (b :: outer, ·)
      else if c = ',' then (b.skipName r).map (b :: outer, ·)
      else .error b.notClosed

/-- Passes over values until no bracket is open.  The length of `bound` bounds their number. -/
def skipValues : List Char → List Bracket → List Char → Except Fault (List Char)
  | [], _, _ => .error (.endOfText .value)
  | _ :: bound, opened, s => do
    let (bracket, s) ← skipOpening s
    let (opened, s) ← skipClosing (bracket.toList ++ opened) bracket.isSome s
    if opened.isEmpty then pure s else skipValues bound opened s

/-- The rest of the text behind a value.  The text itself is the bound: no value is empty, so when
the bound is used up nothing is left of the text. -/
def skipValue (s : List Char) : Except Fault (List Char) := skipValues s [] s

end HqlWhere.Json

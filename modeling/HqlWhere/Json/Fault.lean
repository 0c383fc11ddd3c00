import HqlWhere.Calendar.Fault
import HqlWhere.Decimal.Notation
import HqlWhere.Json.Basic
import HqlWhere.Predicate
import HqlWhere.Text.Quoted
import HqlWhere.Uuid

/-!
# What is wrong with a JSON document

A document is read from left to right and the first fault ends the reading.

* `Fault`                  the text ends too early, the text is no JSON, or the JSON is not what was
                           asked for;
* `Malformed`, `Mismatch`  the causes of the second and of the third kind;
* `Fault.message`          the wording, without the place in the text;
* `Fault.kind`             the name of the kind.
-/

namespace HqlWhere.Json

/-- What was being read where the text ended. -/
inductive Place
  | value
  | string
  | list
  | object
deriving DecidableEq

/-- The reasons why a text is no JSON that can be read. -/
inductive Malformed
  | noValue
  | badWord
  | noColon
  | itemsNotClosed
  | membersNotClosed
  | nameNotString
  | commaAtEnd
  | textAfterEnd
  | controlCharacter
  | badEscape
  /-- An escape gives half of a surrogate pair in the wrong place. -/
  | loneSurrogate
  /-- The first half of a surrogate pair is not followed by an escape. -/
  | brokenPair
  | badNumber
  | numberTooLarge
  | tooDeep
deriving DecidableEq

/-- A value as a message shows it. -/
inductive Found
  | null
  | boolean (b : Bool)
  | number (n : Number)
  | string (s : String)
  | array
  | object
  /-- A bare tag whose kind of content is missing. -/
  | bareTag
deriving DecidableEq

/-- The reasons why a value is not what was asked for. -/
inductive Mismatch
  | wrongType (found : Found) (expected : String)
  | wrongInteger (found : Int) (expected : String)
  | wrongLength (found : Nat) (expected : String)
  | unknownTag (found : String) (known : List String)
  | repeatedMember (name : String)
  | missingMember (name : String)
  /-- A path is neither a list of strings nor a string. -/
  | notPath
  | filter (fault : FilterFault)
  | uuid (fault : Uuid.Fault)
  | calendar (fault : Calendar.Fault)
deriving DecidableEq

/-- The first thing that is wrong with a document. -/
inductive Fault
  | endOfText (place : Place)
  | malformed (cause : Malformed)
  | mismatch (cause : Mismatch)
deriving DecidableEq

def Place.name : Place → String
  | .value => "a value"
  | .string => "a string"
  | .list => "a list"
  | .object => "an object"

def Malformed.message : Malformed → String
  | .noValue => "expected value"
  | .badWord => "expected ident"
  | .noColon => "expected `:`"
  | .itemsNotClosed => "expected `,` or `]`"
  | .membersNotClosed => "expected `,` or `\x7d`"
  | .nameNotString => "key must be a string"
  | .commaAtEnd => "trailing comma"
  | .textAfterEnd => "trailing characters"
  | .controlCharacter => "control character (\\u0000-\\u001F) found while parsing a string"
  | .badEscape => "invalid escape"
  | .loneSurrogate => "lone leading surrogate in hex escape"
  | .brokenPair => "unexpected end of hex escape"
  | .badNumber => "invalid number"
  | .numberTooLarge => "number out of range"
  | .tooDeep => "recursion limit exceeded"

def Number.show : Number → String
  | .integer n => "integer `" ++ String.ofList (Numeral.writeInt n) ++ "`"
  | .float x => "floating point `" ++ String.ofList x.write ++ "`"

def Found.show : Found → String
  | .null => "null"
  | .boolean b => "boolean `" ++ (if b then "true" else "false") ++ "`"
  | .number n => n.show
  | .string s => "string " ++ Text.quoted s
  | .array => "sequence"
  | .object => "map"
  | .bareTag => "unit variant"

def ticked (name : String) : String := "`" ++ name ++ "`"

def Mismatch.message : Mismatch → String
  | .wrongType found expected => "invalid type: " ++ found.show ++ ", expected " ++ expected
  | .wrongInteger n expected =>
    "invalid value: " ++ (Number.integer n).show ++ ", expected " ++ expected
  | .wrongLength n expected => "invalid length " ++ toString n ++ ", expected " ++ expected
  | .unknownTag name known =>
    "unknown variant " ++ ticked name ++ ", expected one of " ++
      ", ".intercalate (known.map ticked)
  | .repeatedMember name => "duplicate field " ++ ticked name
  | .missingMember name => "missing field " ++ ticked name
  | .notPath => "data did not match any variant of untagged enum PathRepr"
  | .filter f => f.message
  | .uuid f => f.message
  | .calendar f => f.message

/-- Takes a numeral and then a word off the front of a reversed text.  The numeral must name a
64-bit word and the word must be there. -/
def dropReversed? (word : String) (s : List Char) : Option (List Char) :=
  let digits := s.takeWhile Char.isDigit
  let word := word.toList.reverse
  let rest := s.drop digits.length
  if (Word.ofText? digits.reverse).isSome ∧ word.isPrefixOf rest then some (rest.drop word.length)
  else none

/-- A message without the place in a text, ` at line 3 column 14`, that it may end with.  Places are
told apart from messages, and a message that ends like a place is cut as if it carried one. -/
def withoutPlace (message : String) : String :=
  let s := message.toList.reverse
  let rest := (dropReversed? " column " s).bind (dropReversed? " at line ")
  String.ofList (rest.getD s).reverse

def Fault.message : Fault → String
  | .endOfText place => "EOF while parsing " ++ place.name
  | .malformed cause => cause.message
  | .mismatch cause => withoutPlace cause.message

/-- The kind of a fault: `eof`, `syntax` or `data`. -/
def Fault.kind : Fault → String
  | .endOfText _ => "eof"
  | .malformed _ => "syntax"
  | .mismatch _ => "data"

end HqlWhere.Json

import HqlWhere.Calendar.Reading
import HqlWhere.Calendar.Writing
import HqlWhere.Document.Tagged
import HqlWhere.Json.Writing

/-!
# Values in documents

A value is tagged with its kind.  Identifiers, dates and timestamps are strings; the null value is a
tag without content.
-/

namespace HqlWhere.Value

inductive Kind
  | int
  | uint
  | float
  | string
  | boolean
  | uuid
  | date
  | timestamp
  | null
deriving DecidableEq

def tags : List (String × Kind) :=
  [("Int", .int), ("Uint", .uint), ("Float", .float), ("String", .string), ("Boolean", .boolean),
    ("Uuid", .uuid), ("Date", .date), ("Timestamp", .timestamp), ("Null", .null)]

/-- A string whose text tells a value of another kind. -/
def readTold {α ε : Type} (expected : String) (ofText : List Char → Except ε α)
    (cause : ε → Json.Mismatch) : Json.Reader α := fun s => do
  let (text, r) ← Json.readString expected s
  let x ← (ofText text.toList).mapError fun f => Json.Fault.mismatch (cause f)
  pure (x, r)

def readContent : Kind → Json.Reader Value
  | .int, s => do
    let (n, r) ← Json.readInteger (-0x8000000000000000) 0x7FFFFFFFFFFFFFFF "i64" s
    pure (.int (Int64.ofInt n), r)
  | .uint, s => do
    let (n, r) ← Json.readInteger 0 0xFFFFFFFFFFFFFFFF "u64" s
    pure (.uint (UInt64.ofNat n.toNat), r)
  | .float, s => do
    let (x, r) ← Json.readFloat "f64" s
    pure (.float x, r)
  | .string, s => do
    let (t, r) ← Json.readString "a string" s
    pure (.string t, r)
  | .boolean, s => do
    let (b, r) ← Json.readBoolean "a boolean" s
    pure (.boolean b, r)
  | .uuid, s => do
    let (u, r) ← readTold "a formatted UUID string" Uuid.ofText .uuid s
    pure (.uuid u, r)
  | .date, s => do
    let (d, r) ← readTold "a formatted date string" Date.ofText .calendar s
    pure (.date d, r)
  | .timestamp, s => do
    let (t, r) ←
      readTold "an RFC 3339 formatted date and time string" Timestamp.ofText .calendar s
    pure (.timestamp t, r)
  | .null, s => do
    let (_, r) ← Json.readNull "unit" s
    pure (.null, r)

/-- The value of a bare tag; only the null value has no content. -/
def ofBareTag : Kind → Except Json.Fault Value
  | .null => .ok .null
  | _ => .error (.mismatch (.wrongType .bareTag "newtype variant"))

/-- A value, inside which `budget` brackets may be open at once. -/
def read (budget : Nat) : Json.Reader Value := fun s =>
  match Json.skipSpace s with
  | [] => .error (.endOfText .value)
  | '{' :: r =>
    if budget = 0 then .error (.malformed .tooDeep)
    else do
      let (kind, r) ← Json.readTag tags r
      let (v, r) ← readContent kind r
      let r ← Json.closeTagged r
      pure (v, r)
  | '"' :: r => do
    let (kind, r) ← Json.readBareTag tags r
    let v ← ofBareTag kind
    pure (v, r)
  | _ => .error (.malformed .noValue)

def toJson : Value → Json
  | .int n => Json.tagged "Int" (.integer n.toInt)
  | .uint n => Json.tagged "Uint" (.integer n.toNat)
  | .float x => Json.tagged "Float" (.number (.float x))
  | .string s => Json.tagged "String" (.string s)
  | .boolean b => Json.tagged "Boolean" (.boolean b)
  | .uuid u => Json.tagged "Uuid" (.string (String.ofList u.write))
  | .date d => Json.tagged "Date" (.string (String.ofList d.write))
  | .timestamp t => Json.tagged "Timestamp" (.string (String.ofList t.write))
  | .null => .string "Null"

end HqlWhere.Value

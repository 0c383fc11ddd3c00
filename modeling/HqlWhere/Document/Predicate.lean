import HqlWhere.Document.Path
import HqlWhere.Document.Value
import HqlWhere.Json.Skip

/-!
# Predicates in documents

A predicate is an object with the members `path`, `operator` and `values` in any order, or a list of
the three.  The values may be left out.  Members of other names are passed over; a member that comes
twice is refused when its name is read.
-/

namespace HqlWhere.Predicate

/-- What the members read so far have told. -/
structure Draft where
  path : Option Path := none
  operator : Option Operator := none
  values : Option (List Value) := none

/-- The list of values, inside which `budget` brackets may be open at once. -/
def readValues : Nat → Json.Reader (List Value)
  | 0 => Json.readArray "a sequence" none
  | budget + 1 => Json.readArray "a sequence" (some (Value.read budget))

/-- One member, from behind its name. -/
def readMember (budget : Nat) (name : String) (d : Draft) : Json.Reader Draft := fun s =>
  if name = "path" then do
    Json.refuseTwice name d.path
    let s ← Json.readColon s
    let (path, r) ← Path.read budget s
    pure ({ d with path := some path }, r)
  else if name = "operator" then do
    Json.refuseTwice name d.operator
    let s ← Json.readColon s
    let (operator, r) ← Operator.read s
    pure ({ d with operator := some operator }, r)
  else if name = "values" then do
    Json.refuseTwice name d.values
    let s ← Json.readColon s
    let (values, r) ← readValues budget s
    pure ({ d with values := some values }, r)
  else do
    let s ← Json.readColon s
    let r ← Json.skipValue s
    pure (d, r)

def Draft.finish (d : Draft) : Except Json.Fault Predicate :=
  match d.path, d.operator with
  | none, _ => .error (.mismatch (.missingMember "path"))
  | _, none => .error (.mismatch (.missingMember "operator"))
  | some path, some operator => .ok ⟨path, operator, d.values.getD []⟩

/-- The members from behind the opening brace. -/
def readMembers (budget : Nat) : Json.Reader Predicate := fun s => do
  let (d, r) ← Json.readObject (readMember budget) {} s
  let p ← d.finish
  pure (p, r)

/-- The fault of a list that ends after `n` items. -/
def wrongLength (n : Nat) : Json.Fault :=
  .mismatch (.wrongLength n "struct Predicate with 3 elements")

/-- The items from behind the opening bracket. -/
def readItems (budget : Nat) : Json.Reader Predicate := fun s => do
  match ← Json.Items.next true s with
  | .ended _ => throw (wrongLength 0)
  | .more _ r =>
    let (path, r) ← Path.read budget r
    match ← Json.Items.next false r with
    | .ended _ => throw (wrongLength 1)
    | .more _ r =>
      let (operator, r) ← Operator.read r
      match ← Json.Items.next false r with
      | .ended r => pure (⟨path, operator, []⟩, r)
      | .more _ r =>
        let (values, r) ← readValues budget r
        let r ← Json.Items.close r
        pure (⟨path, operator, values⟩, r)

/-- A predicate, inside which `budget` brackets may be open at once. -/
def read (budget : Nat) : Json.Reader Predicate := fun s =>
  match Json.skipSpace s, budget with
  | '{' :: _, 0 | '[' :: _, 0 => .error (.malformed .tooDeep)
  | '{' :: r, budget + 1 => readMembers budget r
  | '[' :: r, budget + 1 => readItems budget r
  | s, _ => .error (Json.unwanted "struct Predicate" s)

def toJson (p : Predicate) : Json :=
  .object [("path", p.path.toJson), ("operator", p.operator.toJson),
    ("values", .array (p.values.map Value.toJson))]

/-- The predicates of a document that is a list of them. -/
def parseList (text : String) : Except Json.Fault (List Predicate) :=
  Json.readAll (Json.readArray "a sequence" (some (read (Json.nesting - 1)))) text.toList

end HqlWhere.Predicate

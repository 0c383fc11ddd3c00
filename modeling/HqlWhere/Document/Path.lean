import HqlWhere.Json.Reading
import HqlWhere.Json.Writing
import HqlWhere.Predicate

/-!
# Paths and operators in documents

A path is a list of its steps or its dotted text; it is written as a list.  The value is read in
full before it is looked at, so a text that is no JSON is reported as such.  An operator is its
name.
-/

namespace HqlWhere

namespace Path

/-- The texts of a list that holds nothing else. -/
def texts? : List Json → Option (List String)
  | [] => some []
  | .string s :: l => (texts? l).map (s :: ·)
  | _ :: _ => none

/-- The path that a value tells. -/
def ofJson : Json → Except Json.Mismatch Path
  | .array items =>
    match texts? items with
    | some steps => (ofSteps steps).mapError fun f => .filter (.path f)
    | none => .error .notPath
  | .string s => (ofText s).mapError fun f => .filter (.path f)
  | _ => .error .notPath

/-- A path, inside which `budget` brackets may be open at once. -/
def read (budget : Nat) : Json.Reader Path := fun s => do
  let (j, r) ← Json.readValue budget s
  let path ← (ofJson j).mapError .mismatch
  pure (path, r)

def toJson (p : Path) : Json := .strings p.steps

end Path

namespace Operator

def read : Json.Reader Operator := fun s => do
  let (name, r) ← Json.readString "a string" s
  let op ← (ofText name).mapError fun f => Json.Fault.mismatch (.filter (.operator f))
  pure (op, r)

def toJson (op : Operator) : Json := .string op.name

end Operator

end HqlWhere

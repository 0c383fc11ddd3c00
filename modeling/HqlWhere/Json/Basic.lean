import HqlWhere.Decimal.Binary64

/-!
# JSON values

The values that a JSON text stands for.  A number is an integer when it is written without fraction
and exponent and fits a 64-bit word, and a floating point number otherwise.  An object keeps its
members in their order, repeated names included.
-/

namespace HqlWhere

inductive Json.Number
  | integer (n : Int)
  | float (x : Binary64)
deriving DecidableEq

inductive Json
  | null
  | boolean (b : Bool)
  | number (n : Json.Number)
  | string (s : String)
  | array (items : List Json)
  | object (members : List (String × Json))

namespace Json

def integer (n : Int) : Json := .number (.integer n)

def strings (l : List String) : Json := .array (l.map .string)

end Json

end HqlWhere

import HqlWhere.Text.Blank

/-!
# Operators

The closed catalogue of the operators that a predicate may carry.

* `all`, `name`   the catalogue, and the one name of each operator, in capitals;
* `binds`         whether an operator refers to a parameter;
* `ofText`        accepts a name in any mix of ASCII case with any blanks around it, and refuses
                  all else.
-/

namespace HqlWhere

/-- A comparison, a test of membership, of a pattern or of presence, or a constant. -/
inductive Operator
  | isIn
  | notIn
  | startsWith
  | endsWith
  | contains
  | isNull
  | notNull
  | lt
  | le
  | gt
  | ge
  /-- Always holds; path and values play no part. -/
  | always
  /-- Never holds; path and values play no part. -/
  | never
deriving DecidableEq

namespace Operator

def all : List Operator :=
  [isIn, notIn, startsWith, endsWith, contains, isNull, notNull, lt, le, gt, ge, always, never]

def name : Operator → String
  | isIn => "IN"
  | notIn => "NOT"
  | startsWith => "PREFIX"
  | endsWith => "POSTFIX"
  | contains => "INFIX"
  | isNull => "ISNULL"
  | notNull => "NOTNULL"
  | lt => "LT"
  | le => "LE"
  | gt => "GT"
  | ge => "GE"
  | always => "TRUE"
  | never => "FALSE"

/-- Whether the operator refers to a parameter, given whether there are values.  Membership in an
empty set is a constant and refers to none. -/
def binds (hasValues : Bool) : Operator → Bool
  | isIn | notIn => hasValues
  | startsWith | endsWith | contains | lt | le | gt | ge => true
  | isNull | notNull | always | never => false

/-- A name that is not in the catalogue, as it was given. -/
structure Unknown where
  name : String
deriving DecidableEq

def Unknown.message (u : Unknown) : String := "Operator not implemented: " ++ u.name

/-- Whether a text is an operator's name, up to the case of ASCII letters. -/
def isNamed (s : List Char) (op : Operator) : Bool := s.map Char.toUpper == op.name.toList

/-- The operator of the name that stands between the blanks at the two ends of a text. -/
def ofText (s : String) : Except Unknown Operator :=
  match all.find? (isNamed (Text.trim s.toList)) with
  | some op => .ok op
  | none => .error ⟨s⟩

theorem mem_all (op : Operator) : op ∈ all := by cases op <;> decide

end Operator

end HqlWhere

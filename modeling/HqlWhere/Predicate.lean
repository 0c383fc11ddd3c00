import HqlWhere.Operator
import HqlWhere.Path
import HqlWhere.Value

/-!
# Predicates

A predicate compares the field at the end of a path with values.  How many values an operator takes
is not checked.
-/

namespace HqlWhere

instance : Feeds Path where
  feed p := feed p.steps

instance : Hashable Path where
  hash p := mixAll (feed p)

/-- An operator feeds its place in the catalogue. -/
instance : Feeds Operator where
  feed op := [(Operator.all.idxOf op).toUInt64]

instance : Hashable Operator where
  hash op := mixAll (feed op)

/-- The reasons why texts make no predicate. -/
inductive FilterFault
  | path (fault : Path.Fault)
  | operator (fault : Operator.Unknown)
deriving DecidableEq

def FilterFault.message : FilterFault → String
  | .path f => f.message
  | .operator f => f.message

/-- A condition on one field. -/
structure Predicate where
  path : Path
  operator : Operator
  values : List Value

namespace Predicate

/-- Whether two predicates have the same path, operator and values, the values in their order. -/
def same (p q : Predicate) : Bool :=
  p.path == q.path && p.operator == q.operator && p.values == q.values

instance : BEq Predicate := ⟨same⟩

theorem same_iff {p q : Predicate} : p.same q = true ↔ p = q := by
  cases p
  cases q
  simp [same, and_assoc]

instance : LawfulBEq Predicate where
  eq_of_beq := same_iff.mp
  rfl := same_iff.mpr rfl

instance : DecidableEq Predicate := fun _ _ => decidable_of_iff _ same_iff

instance : Feeds Predicate where
  feed p := feed p.path ++ feed p.operator ++ feed p.values

instance : Hashable Predicate where
  hash p := mixAll (feed p)

def unary (path : Path) (operator : Operator) : Predicate := ⟨path, operator, []⟩

/-- The predicate of a dotted path, an operator's name and values.  The path is read first. -/
def ofTexts (path operator : String) (values : List Value) : Except FilterFault Predicate := do
  let path ← (Path.ofText path).mapError .path
  let operator ← (Operator.ofText operator).mapError .operator
  pure ⟨path, operator, values⟩

/-- The name of the parameter that the predicate refers to, if any. -/
def parameter? (p : Predicate) : Option String :=
  if p.operator.binds (!p.values.isEmpty) then some p.path.parameter else none

end Predicate

end HqlWhere

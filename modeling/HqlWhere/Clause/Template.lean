import HqlWhere.Clause.Fragment
import HqlWhere.Predicate

/-!
# Clause templates

One template for each operator.  A template is fixed text with places for the dotted path and for
the placeholder.  Of the values only one thing matters, whether there are any, and that only to the
tests of membership: nothing is a member of the empty set.
-/

namespace HqlWhere

inductive Piece
  | text (t : String)
  | path
  /-- The placeholder of the path's parameter. -/
  | placeholder
deriving DecidableEq

def trueClause : String := "(true)"

def falseClause : String := "(false)"

/-- The template of an operator, given whether there are values. -/
def Operator.template (hasValues : Bool) : Operator → List Piece
  | isIn =>
    if hasValues then [.path, .text " IN (", .placeholder, .text ")"] else [.text falseClause]
  | notIn =>
    if hasValues then [.path, .text " NOT IN (", .placeholder, .text ")"] else [.text trueClause]
  | startsWith => [.path, .text " LIKE CONCAT(", .placeholder, .text ", '%')"]
  | endsWith => [.path, .text " LIKE CONCAT('%', ", .placeholder, .text ")"]
  | contains => [.path, .text " LIKE CONCAT('%', ", .placeholder, .text ", '%')"]
  | isNull => [.path, .text " IS NULL"]
  | notNull => [.path, .text " IS NOT NULL"]
  | lt => [.path, .text " < ", .placeholder]
  | le => [.path, .text " <= ", .placeholder]
  | gt => [.path, .text " > ", .placeholder]
  | ge => [.path, .text " >= ", .placeholder]
  | always => [.text trueClause]
  | never => [.text falseClause]

/-- Adds a part of a template, filled in for a path. -/
def Fragment.piece (path : Path) (f : Fragment) : Piece → Fragment
  | .text t => f.text t
  | .path => f.text path.dotted
  | .placeholder => f.bind path.parameter

namespace Predicate

def template (p : Predicate) : List Piece := p.operator.template (!p.values.isEmpty)

def render (p : Predicate) (f : Fragment) : Fragment := p.template.foldl (Fragment.piece p.path) f

end Predicate

end HqlWhere

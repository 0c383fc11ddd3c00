import HqlWhere.Clause.Basic
import HqlWhere.Json.Writing

/-!
# Printed clauses and paths

* `Clause.toJson`    a clause as JSON, its parameters as they stand;
* `Clause.report`    a clause as JSON, its parameters sorted, with those that collide;
* `Clause.printed`   what a command prints for a clause, `Path.printed` for a path.
-/

namespace HqlWhere

namespace Clause

def toJson (c : Clause) : Json :=
  .object [("sql", .string c.sql), ("params", .strings c.params.toList)]

/-- The clause with its parameters and the names that collide, as JSON. -/
def report (c : Clause) : Json :=
  .object [("clause", .string c.sql), ("params", .strings c.distinct),
    ("collisions", .strings c.colliding)]

/-- What is printed for a clause: its text, or its report if JSON is asked for. -/
def printed (c : Clause) (asJson : Bool) : String :=
  if asJson then c.report.indented else c.sql

end Clause

/-- A label in a column of sixteen characters and a blank. -/
def label (name : String) : String :=
  name ++ String.ofList (List.replicate (16 - name.length) ' ') ++ " "

/-- What is printed for a path: how it is shown, its parameter and its field, on three lines. -/
def Path.printed (p : Path) : String :=
  label "Path" ++ p.dotted ++ "\n" ++ label "Parameter" ++ ":" ++ p.parameter ++ "\n" ++
    label "Leaf" ++ p.leaf

end HqlWhere

import HqlWhere.Path

/-!
# Clause text under construction

A `Fragment` is the text of a clause so far, with the names of the parameters that the text refers
to, in the order in which they stand there.  Text is only ever added at the end.

* `text`   adds text that refers to no parameter;
* `bind`   adds a placeholder and records its name.
-/

namespace HqlWhere

/-- Clause text with the names of its parameters. -/
structure Fragment where
  sql : String := ""
  params : Array String := #[]
deriving DecidableEq

namespace Fragment

/-- Adds text that refers to no parameter. -/
def text (f : Fragment) (t : String) : Fragment := { f with sql := f.sql ++ t }

/-- Adds a placeholder, a colon and a name, and records the name. -/
def bind (f : Fragment) (name : String) : Fragment :=
  { sql := f.sql ++ ":" ++ name, params := f.params.push name }

theorem sql_text (f : Fragment) (t : String) : (f.text t).sql = f.sql ++ t := rfl

theorem params_text (f : Fragment) (t : String) : (f.text t).params = f.params := rfl

theorem sql_bind (f : Fragment) (name : String) : (f.bind name).sql = f.sql ++ ":" ++ name := rfl

theorem params_bind (f : Fragment) (name : String) :
    (f.bind name).params = f.params.push name := rfl

end Fragment

end HqlWhere

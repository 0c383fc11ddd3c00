import HqlWhere.Clause.Template

/-!
# Clause text of a list

The predicates of a list are joined by AND behind the word that introduces a clause.  The empty list
has no text at all.
-/

namespace HqlWhere

def introducer : String := "WHERE "

/-- Adds the clauses of predicates, with `" AND "` in front of each. -/
def renderJoined (ps : List Predicate) (f : Fragment) : Fragment :=
  ps.foldl (fun f p => p.render (f.text " AND ")) f

def renderConjunction : List Predicate → Fragment → Fragment
  | [], f => f
  | p :: ps, f => renderJoined ps (p.render (f.text introducer))

theorem renderJoined_nil (f : Fragment) : renderJoined [] f = f := rfl

theorem renderJoined_cons (p : Predicate) (ps : List Predicate) (f : Fragment) :
    renderJoined (p :: ps) f = renderJoined ps (p.render (f.text " AND ")) := rfl

theorem renderJoined_append (ps qs : List Predicate) (f : Fragment) :
    renderJoined (ps ++ qs) f = renderJoined qs (renderJoined ps f) := List.foldl_append

end HqlWhere

import HqlWhere.Proofs.Clause.Skeleton
import Mathlib.Data.List.Basic

/-!
# The parameters of a clause

A template records a name for each of its placeholders, and `Predicate.parameter?` tells from the
operator alone whether there is one.  The two agree, so the parameters of a clause can be told from
the predicates, without a look at any template.

* `Predicate.names_eq`               a predicate records its parameter and nothing else;
* `Expr.names_eq`, `names_all_eq`    a tree and a list record the parameters of their predicates
                                     from left to right;
* `Predicate.names_eq_of_skeleton`   the names depend on nothing that the text does not show.
-/

namespace HqlWhere

/-- The names that a part of a template records. -/
def Piece.names (path : Path) : Piece → List String
  | .placeholder => [path.parameter]
  | .text _ | .path => []

theorem Fragment.params_piece (path : Path) (f : Fragment) (p : Piece) :
    (f.piece path p).params.toList = f.params.toList ++ p.names path := by
  cases p with
  | text t => exact (List.append_nil _).symm
  | path => exact (List.append_nil _).symm
  | placeholder => exact Array.toList_push

theorem Fragment.params_pieces (path : Path) (pieces : List Piece) (f : Fragment) :
    (pieces.foldl (Fragment.piece path) f).params.toList
      = f.params.toList ++ pieces.flatMap (Piece.names path) := by
  induction pieces generalizing f with
  | nil => simp
  | cons p pieces ih =>
    rw [List.foldl_cons, ih, Fragment.params_piece, List.flatMap_cons, List.append_assoc]

/-- The parameter in the clause of a skeleton: a constant has none, a test may have one. -/
def Skeleton.parameter? : Skeleton → Option String
  | always | never => none
  | test op path => if op.binds true then some path.parameter else none

namespace Predicate

theorem names_template (p : Predicate) : p.names = p.template.flatMap (Piece.names p.path) := by
  unfold names render
  rw [Fragment.params_pieces]
  rfl

/-- **A predicate records its parameter, if it has one, and nothing else.** -/
theorem names_eq (p : Predicate) : p.names = p.parameter?.toList := by
  rw [p.names_template]
  obtain ⟨path, op, values⟩ := p
  cases op <;> cases values <;> rfl

theorem parameter?_skeleton (p : Predicate) : p.skeleton.parameter? = p.parameter? := by
  obtain ⟨path, op, values⟩ := p
  cases op <;> cases values <;> rfl

/-- Equal skeletons record the same names. -/
theorem names_eq_of_skeleton {p q : Predicate} (h : p.skeleton = q.skeleton) :
    p.names = q.names := by
  rw [p.names_eq, q.names_eq, ← p.parameter?_skeleton, ← q.parameter?_skeleton, h]

end Predicate

/-- The names of a list are the parameters of its predicates. -/
theorem names_all_eq (ps : List Predicate) :
    ps.flatMap Predicate.names = ps.filterMap Predicate.parameter? := by
  rw [List.filterMap_eq_flatMap_toList]
  exact List.flatMap_congr fun p _ => p.names_eq

/-- The names of a tree are the parameters of its leaves. -/
theorem Expr.names_eq (e : Expr) : e.names = e.leaves.filterMap Predicate.parameter? :=
  names_all_eq e.leaves

end HqlWhere

import HqlWhere.Clause.Compiler
import HqlWhere.Proofs.Clause.Recursion

/-!
# Compiled clauses in closed form

* `Expr.clause`, `clauseOfAll`       the clause of a tree and of a list, without a walk or a fold;
* `Settings.compile_of_fits`         a tree that is not too deep compiles to its clause;
* `Settings.compile_of_unlimited`    so does any tree, if there is no limit;
* `Settings.compile_of_lt`           any other tree is refused, and nothing is told;
* `Settings.compileAll_eq`           a list compiles to its clause;
* `Settings.compileTreeDocument_of_ok` etc.   a document compiles as what it tells, if anything.
-/

namespace HqlWhere

/-- The clause of a tree. -/
def Expr.clause (e : Expr) : Clause := ⟨introducer ++ e.text, e.names.toArray⟩

/-- The texts of predicates, each behind `" AND "`. -/
def joinedText : List Predicate → String
  | [] => ""
  | p :: ps => " AND " ++ p.text ++ joinedText ps

/-- The clause text of a list. -/
def textOfAll : List Predicate → String
  | [] => ""
  | p :: ps => introducer ++ p.text ++ joinedText ps

/-- The clause of a list. -/
def clauseOfAll (ps : List Predicate) : Clause :=
  ⟨textOfAll ps, (ps.flatMap Predicate.names).toArray⟩

theorem Predicate.render_text (p : Predicate) (f : Fragment) (t : String) :
    p.render (f.text t) = f.append ⟨t ++ p.text, p.names.toArray⟩ := by
  rw [p.render_eq]
  simp [Fragment.append, Fragment.text, text, names, String.append_assoc]

theorem renderJoined_eq (ps : List Predicate) (f : Fragment) :
    renderJoined ps f = f.append ⟨joinedText ps, (ps.flatMap Predicate.names).toArray⟩ := by
  induction ps generalizing f with
  | nil => exact f.append_empty.symm
  | cons p ps ih =>
    rw [renderJoined_cons, ih, p.render_text, Fragment.append_assoc]
    simp [Fragment.append, joinedText]

theorem renderConjunction_eq (ps : List Predicate) (f : Fragment) :
    renderConjunction ps f = f.append ⟨textOfAll ps, (ps.flatMap Predicate.names).toArray⟩ := by
  cases ps with
  | nil => exact f.append_empty.symm
  | cons p ps =>
    show renderJoined ps (p.render (f.text introducer)) = _
    rw [renderJoined_eq, p.render_text, Fragment.append_assoc]
    simp [Fragment.append, textOfAll]

namespace Settings

/-- A tree that is not too deep compiles to its clause, and the events are told. -/
theorem compile_of_fits {s : Settings} {e : Expr} (h : ∀ n ∈ s.maxDepth, e.depth ≤ n.toNat) :
    s.compile e = (.ok e.clause, .walked e.depth :: s.report .expression e.clause) := by
  have clause : ((Fragment.text {} introducer).append e.fragment).finish = e.clause := by
    simp [Fragment.append, Fragment.text, Fragment.finish, Expr.fragment, Expr.clause]
  unfold compile
  rw [Expr.render_of_fits _ h, ← clause]

theorem compile_of_unlimited {s : Settings} (unlimited : s.maxDepth = none) (e : Expr) :
    s.compile e = (.ok e.clause, .walked e.depth :: s.report .expression e.clause) :=
  compile_of_fits (by simp [unlimited])

/-- A tree that is too deep is refused, and no events are told. -/
theorem compile_of_lt {s : Settings} {e : Expr} {n : UInt64} (limit : n ∈ s.maxDepth)
    (h : n.toNat < e.depth) : s.compile e = (.error ⟨n⟩, []) := by
  have refused := Expr.render_of_lt (Fragment.text {} introducer) h
  unfold compile
  rw [show s.maxDepth = some n from limit]
  split
  · rename_i refusal f ended
    rw [ended] at refused
    obtain rfl : refusal = ⟨n⟩ := Except.error.inj refused
    rfl
  · rename_i depth f ended
    rw [ended] at refused
    cases refused

/-- A tree is too deep for a limit, or it fits under any limit there is. -/
theorem refused_or_fits (s : Settings) (e : Expr) :
    (∃ n ∈ s.maxDepth, n.toNat < e.depth) ∨ ∀ n ∈ s.maxDepth, e.depth ≤ n.toNat := by
  by_cases h : ∃ n ∈ s.maxDepth, n.toNat < e.depth
  · exact .inl h
  · exact .inr fun n hn => Nat.le_of_not_lt fun deeper => h ⟨n, hn, deeper⟩

/-- A list compiles to its clause. -/
theorem compileAll_eq (s : Settings) (ps : List Predicate) :
    s.compileAll ps = (clauseOfAll ps, s.report .conjunction (clauseOfAll ps)) := by
  have clause : (renderConjunction ps {}).finish = clauseOfAll ps := by
    rw [renderConjunction_eq]
    simp [Fragment.append, Fragment.finish, clauseOfAll]
  unfold compileAll
  rw [clause]

variable {text : String}

theorem compileTreeDocument_of_error (s : Settings) {fault : Json.Fault}
    (h : Expr.parse text = .error fault) :
    s.compileTreeDocument text = (.error (.invalidDocument fault), []) := by
  unfold compileTreeDocument
  rw [h]

theorem compileTreeDocument_of_ok (s : Settings) {e : Expr} (h : Expr.parse text = .ok e) :
    s.compileTreeDocument text = ((s.compile e).1.mapError .depthExceeded, (s.compile e).2) := by
  unfold compileTreeDocument
  rw [h]

theorem compileListDocument_of_error (s : Settings) {fault : Json.Fault}
    (h : Predicate.parseList text = .error fault) :
    s.compileListDocument text = (.error (.invalidDocument fault), []) := by
  unfold compileListDocument
  rw [h]

theorem compileListDocument_of_ok (s : Settings) {ps : List Predicate}
    (h : Predicate.parseList text = .ok ps) :
    s.compileListDocument text = (.ok (s.compileAll ps).1, (s.compileAll ps).2) := by
  unfold compileListDocument
  rw [h]

end Settings

end HqlWhere

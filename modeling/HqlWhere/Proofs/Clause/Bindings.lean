import HqlWhere.Proofs.Clause.Compilation
import HqlWhere.Proofs.Clause.Parameters

/-!
# Who binds a parameter

The catalogue tells twice which operators bind a parameter: `Operator.binds` says so, and
`Operator.template` writes a placeholder.  The two agree on every operator, with values and without.
So what a rendering records is `Predicate.parameter?` of each predicate that it comes to, behind
what was there before.

* `Operator.count_placeholder`   a template has one placeholder if its operator binds, else none;
* `Predicate.params_render`, `Expr.params_render`, `params_renderConjunction`
                                 what a predicate, a tree and a list add to the parameters;
* `Settings.params_exact`        the parameters of compiled clauses.
-/

namespace HqlWhere

/-- **The two descriptions agree on every operator.** -/
theorem Operator.count_placeholder (op : Operator) (hasValues : Bool) :
    (op.template hasValues).count .placeholder = (op.binds hasValues).toNat := by
  cases op <;> cases hasValues <;> decide

theorem Predicate.params_render (p : Predicate) (f : Fragment) :
    (p.render f).params.toList = f.params.toList ++ p.parameter?.toList := by
  rw [p.render_eq, Fragment.append, Array.toList_append, ← p.names_eq]
  rfl

/-- A tree that fits adds the parameters of its leaves. -/
theorem Expr.params_render {limit : Option UInt64} {e : Expr}
    (fits : ∀ n ∈ limit, e.depth ≤ n.toNat) (f : Fragment) :
    (e.render limit f).2.params.toList
      = f.params.toList ++ e.leaves.filterMap Predicate.parameter? := by
  rw [Expr.render_of_fits f fits, Fragment.append, Array.toList_append, ← e.names_eq]
  rfl

theorem params_renderConjunction (ps : List Predicate) (f : Fragment) :
    (renderConjunction ps f).params.toList
      = f.params.toList ++ ps.filterMap Predicate.parameter? := by
  rw [renderConjunction_eq, Fragment.append, Array.toList_append, ← names_all_eq]

namespace Settings

/-- **The parameters of a clause are those of the predicates that it was compiled from.**  A
template has a placeholder exactly if its operator binds.  A predicate records its parameter, if it
has one, and nothing else, whatever was recorded before, and a tree without a depth limit those of
its leaves from left to right.  Such a tree compiles, and these are the parameters of its clause;
the clause of a list has those of the list in order. -/
theorem params_exact (s : Settings) :
    (∀ (op : Operator) (hasValues : Bool),
      (op.template hasValues).count .placeholder = (op.binds hasValues).toNat) ∧
    (∀ (p : Predicate) (f : Fragment),
      (p.render f).params.toList = f.params.toList ++ p.parameter?.toList) ∧
    (∀ p : Predicate, p.compile.params.toList = p.parameter?.toList) ∧
    (∀ (e : Expr) (f : Fragment), (e.render none f).2.params.toList
      = f.params.toList ++ e.leaves.filterMap Predicate.parameter?) ∧
    (s.maxDepth = none → ∀ e : Expr, ∃ c events, s.compile e = (.ok c, events) ∧
      c.params.toList = e.leaves.filterMap Predicate.parameter?) ∧
    ∀ ps : List Predicate,
      (s.compileAll ps).1.params.toList = ps.filterMap Predicate.parameter? := by
  refine ⟨Operator.count_placeholder, Predicate.params_render, fun p => p.params_render {}, ?_, ?_,
    fun ps => ?_⟩
  · intro e f
    exact Expr.params_render (by simp) f
  · intro unlimited e
    exact ⟨e.clause, _, compile_of_unlimited unlimited e, e.names_eq⟩
  · exact params_renderConjunction ps {}

/-- Membership binds if there are values, a test of presence does not, a comparison always does. -/
theorem params_exact_of_tags :
    let s : Settings := {}
    let tag (op : Operator) (values : List Value) : Predicate :=
      ⟨⟨["item", "tag"], by decide, by decide⟩, op, values⟩
    let ps := [tag .isIn [], tag .isIn [.int 1], tag .notNull [.int 1], tag .lt []]
    let e : Expr := .or (.not (.leaf (tag .isIn [.int 1]))) (.and (.leaf (tag .notNull []))
      (.leaf (tag .lt [])))
    s.maxDepth = none ∧
      (∃ c events, s.compile e = (.ok c, events) ∧ c.params.toList = ["item_tag", "item_tag"]) ∧
      (s.compileAll ps).1.params.toList = ["item_tag", "item_tag"] := by
  intro s tag ps e
  obtain ⟨_, _, _, _, trees, lists⟩ := params_exact s
  obtain ⟨c, events, compiled, params⟩ := trees rfl e
  refine ⟨rfl, ⟨c, events, compiled, ?_⟩, ?_⟩
  · rw [params]
    decide +kernel
  · rw [lists]
    decide +kernel

end Settings

end HqlWhere

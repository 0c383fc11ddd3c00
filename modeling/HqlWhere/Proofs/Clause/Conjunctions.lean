import HqlWhere.Proofs.Clause.Compilation

/-!
# Conjunctions as trees and as lists

Some predicates can be joined by AND in two ways, as a list or as a tree of nothing but AND, in any
nesting.  Both compile to the same conjuncts in the same order; the tree adds one pair of brackets
for each of its nodes and nothing else.

To say which brackets these are, a walk is cut into its emissions, since a bracket may also be part
of a leaf's clause.

* `emissions`, `render_eq_emissions`   what a walk adds to a clause, step by step;
* `Expr.OnlyAnd`                       trees of nothing but AND;
* `Expr.OnlyAnd.emitted_flat`          without its own brackets such a tree emits a joined list;
* `Settings.compile_onlyAnd`           the tree and the list, compiled.
-/

namespace HqlWhere

/-! ## emissions -/

/-- What one step of a walk adds to a clause: a text of a node, or the clause of a leaf. -/
inductive Emission
  | text (t : String)
  | clause (p : Predicate)
deriving DecidableEq

namespace Emission

/-- Adds an emission to a clause. -/
def add (f : Fragment) : Emission → Fragment
  | text t => f.text t
  | clause p => p.render f

/-- a bracket of a node; brackets inside a leaf's clause are not meant -/
def isBracket : Emission → Bool
  | text t => t == "(" || t == ")"
  | clause _ => false

end Emission

/-- The emissions of tasks, step by step as `walk` carries them out. -/
def emissions : List Task → List Emission
  | [] => []
  | .emit t :: tasks => .text t :: emissions tasks
  | .visit e depth :: tasks =>
    match e with
    | .leaf p => .clause p :: emissions tasks
    | .and l r => emissions (pairTasks l " AND " r depth ++ tasks)
    | .or l r => emissions (pairTasks l " OR " r depth ++ tasks)
    | .not e => emissions (.emit "NOT (" :: .visit e (depth + 1) :: .emit ")" :: tasks)
termination_by tasks => taskSteps tasks
decreasing_by
  all_goals simp [taskSteps, Task.steps, Expr.steps, pairTasks]; try omega

/-- Without a limit a walk adds its emissions, one after the other. -/
theorem walk_eq_emissions (tasks : List Task) (deepest : Nat) (f : Fragment) :
    (walk none tasks deepest f).2 = (emissions tasks).foldl Emission.add f := by
  have within : ∀ depth, ∀ n ∈ (none : Option UInt64), depth ≤ n.toNat := by
    intro depth n hn
    cases hn
  fun_induction emissions tasks generalizing deepest f with
  | case1 => rw [walk_nil]; rfl
  | case2 t tasks ih => rw [walk_emit, ih]; rfl
  | case3 tasks depth p ih => rw [walk_leaf p (within _), ih]; rfl
  | case4 tasks depth l r ih => rw [walk_and l r (within _), ih]
  | case5 tasks depth l r ih => rw [walk_or l r (within _), ih]
  | case6 tasks depth e ih => rw [walk_not e (within _), ← walk_emit, ih]

namespace Expr

/-- The emissions of a tree, by recursion. -/
def emitted : Expr → List Emission
  | leaf p => [.clause p]
  | and l r => .text "(" :: l.emitted ++ .text " AND " :: r.emitted ++ [.text ")"]
  | or l r => .text "(" :: l.emitted ++ .text " OR " :: r.emitted ++ [.text ")"]
  | not e => .text "NOT (" :: e.emitted ++ [.text ")"]

theorem emissions_visit (e : Expr) (depth : Nat) (tasks : List Task) :
    emissions (.visit e depth :: tasks) = e.emitted ++ emissions tasks := by
  induction e generalizing depth tasks with
  | leaf p => rw [emissions]; rfl
  | and l r ihl ihr =>
    rw [emissions]
    simp only [pairTasks, List.cons_append, List.nil_append, emissions, ihl, ihr, emitted,
      List.append_assoc]
  | or l r ihl ihr =>
    rw [emissions]
    simp only [pairTasks, List.cons_append, List.nil_append, emissions, ihl, ihr, emitted,
      List.append_assoc]
  | not e ih =>
    rw [emissions]
    simp only [emissions, ih, emitted, List.cons_append, List.append_assoc, List.nil_append]

theorem emissions_eq_emitted (e : Expr) : emissions [.visit e 1] = e.emitted := by
  rw [emissions_visit, emissions, List.append_nil]

theorem render_eq_emissions (e : Expr) (f : Fragment) :
    (e.render none f).2 = (emissions [.visit e 1]).foldl Emission.add f :=
  walk_eq_emissions _ 0 f

/-! ## trees of nothing but AND -/

/-- A tree whose nodes are all AND. -/
inductive OnlyAnd : Expr → Prop
  | leaf (p : Predicate) : OnlyAnd (leaf p)
  | and {l r : Expr} (left : OnlyAnd l) (right : OnlyAnd r) : OnlyAnd (and l r)

/-- The number of nodes that are AND. -/
def ands : Expr → Nat
  | leaf _ => 0
  | and l r => 1 + l.ands + r.ands
  | or l r => l.ands + r.ands
  | not e => e.ands

end Expr

/-- The emissions of a list of predicates, joined. -/
def joined : List Predicate → List Emission
  | [] => []
  | p :: ps => .clause p :: ps.flatMap fun q => [.text " AND ", .clause q]

theorem joined_append {ps qs : List Predicate} (hp : ps ≠ []) (hq : qs ≠ []) :
    joined (ps ++ qs) = joined ps ++ .text " AND " :: joined qs := by
  obtain ⟨p, ps, rfl⟩ := List.exists_cons_of_ne_nil hp
  obtain ⟨q, qs, rfl⟩ := List.exists_cons_of_ne_nil hq
  simp [joined]

theorem foldl_joined (p : Predicate) (ps : List Predicate) (f : Fragment) :
    (joined (p :: ps)).foldl Emission.add f = renderJoined ps (p.render f) := by
  rw [joined, List.foldl_cons, List.foldl_flatMap]
  rfl

/-- a list that is not empty is joined behind the introducing word -/
theorem renderConjunction_eq_joined {ps : List Predicate} (h : ps ≠ []) (f : Fragment) :
    renderConjunction ps f = (joined ps).foldl Emission.add (f.text introducer) := by
  obtain ⟨p, ps, rfl⟩ := List.exists_cons_of_ne_nil h
  rw [foldl_joined]
  rfl

theorem joinedText_append (ps qs : List Predicate) :
    joinedText (ps ++ qs) = joinedText ps ++ joinedText qs := by
  induction ps with
  | nil => exact (String.empty_append).symm
  | cons p ps ih =>
    rw [List.cons_append, joinedText, joinedText, ih]
    simp only [String.append_assoc]

namespace Expr.OnlyAnd

variable {e : Expr}

/-- **Without its brackets a tree of nothing but AND emits the joined list of its leaves**, however
it is nested. -/
theorem emitted_flat (h : e.OnlyAnd) :
    (e.emitted.filter fun x => !x.isBracket) = joined e.leaves := by
  induction h with
  | leaf p => rfl
  | @and l r _ _ ihl ihr =>
    rw [leaves, joined_append l.leaves_ne_nil r.leaves_ne_nil, ← ihl, ← ihr]
    simp [emitted, Emission.isBracket]

theorem count_bracket (h : e.OnlyAnd) {b : String} (bracket : b = "(" ∨ b = ")") :
    e.emitted.count (.text b) = e.ands := by
  induction h with
  | leaf p => rfl
  | and _ _ ihl ihr =>
    rcases bracket with rfl | rfl
    all_goals
      simp only [emitted, ands, List.cons_append, List.count_cons, List.count_append, ihl, ihr,
        List.count_nil]
      simp
      omega

theorem ands_eq (h : e.OnlyAnd) : e.ands + 1 = e.leaves.length := by
  induction h with
  | leaf p => rfl
  | and _ _ ihl ihr =>
    rw [ands, leaves, List.length_append, ← ihl, ← ihr]
    omega

/-- a joiner in front of the tree, as in front of each of its leaves -/
theorem length_text (h : e.OnlyAnd) :
    " AND ".length + e.text.length = (joinedText e.leaves).length + 2 * e.ands := by
  induction h with
  | leaf p => simp [text, leaves, joinedText, ands]
  | and _ _ ihl ihr =>
    have bracket : "(".length = 1 ∧ ")".length = 1 := ⟨rfl, rfl⟩
    simp only [text, leaves, joinedText_append, ands, String.length_append, bracket]
    omega

end Expr.OnlyAnd

theorem length_textOfAll {ps : List Predicate} (h : ps ≠ []) :
    " AND ".length + (textOfAll ps).length = introducer.length + (joinedText ps).length := by
  obtain ⟨p, ps, rfl⟩ := List.exists_cons_of_ne_nil h
  simp only [textOfAll, joinedText, String.length_append]
  omega

/-! ## the tree and the list, compiled -/

namespace Settings

/-- **A conjunction compiles alike as a tree and as a list.**  `ps` are the leaves of a tree of
nothing but AND, from left to right, and there is no depth limit.  The clause `c` of the tree and
the clause `flat` of the list have the same parameters, names that differ and names that collide.
The tree emits one pair of brackets for each of its nodes, of which there are one fewer than leaves;
without these brackets its emissions make up `flat`.  A lone predicate has one clause. -/
theorem compile_onlyAnd {s : Settings} (unlimited : s.maxDepth = none) {ps : List Predicate}
    (nonempty : ps ≠ []) {e : Expr} (only : e.OnlyAnd) (leaves : e.leaves = ps) :
    ∃ c events, s.compile e = (.ok c, events) ∧
      let flat := (s.compileAll ps).1
      let emitted := emissions [.visit e 1]
      c.params = flat.params ∧ c.distinct = flat.distinct ∧ c.colliding = flat.colliding ∧
      c = (emitted.foldl Emission.add (Fragment.text {} introducer)).finish ∧
      flat = ((emitted.filter fun x => !x.isBracket).foldl Emission.add
        (Fragment.text {} introducer)).finish ∧
      emitted.count (.text "(") = e.ands ∧ emitted.count (.text ")") = e.ands ∧
      e.ands = ps.length - 1 ∧
      c.sql.length = flat.sql.length + 2 * (ps.length - 1) ∧
      (ps.length = 1 → c = flat) := by
  subst leaves
  have fits : ∀ n ∈ s.maxDepth, e.depth ≤ n.toNat := by
    intro n hn
    rw [unlimited] at hn
    cases hn
  have compiled := compile_of_fits fits
  have flat := congrArg Prod.fst (s.compileAll_eq e.leaves)
  have params : e.clause.params = (clauseOfAll e.leaves).params := rfl
  have nodes : e.ands = e.leaves.length - 1 := by
    have := only.ands_eq
    omega
  have whole : e.clause
      = ((emissions [.visit e 1]).foldl Emission.add (Fragment.text {} introducer)).finish := by
    rw [← e.render_eq_emissions, Expr.render_of_fits _ (by simp)]
    simp [Fragment.append, Fragment.text, Fragment.finish, Expr.fragment, Expr.clause]
  have length : e.clause.sql.length
      = (clauseOfAll e.leaves).sql.length + 2 * (e.leaves.length - 1) := by
    have tree := only.length_text
    have list := length_textOfAll e.leaves_ne_nil
    show (introducer ++ e.text).length = (textOfAll e.leaves).length + _
    rw [String.length_append]
    omega
  refine ⟨e.clause, _, compiled, ?_⟩
  dsimp only
  rw [flat, Expr.emissions_eq_emitted]
  rw [Expr.emissions_eq_emitted] at whole
  refine ⟨rfl, ?_, ?_, whole, ?_, only.count_bracket (.inl rfl), only.count_bracket (.inr rfl),
    nodes, length, ?_⟩
  · rw [Clause.distinct, Clause.distinct, Clause.occurrences, Clause.occurrences, params]
  · rw [Clause.colliding, Clause.colliding, Clause.occurrences, Clause.occurrences, params]
  · rw [only.emitted_flat, ← renderConjunction_eq_joined nonempty]
    exact flat.symm
  · intro alone
    cases only with
    | leaf p =>
      show (⟨introducer ++ p.text, _⟩ : Clause) = ⟨introducer ++ p.text ++ "", _⟩
      rw [String.append_empty]
      rfl
    | @and l r _ _ =>
      have left := List.length_pos_iff.mpr l.leaves_ne_nil
      have right := List.length_pos_iff.mpr r.leaves_ne_nil
      rw [Expr.leaves, List.length_append] at alone
      omega

/-- two bounds on one field and a third condition, nested to the right -/
theorem compile_onlyAnd_of_ages :
    let age (op : Operator) : Predicate := ⟨⟨["age"], by decide, by decide⟩, op, [.int 5]⟩
    let genre : Predicate := ⟨⟨["genre"], by decide, by decide⟩, .notNull, []⟩
    let e : Expr := .and (.leaf (age .ge)) (.and (.leaf (age .le)) (.leaf genre))
    let flat := (compileAll {} [age .ge, age .le, genre]).1
    ∃ c events, compile {} e = (.ok c, events) ∧
      c.sql = "WHERE (age >= :age AND (age <= :age AND genre IS NOT NULL))" ∧
      flat.sql = "WHERE age >= :age AND age <= :age AND genre IS NOT NULL" ∧
      c.params = flat.params ∧ c.colliding = flat.colliding ∧
      c.sql.length = flat.sql.length + 4 := by
  intro age genre e flat
  have only : e.OnlyAnd := .and (.leaf _) (.and (.leaf _) (.leaf _))
  obtain ⟨c, events, compiled, params, _, colliding, whole, _, _, _, _, length, _⟩ :=
    compile_onlyAnd (s := {}) rfl (List.cons_ne_nil _ _) only rfl
  have list : flat.sql = "WHERE age >= :age AND age <= :age AND genre IS NOT NULL" := by
    decide +kernel
  refine ⟨c, events, compiled, ?_, list, params, colliding, length⟩
  rw [whole, Expr.emissions_eq_emitted]
  decide +kernel

end Settings

end HqlWhere

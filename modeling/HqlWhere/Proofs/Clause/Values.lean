import HqlWhere.Proofs.Clause.Parameters
import HqlWhere.Proofs.Clause.Readability

/-!
# Values play no part

Compiling looks at the skeletons of predicates and at the shape of a tree, and at nothing else: two
filters that agree on these have one result and one log, under any settings.  Of its values a
predicate shows in its skeleton at most whether there are any, and that only in a test of
membership.  So two runs on filters that differ in their values cannot be told apart, neither by
what they return nor by what they log.

* `Expr.clause_eq_of_alike`, `clauseOfAll_eq_of_skeletons`   the clause depends on the skeletons;
* `Settings.compile_eq_of_alike`                             so does the whole run on a tree;
* `Settings.compile_eq_of_sameButValues`                     values play no part.
-/

namespace HqlWhere

/-! ## what compiling looks at -/

namespace Expr

theorem names_eq_of_alike {e₁ e₂ : Expr} (h : e₁.Alike e₂) : e₁.names = e₂.names := by
  induction h with
  | leaf same => rw [names_leaf, names_leaf, Predicate.names_eq_of_skeleton same]
  | and _ _ left right => rw [names_and, names_and, left, right]
  | or _ _ left right => rw [names_or, names_or, left, right]
  | not _ inner => rw [names_not, names_not, inner]

theorem clause_eq_of_alike {e₁ e₂ : Expr} (h : e₁.Alike e₂) : e₁.clause = e₂.clause := by
  rw [clause, clause, text_eq_of_alike h, names_eq_of_alike h]

end Expr

theorem names_all_eq_of_skeletons {ps qs : List Predicate}
    (h : ps.map Predicate.skeleton = qs.map Predicate.skeleton) :
    ps.flatMap Predicate.names = qs.flatMap Predicate.names := by
  induction ps generalizing qs with
  | nil => rw [List.map_eq_nil_iff.mp h.symm]
  | cons p ps ih =>
    cases qs with
    | nil => cases h
    | cons q qs =>
      obtain ⟨same, rest⟩ := List.cons.inj h
      rw [List.flatMap_cons, List.flatMap_cons, Predicate.names_eq_of_skeleton same, ih rest]

theorem clauseOfAll_eq_of_skeletons {ps qs : List Predicate}
    (h : ps.map Predicate.skeleton = qs.map Predicate.skeleton) :
    clauseOfAll ps = clauseOfAll qs := by
  have names := names_all_eq_of_skeletons h
  have texts : textOfAll ps = textOfAll qs := by
    cases ps with
    | nil => rw [List.map_eq_nil_iff.mp h.symm]
    | cons p ps =>
      cases qs with
      | nil => cases h
      | cons q qs =>
        obtain ⟨same, rest⟩ := List.cons.inj h
        rw [textOfAll, textOfAll, Predicate.text_eq_of_skeleton same,
          joinedText_eq_of_skeletons rest]
  rw [clauseOfAll, clauseOfAll, texts, names]

/-- Alike trees are compiled alike: both to one clause or both refused, with one log. -/
theorem Settings.compile_eq_of_alike (s : Settings) {e₁ e₂ : Expr} (h : e₁.Alike e₂) :
    s.compile e₁ = s.compile e₂ := by
  have depth := h.depth_eq
  rcases s.refused_or_fits e₁ with ⟨n, limit, deeper⟩ | fits
  · have deeper₂ : n.toNat < e₂.depth := depth ▸ deeper
    rw [compile_of_lt limit deeper, compile_of_lt limit deeper₂]
  · have fits₂ : ∀ n ∈ s.maxDepth, e₂.depth ≤ n.toNat := depth ▸ fits
    rw [compile_of_fits fits, compile_of_fits fits₂, depth, Expr.clause_eq_of_alike h]

/-! ## what a predicate shows of its values -/

/-- Two predicates that differ at most in their values.  In a test of membership they agree on
whether there are any. -/
structure Predicate.SameButValues (p q : Predicate) : Prop where
  path : p.path = q.path
  operator : p.operator = q.operator
  membership : p.operator = .isIn ∨ p.operator = .notIn → (p.values = [] ↔ q.values = [])

theorem Predicate.SameButValues.skeleton_eq {p q : Predicate} (h : p.SameButValues q) :
    p.skeleton = q.skeleton := by
  obtain ⟨path, op, values₁⟩ := p
  obtain ⟨path₂, op₂, values₂⟩ := q
  obtain ⟨rfl, rfl, membership⟩ := h
  have told : op = .isIn ∨ op = .notIn → values₁ = [] ∧ values₂ = [] ∨
      values₁ ≠ [] ∧ values₂ ≠ [] := by
    intro test
    have agree : values₁ = [] ↔ values₂ = [] := membership test
    by_cases none : values₁ = []
    · exact .inl ⟨none, agree.mp none⟩
    · exact .inr ⟨none, fun none₂ => none (agree.mpr none₂)⟩
  cases op with
  | isIn =>
    rcases told (.inl rfl) with ⟨rfl, rfl⟩ | ⟨some₁, some₂⟩
    · rfl
    · simp [skeleton, some₁, some₂]
  | notIn =>
    rcases told (.inr rfl) with ⟨rfl, rfl⟩ | ⟨some₁, some₂⟩
    · rfl
    · simp [skeleton, some₁, some₂]
  | _ => rfl

/-- **Values never influence what is compiled.**  Take two trees of one shape, or two lists, whose
predicates differ pairwise at most in their values.  Under any settings both have the same result,
be it a clause or a refusal, and the same log. -/
theorem Settings.compile_eq_of_sameButValues (s : Settings) :
    (∀ e₁ e₂ : Expr, e₁.Leafwise Predicate.SameButValues e₂ → s.compile e₁ = s.compile e₂) ∧
    ∀ ps qs : List Predicate, List.Forall₂ Predicate.SameButValues ps qs →
      s.compileAll ps = s.compileAll qs := by
  constructor
  · intro e₁ e₂ h
    exact s.compile_eq_of_alike (h.mono fun p q same => same.skeleton_eq)
  · intro ps qs h
    have skeletons : ps.map Predicate.skeleton = qs.map Predicate.skeleton := by
      induction h with
      | nil => rfl
      | cons same _ ih => rw [List.map_cons, List.map_cons, same.skeleton_eq, ih]
    rw [s.compileAll_eq, s.compileAll_eq, clauseOfAll_eq_of_skeletons skeletons]

/-- a comparison with no value or with two, and a membership test on one value or another -/
theorem Settings.compile_of_other_values :
    let s : Settings := { maxDepth := some 2 }
    let below (values : List Value) : Predicate := ⟨⟨["price"], by decide, by decide⟩, .lt, values⟩
    let within (values : List Value) : Predicate :=
      ⟨⟨["genre"], by decide, by decide⟩, .isIn, values⟩
    let e₁ : Expr := .and (.leaf (below [])) (.leaf (within [.string "SciFi"]))
    let e₂ : Expr := .and (.leaf (below [.int 1, .null])) (.leaf (within [.boolean true]))
    e₁.Leafwise Predicate.SameButValues e₂ ∧ s.compile e₁ = s.compile e₂ ∧
      s.compile e₁.not = s.compile e₂.not ∧ (s.compile e₂.not).1 = .error ⟨2⟩ ∧
      List.Forall₂ Predicate.SameButValues e₁.leaves e₂.leaves ∧
      s.compileAll e₁.leaves = s.compileAll e₂.leaves := by
  intro s below within e₁ e₂
  have first : (below []).SameButValues (below [.int 1, .null]) :=
    ⟨rfl, rfl, by rintro (test | test) <;> cases test⟩
  have second : (within [.string "SciFi"]).SameButValues (within [.boolean true]) :=
    ⟨rfl, rfl, fun _ => ⟨fun h => absurd h (List.cons_ne_nil _ _),
      fun h => absurd h (List.cons_ne_nil _ _)⟩⟩
  have trees : e₁.Leafwise Predicate.SameButValues e₂ := .and (.leaf first) (.leaf second)
  have lists : List.Forall₂ Predicate.SameButValues e₁.leaves e₂.leaves :=
    .cons first (.cons second .nil)
  obtain ⟨onTrees, onLists⟩ := Settings.compile_eq_of_sameButValues s
  refine ⟨trees, onTrees _ _ trees, onTrees _ _ (.not trees), ?_, lists, onLists _ _ lists⟩
  rw [compile_of_lt rfl (by decide)]

end HqlWhere

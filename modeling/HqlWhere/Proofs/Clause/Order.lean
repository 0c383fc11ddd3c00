import HqlWhere.Proofs.Clause.Collisions
import HqlWhere.Proofs.Clause.Compilation

/-!
# The order of operands

Operands in another order make another text, of the same characters.  All else about a clause is
the same: whether a tree is refused, its depth, its length, and its parameters but for their order.
So the warning about names that collide is the same too, since names are counted after sorting.

* `Expr.Swapped`           two trees that differ in the order of operands;
* `Clause.Reordered`       what two clauses have in common whose operands differ in order;
* `Settings.compile_reordered`   permuted lists and swapped trees, compiled.
-/

namespace HqlWhere

/-! ## clauses -/

/-- Two clauses with the same characters and the same parameters in another order. -/
structure Clause.Reordered (c d : Clause) : Prop where
  chars : c.sql.toList.Perm d.sql.toList
  length : c.sql.length = d.sql.length
  params : c.params.toList.Perm d.params.toList
  isEmpty : c.isEmpty = d.isEmpty
  distinct : c.distinct = d.distinct
  colliding : c.colliding = d.colliding

namespace Clause

variable {c d : Clause}

/-- names are counted after sorting, so their order is lost -/
theorem occurrences_eq_of_perm (h : c.params.toList.Perm d.params.toList) :
    c.occurrences = d.occurrences := by
  have sorted (l : List String) : (l.mergeSort fun a b => decide (a ≤ b)).Pairwise (· ≤ ·) :=
    List.pairwise_mergeSort' (· ≤ ·) l
  have perm := ((List.mergeSort_perm _ fun a b : String => decide (a ≤ b)).trans h).trans
    (List.mergeSort_perm _ fun a b : String => decide (a ≤ b)).symm
  rw [occurrences, occurrences, perm.eq_of_pairwise' (sorted _) (sorted _)]

theorem reordered_of_perm (chars : c.sql.toList.Perm d.sql.toList)
    (params : c.params.toList.Perm d.params.toList) : c.Reordered d := by
  have length : c.sql.length = d.sql.length := by
    rw [← String.length_toList, ← String.length_toList, chars.length_eq]
  have counts := occurrences_eq_of_perm params
  refine ⟨chars, length, params, ?_, ?_, ?_⟩
  · have empty : ∀ e : Clause, e.isEmpty = (e.sql.toList == []) := by
      intro e
      rw [isEmpty, Bool.eq_iff_iff]
      simp
    rw [empty, empty, Bool.eq_iff_iff, beq_iff_eq, beq_iff_eq]
    exact ⟨fun h => (h ▸ chars).nil_eq.symm, fun h => (h ▸ chars).eq_nil⟩
  · rw [distinct, distinct, counts]
  · rw [colliding, colliding, counts]

end Clause

/-! ## lists -/

theorem toList_joinedText (ps : List Predicate) :
    (joinedText ps).toList = ps.flatMap fun p => " AND ".toList ++ p.text.toList := by
  induction ps with
  | nil => rfl
  | cons p ps ih =>
    rw [joinedText, String.toList_append, String.toList_append, ih, List.flatMap_cons]

/-- The first predicate of a list stands behind another word than the others.  With both words the
count of characters does not tell which predicate is the first. -/
theorem count_textOfAll {ps : List Predicate} (h : ps ≠ []) (c : Char) :
    " AND ".toList.count c + (textOfAll ps).toList.count c =
      introducer.toList.count c + (joinedText ps).toList.count c := by
  obtain ⟨p, ps, rfl⟩ := List.exists_cons_of_ne_nil h
  simp only [textOfAll, joinedText, String.toList_append, List.count_append]
  omega

theorem textOfAll_perm {ps qs : List Predicate} (h : ps.Perm qs) :
    (textOfAll ps).toList.Perm (textOfAll qs).toList := by
  by_cases empty : ps = []
  · subst empty
    rw [h.nil_eq]
  · have other : qs ≠ [] := fun none => empty (none ▸ h).eq_nil
    have joined : (joinedText ps).toList.Perm (joinedText qs).toList := by
      rw [toList_joinedText, toList_joinedText]
      exact h.flatMap_right _
    rw [List.perm_iff_count]
    intro c
    have first := count_textOfAll empty c
    have second := count_textOfAll other c
    have same := joined.count_eq c
    omega

theorem reordered_clauseOfAll {ps qs : List Predicate} (h : ps.Perm qs) :
    (clauseOfAll ps).Reordered (clauseOfAll qs) :=
  Clause.reordered_of_perm (textOfAll_perm h) (h.flatMap_right Predicate.names)

/-! ## trees -/

namespace Expr

/-- The second tree comes from the first by exchanging the two parts of some of the AND and OR
nodes. -/
inductive Swapped : Expr → Expr → Prop
  | leaf (p : Predicate) : Swapped (leaf p) (leaf p)
  | and {l₁ l₂ r₁ r₂ : Expr} (left : Swapped l₁ l₂) (right : Swapped r₁ r₂) :
      Swapped (and l₁ r₁) (and l₂ r₂)
  | andSwap {l₁ l₂ r₁ r₂ : Expr} (left : Swapped l₁ l₂) (right : Swapped r₁ r₂) :
      Swapped (and l₁ r₁) (and r₂ l₂)
  | or {l₁ l₂ r₁ r₂ : Expr} (left : Swapped l₁ l₂) (right : Swapped r₁ r₂) :
      Swapped (or l₁ r₁) (or l₂ r₂)
  | orSwap {l₁ l₂ r₁ r₂ : Expr} (left : Swapped l₁ l₂) (right : Swapped r₁ r₂) :
      Swapped (or l₁ r₁) (or r₂ l₂)
  | not {e₁ e₂ : Expr} (inner : Swapped e₁ e₂) : Swapped (not e₁) (not e₂)

namespace Swapped

variable {e₁ e₂ : Expr}

theorem depth_eq (h : e₁.Swapped e₂) : e₁.depth = e₂.depth := by
  induction h with
  | leaf p => rfl
  | and _ _ left right => rw [depth, depth, left, right]
  | andSwap _ _ left right => rw [depth, depth, left, right, Nat.max_comm]
  | or _ _ left right => rw [depth, depth, left, right]
  | orSwap _ _ left right => rw [depth, depth, left, right, Nat.max_comm]
  | not _ inner => rw [depth, depth, inner]

theorem leaves_perm (h : e₁.Swapped e₂) : e₁.leaves.Perm e₂.leaves := by
  induction h with
  | leaf p => exact .rfl
  | and _ _ left right => exact left.append right
  | andSwap _ _ left right => exact (left.append right).trans List.perm_append_comm
  | or _ _ left right => exact left.append right
  | orSwap _ _ left right => exact (left.append right).trans List.perm_append_comm
  | not _ inner => exact inner

theorem text_perm (h : e₁.Swapped e₂) : e₁.text.toList.Perm e₂.text.toList := by
  rw [List.perm_iff_count]
  intro c
  induction h with
  | leaf p => rfl
  | _ =>
    simp only [text, String.toList_append, List.count_append]
    omega

theorem reordered_clause (h : e₁.Swapped e₂) : e₁.clause.Reordered e₂.clause := by
  refine Clause.reordered_of_perm ?_ (h.leaves_perm.flatMap_right Predicate.names)
  show (introducer ++ e₁.text).toList.Perm (introducer ++ e₂.text).toList
  rw [String.toList_append, String.toList_append]
  exact h.text_perm.append_left _

end Swapped

end Expr

/-! ## what is compiled and told -/

namespace Settings

/-- A warning names exactly the names that collide, if it is asked for and there are any. -/
theorem collision_mem_report (s : Settings) (subject : Subject) (c : Clause)
    (names : List String) :
    (∃ sql, Event.collision names sql ∈ s.report subject c) ↔
      s.warnOnCollision = true ∧ c.colliding ≠ [] ∧ names = c.colliding := by
  unfold report
  by_cases warns : s.warnOnCollision ∧ c.colliding ≠ []
  · rw [if_pos warns]
    simp [warns.1, warns.2]
  · rw [if_neg warns]
    constructor
    · rintro ⟨sql, told⟩
      simp at told
    · rintro ⟨asked, met, _⟩
      exact absurd ⟨asked, met⟩ warns

/-- **All but the order of the text is independent of the order of operands.**  Permuted lists
compile to clauses with the same characters, parameters up to their order, names that differ and
names that collide, and warn alike.  So do two trees that differ in the order of operands, unless
both are refused with one limit; and they tell one depth. -/
theorem compile_reordered (s : Settings) :
    (∀ ps qs : List Predicate, ps.Perm qs →
      (s.compileAll ps).1.Reordered (s.compileAll qs).1 ∧
      ∀ names, (∃ sql, Event.collision names sql ∈ (s.compileAll ps).2) ↔
        ∃ sql, Event.collision names sql ∈ (s.compileAll qs).2) ∧
    ∀ e₁ e₂ : Expr, e₁.Swapped e₂ →
      (∃ n, s.maxDepth = some n ∧
        s.compile e₁ = (.error ⟨n⟩, []) ∧ s.compile e₂ = (.error ⟨n⟩, [])) ∨
      ∃ c₁ c₂ depth told₁ told₂,
        s.compile e₁ = (.ok c₁, .walked depth :: told₁) ∧
        s.compile e₂ = (.ok c₂, .walked depth :: told₂) ∧
        c₁.Reordered c₂ ∧
        ∀ names, (∃ sql, Event.collision names sql ∈ told₁) ↔
          ∃ sql, Event.collision names sql ∈ told₂ := by
  constructor
  · intro ps qs h
    have clauses := reordered_clauseOfAll h
    rw [s.compileAll_eq, s.compileAll_eq]
    refine ⟨clauses, fun names => ?_⟩
    rw [collision_mem_report, collision_mem_report, clauses.colliding]
  · intro e₁ e₂ h
    have depth := h.depth_eq
    rcases s.refused_or_fits e₁ with ⟨n, limit, deeper⟩ | fits
    · refine .inl ⟨n, limit, compile_of_lt limit deeper, compile_of_lt limit ?_⟩
      rwa [← depth]
    · have clauses := h.reordered_clause
      have first := compile_of_fits fits
      have second := compile_of_fits (s := s) (e := e₂) (by rwa [← depth])
      rw [← depth] at second
      refine .inr ⟨e₁.clause, e₂.clause, e₁.depth, _, _, first, second, clauses, fun names => ?_⟩
      rw [collision_mem_report, collision_mem_report, clauses.colliding]

/-- two bounds on one field behind a third condition, and the same the other way round -/
theorem compile_reordered_ages :
    let s : Settings := { maxDepth := some 2 }
    let age (op : Operator) : Predicate := ⟨⟨["age"], by decide, by decide⟩, op, [.int 5]⟩
    let e₁ : Expr := .or (.leaf (age .ge)) (.leaf (age .lt))
    let e₂ : Expr := .or (.leaf (age .lt)) (.leaf (age .ge))
    (s.compileAll [age .ge, age .lt]).1.Reordered (s.compileAll [age .lt, age .ge]).1 ∧
      (∃ c₁ c₂ depth told₁ told₂,
        s.compile e₁ = (.ok c₁, .walked depth :: told₁) ∧
        s.compile e₂ = (.ok c₂, .walked depth :: told₂) ∧ c₁.Reordered c₂) ∧
      ∃ n, s.compile e₁.not = (.error ⟨n⟩, []) ∧ s.compile e₂.not = (.error ⟨n⟩, []) := by
  intro s age e₁ e₂
  have swapped : e₁.Swapped e₂ := .orSwap (.leaf _) (.leaf _)
  obtain ⟨lists, trees⟩ := s.compile_reordered
  refine ⟨(lists _ _ (.swap _ _ _)).1, ?_, ?_⟩
  · have fits : ∀ n ∈ s.maxDepth, e₁.depth ≤ n.toNat := by
      intro n hn
      obtain rfl := Option.some.inj hn
      decide
    rcases trees _ _ swapped with
      ⟨n, _, refused, _⟩ | ⟨c₁, c₂, d, told₁, told₂, first, second, same, _⟩
    · rw [compile_of_fits fits] at refused
      cases refused
    · exact ⟨c₁, c₂, d, told₁, told₂, first, second, same⟩
  · have deeper : (2 : UInt64).toNat < e₁.not.depth := by decide
    rcases trees _ _ (.not swapped) with
      ⟨n, _, first, second⟩ | ⟨c₁, c₂, d, told₁, told₂, first, _⟩
    · exact ⟨n, first, second⟩
    · rw [compile_of_lt rfl deeper] at first
      cases first

end Settings

end HqlWhere

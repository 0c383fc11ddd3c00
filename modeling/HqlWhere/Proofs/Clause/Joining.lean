import HqlWhere.Proofs.Clause.Compilation

/-!
# Lists as joined predicates

The clause of a list is the clauses of its predicates, in their order, with AND between each two.  So
a list may be cut anywhere: the clauses of its two parts make up the clause of the whole.

* `textOfAll_eq`                the text of a list is joined from those of its predicates;
* `textOfAll_eq_empty_iff`      only the empty list has no text;
* `Settings.compileAll_joins`   what is compiled of a list, of a list cut in two, and behind what is
                                there already.
-/

namespace HqlWhere

theorem intercalate_texts (p : Predicate) (ps : List Predicate) :
    " AND ".intercalate ((p :: ps).map Predicate.text) = p.text ++ joinedText ps := by
  induction ps generalizing p with
  | nil => rw [joinedText, String.append_empty, List.map_cons, List.map_nil,
      String.intercalate_singleton]
  | cons q qs ih =>
    rw [List.map_cons, List.map_cons, String.intercalate_cons_cons, ← List.map_cons, ih, joinedText]
    simp only [String.append_assoc]

theorem textOfAll_eq {ps : List Predicate} (h : ps ≠ []) :
    textOfAll ps = introducer ++ " AND ".intercalate (ps.map Predicate.text) := by
  obtain ⟨p, ps, rfl⟩ := List.exists_cons_of_ne_nil h
  rw [intercalate_texts, textOfAll, String.append_assoc]

theorem textOfAll_eq_empty_iff {ps : List Predicate} : textOfAll ps = "" ↔ ps = [] := by
  cases ps with
  | nil => exact iff_of_true rfl rfl
  | cons p ps =>
    refine iff_of_false (fun empty => ?_) (List.cons_ne_nil p ps)
    rw [textOfAll, String.append_assoc] at empty
    exact absurd (String.append_eq_empty_iff.mp empty).1 (by decide)

namespace Settings

/-- **A list compiles to its predicates, joined.**  Only the empty list has no text; the text of any
other is `WHERE ` and the clauses of its predicates in their order, with AND between each two, and
its parameters are theirs.  Of a list that is cut into two parts, neither of them empty, the text is
that of the first part, AND, and what stands behind `WHERE ` in the text of the second; the parameters
of the second part follow those of the first.  Behind what is there already a list adds its clause and
changes nothing else. -/
theorem compileAll_joins (s : Settings) :
    (∀ ps, (s.compileAll ps).1.sql = "" ↔ ps = []) ∧
    (∀ ps, ps ≠ [] → (s.compileAll ps).1.sql =
      "WHERE " ++ " AND ".intercalate (ps.map fun p => p.compile.sql)) ∧
    (∀ ps, (s.compileAll ps).1.params.toList = ps.flatMap fun p => p.compile.params.toList) ∧
    (∀ xs ys, xs ≠ [] → ys ≠ [] → ∃ rest, (s.compileAll ys).1.sql = "WHERE " ++ rest ∧
      (s.compileAll (xs ++ ys)).1.sql = (s.compileAll xs).1.sql ++ " AND " ++ rest ∧
      (s.compileAll (xs ++ ys)).1.params =
        (s.compileAll xs).1.params ++ (s.compileAll ys).1.params) ∧
    ∀ ps f, renderConjunction ps f =
      ⟨f.sql ++ (s.compileAll ps).1.sql, f.params ++ (s.compileAll ps).1.params⟩ := by
  simp only [compileAll_eq]
  refine ⟨fun ps => textOfAll_eq_empty_iff, fun ps => textOfAll_eq, fun ps => rfl, ?_,
    renderConjunction_eq⟩
  intro xs ys left right
  have both : xs ++ ys ≠ [] := List.append_ne_nil_of_left_ne_nil left ys
  have mapped {ps : List Predicate} (h : ps ≠ []) : ps.map Predicate.text ≠ [] := by simpa using h
  refine ⟨_, textOfAll_eq right, ?_, ?_⟩
  · show textOfAll (xs ++ ys) = textOfAll xs ++ " AND " ++ _
    rw [textOfAll_eq both, textOfAll_eq left, List.map_append,
      String.intercalate_append_of_ne_nil (mapped left) (mapped right)]
    simp only [String.append_assoc]
  · simp [clauseOfAll]

/-- Three predicates, cut behind the second; the last has no parameter. -/
theorem compileAll_joins_of_books :
    let title : Predicate := ⟨⟨["title"], by decide, by decide⟩, .startsWith, [.string "The"]⟩
    let price : Predicate := ⟨⟨["price"], by decide, by decide⟩, .lt, [.int 10]⟩
    let genre : Predicate := ⟨⟨["genre"], by decide, by decide⟩, .notIn, []⟩
    (compileAll {} [title, price, genre]).1.sql =
        "WHERE title LIKE CONCAT(:title, '%') AND price < :price AND (true)" ∧
      (compileAll {} [title, price, genre]).1.sql =
        (compileAll {} [title, price]).1.sql ++ " AND " ++ "(true)" ∧
      (compileAll {} [title, price, genre]).1.params =
        (compileAll {} [title, price]).1.params ++ (compileAll {} [genre]).1.params ∧
      renderConjunction [genre] ⟨"FROM Book b ", #["b"]⟩ = ⟨"FROM Book b WHERE (true)", #["b"]⟩ := by
  intro title price genre
  obtain ⟨_, whole, _, cut, behind⟩ := compileAll_joins {}
  have joined := whole [title, price, genre] (List.cons_ne_nil _ _)
  obtain ⟨rest, alone, text, params⟩ :=
    cut [title, price] [genre] (List.cons_ne_nil _ _) (List.cons_ne_nil _ _)
  have last : "WHERE " ++ "(true)" = "WHERE " ++ rest := alone
  obtain rfl := (String.append_right_inj _).mp last
  exact ⟨joined, text, params, behind [genre] ⟨"FROM Book b ", #["b"]⟩⟩

end Settings

end HqlWhere

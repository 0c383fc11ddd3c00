import HqlWhere.Proofs.Clause.Collisions
import HqlWhere.Proofs.Clause.Compilation
import HqlWhere.Proofs.Clause.Parameters

/-!
# What compiling tells

The events of a compilation are told here by the filter alone, without a look at the clause: how many
predicates bind a parameter and which names two of them bind.

* `Settings.Account`          the events about the clause of some predicates;
* `Settings.account_report`   what is told about a clause that records their parameters;
* `Settings.events_exact`     all events of a compilation, of a tree, a list or a document.
-/

namespace HqlWhere

namespace Settings

/-- The events about a clause with the text `sql`, by the predicates that it was compiled from.
First comes the number of those that bind a parameter.  If the settings ask for a warning and two of
the predicates bind one name, there is one warning, with all such names in ascending order. -/
inductive Account (s : Settings) (subject : Subject) (ps : List Predicate) (sql : String) :
    List Event → Prop
  | quiet (nothing : s.warnOnCollision = false ∨ ∀ name, ¬ BoundTwice ps name) :
      Account s subject ps sql
        [.compiled subject (ps.countP fun p => p.parameter?.isSome) sql]
  | warned {shared : List String} (asked : s.warnOnCollision = true) (met : shared ≠ [])
      (ascending : shared.Pairwise (· < ·))
      (exact : ∀ name, name ∈ shared ↔ BoundTwice ps name) :
      Account s subject ps sql
        [.compiled subject (ps.countP fun p => p.parameter?.isSome) sql, .collision shared sql]

variable (s : Settings)

/-- What is told about a clause, if its parameters are those of the predicates. -/
theorem account_report (subject : Subject) {ps : List Predicate} {c : Clause}
    (names : c.params.toList = ps.filterMap Predicate.parameter?) :
    s.Account subject ps c.sql (s.report subject c) := by
  have size : c.params.size = ps.countP fun p => p.parameter?.isSome := by
    rw [← Array.length_toList, names, List.length_filterMap_eq_countP]
  have shared : ∀ name, name ∈ c.colliding ↔ BoundTwice ps name := by
    intro name
    rw [c.mem_colliding_iff, names, boundTwice_iff]
  unfold report
  rw [size]
  by_cases warns : s.warnOnCollision ∧ c.colliding ≠ []
  · rw [if_pos warns]
    exact .warned warns.1 warns.2 c.ascending_colliding shared
  · rw [if_neg warns]
    refine .quiet ?_
    cases asked : s.warnOnCollision with
    | false => exact .inl rfl
    | true =>
      refine .inr fun name twice => warns ⟨asked, ?_⟩
      exact List.ne_nil_of_mem ((shared name).mpr twice)

theorem account_tree (e : Expr) :
    s.Account .expression e.leaves e.clause.sql (s.report .expression e.clause) :=
  s.account_report .expression e.names_eq

theorem account_list (ps : List Predicate) :
    s.Account .conjunction ps (s.compileAll ps).1.sql (s.compileAll ps).2 := by
  rw [s.compileAll_eq]
  exact s.account_report .conjunction (names_all_eq ps)

/-- **The events of a compilation.**  A tree that is too deep tells nothing.  Any other tree tells
its depth and then of its clause, and a list, be it empty, of its clause only.  A document that is
refused tells nothing.  The last four parts give the levels and the texts of the events. -/
theorem events_exact :
    (∀ e : Expr, ∀ n ∈ s.maxDepth, n.toNat < e.depth → s.compile e = (.error ⟨n⟩, [])) ∧
    (∀ e : Expr, (∀ n ∈ s.maxDepth, e.depth ≤ n.toNat) → ∃ c events,
      s.compile e = (.ok c, .walked e.depth :: events) ∧
      s.Account .expression e.leaves c.sql events) ∧
    (∀ ps : List Predicate,
      s.Account .conjunction ps (s.compileAll ps).1.sql (s.compileAll ps).2) ∧
    (∀ text fault, Expr.parse text = .error fault →
      s.compileTreeDocument text = (.error (.invalidDocument fault), [])) ∧
    (∀ text fault, Predicate.parseList text = .error fault →
      s.compileListDocument text = (.error (.invalidDocument fault), [])) ∧
    (∀ depth, (Event.walked depth).level = .debug ∧
      (Event.walked depth).message = "Walked expression tree to depth " ++ toString depth) ∧
    (∀ n sql, (Event.compiled .expression n sql).level = .debug ∧
      (Event.compiled .expression n sql).message =
        "Compiled expression filter with " ++ toString n ++ " placeholder(s): " ++ sql) ∧
    (∀ n sql, (Event.compiled .conjunction n sql).level = .debug ∧
      (Event.compiled .conjunction n sql).message =
        "Compiled conjunction filter with " ++ toString n ++ " placeholder(s): " ++ sql) ∧
    ∀ names sql, (Event.collision names sql).level = .warn ∧
      (Event.collision names sql).message =
        "Parameter name(s) " ++ Text.quotedList names ++ " are bound more than once in: " ++ sql ++
          "; each occurrence receives the same value" := by
  refine ⟨?_, ?_, s.account_list, ?_, ?_, fun _ => ⟨rfl, rfl⟩, fun _ _ => ⟨rfl, rfl⟩,
    fun _ _ => ⟨rfl, rfl⟩, fun _ _ => ⟨rfl, rfl⟩⟩
  · intro e n limit deeper
    exact compile_of_lt limit deeper
  · intro e fits
    exact ⟨e.clause, _, compile_of_fits fits, s.account_tree e⟩
  · intro text fault refused
    exact s.compileTreeDocument_of_error refused
  · intro text fault refused
    exact s.compileListDocument_of_error refused

/-- two bounds on one field are warned of, unless the tree is too deep -/
theorem events_of_ages :
    let s : Settings := { maxDepth := some 2 }
    let age (op : Operator) : Predicate := ⟨⟨["age"], by decide, by decide⟩, op, [.int 5]⟩
    let e : Expr := .and (.leaf (age .lt)) (.leaf (age .gt))
    (∃ c shared, s.compile e =
        (.ok c, [.walked 2, .compiled .expression 2 c.sql, .collision shared c.sql]) ∧
      "age" ∈ shared) ∧
    s.compile e.not = (.error ⟨2⟩, []) ∧
    s.compileTreeDocument "[" = (.error (.invalidDocument (.malformed .noValue)), []) ∧
    s.compileListDocument "[" = (.error (.invalidDocument (.endOfText .list)), []) := by
  intro s age e
  have fits : ∀ n ∈ s.maxDepth, e.depth ≤ n.toNat := by
    intro n hn
    obtain rfl := Option.some.inj hn
    decide
  obtain ⟨refused, told, _, trees, lists, _⟩ := events_exact s
  refine ⟨?_, refused e.not 2 rfl (by decide), trees "[" _ (by decide +kernel),
    lists "[" _ (by decide +kernel)⟩
  have twice : BoundTwice e.leaves "age" := ⟨0, 1, by decide, rfl, rfl⟩
  obtain ⟨c, events, compiled, account⟩ := told e fits
  cases account with
  | quiet nothing =>
    rcases nothing with off | none
    · cases off
    · exact absurd twice (none "age")
  | @warned shared _ _ _ exact => exact ⟨c, shared, compiled, (exact "age").mpr twice⟩

end Settings

end HqlWhere

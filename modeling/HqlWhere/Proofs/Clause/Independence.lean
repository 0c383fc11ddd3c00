import HqlWhere.Proofs.Clause.Compilation
import Mathlib.Data.List.Basic

/-!
# How far the settings reach

The settings have a depth limit and a switch for warnings.  The limit decides whether a tree
compiles, and the switch whether a warning is told.  Neither has a part in any clause, and a list
does not even ask for the limit.  These are statements about two runs on one document.

* `SameButWarning`                  two logs are one, up to a warning at the end of either;
* `Settings.treeDocument_eq_ok_iff` a tree's document compiles exactly if the tree fits;
* `Settings.listRuns_agree`         two runs on the document of a list;
* `Settings.treeRuns_agree`         two runs on the document of a tree, with one limit;
* `Settings.agree_on_documents`     two runs on one document, with any settings.
-/

namespace HqlWhere

/-! ## logs that differ by a warning -/

/-- Two logs are one, or one of them is the other with a warning at its end. -/
inductive SameButWarning : List Event → List Event → Prop
  | same (events : List Event) : SameButWarning events events
  | first (events : List Event) {w : Event} (warning : w.level = .warn) :
      SameButWarning (events ++ [w]) events
  | second (events : List Event) {w : Event} (warning : w.level = .warn) :
      SameButWarning events (events ++ [w])

theorem SameButWarning.cons (e : Event) {a b : List Event} (h : SameButWarning a b) :
    SameButWarning (e :: a) (e :: b) := by
  cases h with
  | same => exact .same _
  | first _ warning => exact .first (e :: b) warning
  | second _ warning => exact .second (e :: a) warning

namespace Settings

/-- The reports on one clause differ by the warning alone. -/
theorem sameButWarning_report (s₁ s₂ : Settings) (subject : Subject) (c : Clause) :
    SameButWarning (s₁.report subject c) (s₂.report subject c) := by
  have warning : (Event.collision c.colliding c.sql).level = .warn := rfl
  have told (s : Settings) :
      s.report subject c = [.compiled subject c.params.size c.sql] ∨
      s.report subject c = [.compiled subject c.params.size c.sql] ++ [.collision c.colliding c.sql]
      := by
    unfold report
    split
    · exact .inr rfl
    · exact .inl rfl
  rcases told s₁ with quiet₁ | warned₁ <;> rcases told s₂ with quiet₂ | warned₂
  · rw [quiet₁, quiet₂]
    exact .same _
  · rw [quiet₁, warned₂]
    exact .second _ warning
  · rw [warned₁, quiet₂]
    exact .first _ warning
  · rw [warned₁, warned₂]
    exact .same _

/-! ## one run -/

variable {text : String} {e : Expr}

theorem compileTreeDocument_of_fits {s : Settings} (read : Expr.parse text = .ok e)
    (fits : ∀ n ∈ s.maxDepth, e.depth ≤ n.toNat) :
    s.compileTreeDocument text
      = (.ok e.clause, .walked e.depth :: s.report .expression e.clause) := by
  rw [s.compileTreeDocument_of_ok read, compile_of_fits fits]
  rfl

theorem compileTreeDocument_of_lt {s : Settings} {n : UInt64} (read : Expr.parse text = .ok e)
    (limit : n ∈ s.maxDepth) (deeper : n.toNat < e.depth) :
    s.compileTreeDocument text = (.error (.depthExceeded ⟨n⟩), []) := by
  rw [s.compileTreeDocument_of_ok read, compile_of_lt limit deeper]
  rfl

/-- **The document of a tree compiles exactly if the tree is not too deep**, and then to the clause
of the tree, whatever the settings are. -/
theorem treeDocument_eq_ok_iff (s : Settings) (read : Expr.parse text = .ok e) (c : Clause) :
    (s.compileTreeDocument text).1 = .ok c ↔
      (∀ n ∈ s.maxDepth, e.depth ≤ n.toNat) ∧ c = e.clause := by
  rcases s.refused_or_fits e with ⟨n, limit, deeper⟩ | fits
  · rw [compileTreeDocument_of_lt read limit deeper]
    constructor
    · intro compiled
      cases compiled
    · rintro ⟨fits, _⟩
      exact absurd (fits n limit) (Nat.not_le_of_lt deeper)
  · rw [compileTreeDocument_of_fits read fits]
    constructor
    · intro compiled
      exact ⟨fits, (Except.ok.inj compiled).symm⟩
    · rintro ⟨_, rfl⟩
      rfl

/-! ## two runs -/

/-- Two runs on the document of a list give one result, whatever the settings are. -/
theorem listRuns_agree (s₁ s₂ : Settings) (text : String) :
    (s₁.compileListDocument text).1 = (s₂.compileListDocument text).1 ∧
      SameButWarning (s₁.compileListDocument text).2 (s₂.compileListDocument text).2 := by
  cases read : Predicate.parseList text with
  | error fault =>
    rw [s₁.compileListDocument_of_error read, s₂.compileListDocument_of_error read]
    exact ⟨rfl, .same _⟩
  | ok ps =>
    rw [s₁.compileListDocument_of_ok read, s₂.compileListDocument_of_ok read, compileAll_eq,
      compileAll_eq]
    exact ⟨rfl, sameButWarning_report s₁ s₂ .conjunction _⟩

/-- Two runs on the document of a tree give one result, if the limit is the same. -/
theorem treeRuns_agree {s₁ s₂ : Settings} (same : s₁.maxDepth = s₂.maxDepth) (text : String) :
    (s₁.compileTreeDocument text).1 = (s₂.compileTreeDocument text).1 ∧
      SameButWarning (s₁.compileTreeDocument text).2 (s₂.compileTreeDocument text).2 := by
  cases read : Expr.parse text with
  | error fault =>
    rw [s₁.compileTreeDocument_of_error read, s₂.compileTreeDocument_of_error read]
    exact ⟨rfl, .same _⟩
  | ok e =>
    rcases s₁.refused_or_fits e with ⟨n, limit, deeper⟩ | fits
    · rw [compileTreeDocument_of_lt read limit deeper,
        compileTreeDocument_of_lt read (same ▸ limit) deeper]
      exact ⟨rfl, .same _⟩
    · rw [compileTreeDocument_of_fits read fits, compileTreeDocument_of_fits read (same ▸ fits)]
      exact ⟨rfl, (sameButWarning_report s₁ s₂ .expression _).cons _⟩

/-- **The settings reach only where they should.**  Of two runs on one document, with any settings:
as a list it gives the same clause or the same fault.  As a tree, a document that tells none gives
the same fault.  If it tells a tree, each run has a clause exactly if its own limit allows the depth
of the tree and is refused for that limit otherwise, and two clauses are equal.  If the limits are
the same, so that at most the switch for warnings differs, then so are the results, and the logs
differ by no more than a warning at the end. -/
theorem agree_on_documents (s₁ s₂ : Settings) (text : String) :
    (s₁.compileListDocument text).1 = (s₂.compileListDocument text).1 ∧
    (∀ fault, Expr.parse text = .error fault →
      (s₁.compileTreeDocument text).1 = .error (.invalidDocument fault) ∧
      (s₂.compileTreeDocument text).1 = .error (.invalidDocument fault)) ∧
    (∀ e, Expr.parse text = .ok e →
      (∀ s ∈ [s₁, s₂],
        ((∃ c, (s.compileTreeDocument text).1 = .ok c) ↔ ∀ n ∈ s.maxDepth, e.depth ≤ n.toNat) ∧
        ∀ n ∈ s.maxDepth, n.toNat < e.depth →
          (s.compileTreeDocument text).1 = .error (.depthExceeded ⟨n⟩)) ∧
      ∀ c₁ c₂, (s₁.compileTreeDocument text).1 = .ok c₁ →
        (s₂.compileTreeDocument text).1 = .ok c₂ → c₁ = c₂) ∧
    (s₁.maxDepth = s₂.maxDepth →
      (s₁.compileTreeDocument text).1 = (s₂.compileTreeDocument text).1 ∧
      SameButWarning (s₁.compileTreeDocument text).2 (s₂.compileTreeDocument text).2 ∧
      SameButWarning (s₁.compileListDocument text).2 (s₂.compileListDocument text).2) := by
  obtain ⟨lists, listLogs⟩ := listRuns_agree s₁ s₂ text
  refine ⟨lists, ?_, ?_, ?_⟩
  · intro fault unread
    rw [s₁.compileTreeDocument_of_error unread, s₂.compileTreeDocument_of_error unread]
    exact ⟨rfl, rfl⟩
  · intro e read
    refine ⟨fun s _ => ⟨?_, fun n limit deeper => ?_⟩, fun c₁ c₂ run₁ run₂ => ?_⟩
    · simp [s.treeDocument_eq_ok_iff read]
    · rw [compileTreeDocument_of_lt read limit deeper]
    · obtain ⟨_, rfl⟩ := (s₁.treeDocument_eq_ok_iff read c₁).mp run₁
      obtain ⟨_, rfl⟩ := (s₂.treeDocument_eq_ok_iff read c₂).mp run₂
      rfl
  · intro same
    obtain ⟨trees, treeLogs⟩ := treeRuns_agree same text
    exact ⟨trees, treeLogs, listLogs⟩

/-- A tree of two levels with one name twice: under a limit of one, under a limit of two, and the
latter without warnings. -/
theorem agree_on_ages :
    let strict : Settings := { maxDepth := some 1 }
    let loose : Settings := { maxDepth := some 2 }
    let quiet : Settings := { maxDepth := some 2, warnOnCollision := false }
    let age (op : Operator) : Expr := .leaf ⟨⟨["age"], by decide, by decide⟩, op, []⟩
    let text := "\x7b\"and\":[" ++
      "\x7b\"predicate\":\x7b\"path\":\"age\",\"operator\":\"LT\"\x7d\x7d," ++
      "\x7b\"predicate\":\x7b\"path\":\"age\",\"operator\":\"GT\"\x7d\x7d]\x7d"
    Expr.parse text = .ok (.and (age .lt) (age .gt)) ∧
      (strict.compileTreeDocument text).1 = .error (.depthExceeded ⟨1⟩) ∧
      (∃ c, (loose.compileTreeDocument text).1 = .ok c) ∧
      loose.maxDepth = quiet.maxDepth ∧
      SameButWarning (loose.compileTreeDocument text).2 (quiet.compileTreeDocument text).2 ∧
      (∃ fault, Expr.parse "[" = .error fault ∧
        (loose.compileTreeDocument "[").1 = .error (.invalidDocument fault)) := by
  intro strict loose quiet age text
  have read : Expr.parse text = .ok (.and (age .lt) (age .gt)) := by decide +kernel
  have unread : Expr.parse "[" = .error (.malformed .noValue) := by decide +kernel
  obtain ⟨_, _, trees, _⟩ := agree_on_documents strict loose text
  obtain ⟨runs, _⟩ := trees _ read
  obtain ⟨_, _, _, logs⟩ := agree_on_documents loose quiet text
  obtain ⟨_, faults, _, _⟩ := agree_on_documents loose quiet "["
  refine ⟨read, (runs strict (by simp)).2 1 rfl (by decide), (runs loose (by simp)).1.mpr ?_, rfl,
    (logs rfl).2.1, _, unread, (faults _ unread).1⟩
  intro n limit
  obtain rfl := Option.some.inj limit
  decide

end Settings

end HqlWhere

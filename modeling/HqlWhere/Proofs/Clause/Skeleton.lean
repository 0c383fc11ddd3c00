import HqlWhere.Proofs.Clause.Recursion

/-!
# What the text of a predicate tells

A clause shows neither values nor, in a constant, path and operator.  The `Skeleton` of a predicate
is what is left, and its text is that and no more.

* `Piece.chars`, `toList_text`       the text of a predicate, piece by piece;
* `Predicate.skeleton`               a constant, or an operator with a path;
* `Path.Plain`                       no step has a blank, a dot or a parenthesis;
* `Predicate.text_eq_of_skeleton`    equal skeletons have equal texts;
* `Skeleton.chars_append_inj`        on plain paths, the clause at the head of any text tells the
                                     skeleton and where the clause ends.
-/

namespace HqlWhere

/-! ## texts piece by piece -/

/-- The characters of a part of a template. -/
def Piece.chars (path : Path) : Piece → List Char
  | .text t => t.toList
  | .path => path.dotted.toList
  | .placeholder => ':' :: path.parameter.toList

theorem Fragment.toList_sql_piece (path : Path) (f : Fragment) (p : Piece) :
    (f.piece path p).sql.toList = f.sql.toList ++ p.chars path := by
  cases p <;> simp [Fragment.piece, Fragment.text, Fragment.bind, Piece.chars]

theorem Fragment.toList_sql_pieces (path : Path) (pieces : List Piece) (f : Fragment) :
    (pieces.foldl (Fragment.piece path) f).sql.toList
      = f.sql.toList ++ pieces.flatMap (Piece.chars path) := by
  induction pieces generalizing f with
  | nil => simp
  | cons p pieces ih =>
    rw [List.foldl_cons, ih, Fragment.toList_sql_piece, List.flatMap_cons, List.append_assoc]

theorem Predicate.toList_text (p : Predicate) :
    p.text.toList = p.template.flatMap (Piece.chars p.path) := by
  unfold Predicate.text Predicate.render
  rw [Fragment.toList_sql_pieces]
  rfl

/-! ## skeletons -/

/-- What the clause of a predicate shows. -/
inductive Skeleton
  | always
  | never
  | test (operator : Operator) (path : Path)
deriving DecidableEq

/-- TRUE and exclusion from nothing always hold, FALSE and membership in nothing never do; all else
is told by its operator and its path. -/
def Predicate.skeleton (p : Predicate) : Skeleton :=
  match p.operator, p.values with
  | .always, _ | .notIn, [] => .always
  | .never, _ | .isIn, [] => .never
  | operator, _ => .test operator p.path

/-- The operators that no constant stands for. -/
def Operator.IsTest (op : Operator) : Prop := op ≠ .always ∧ op ≠ .never

/-- What stands behind the path in the clause of a test. -/
def Operator.behindPath (op : Operator) (path : Path) : List Char :=
  (op.template true).tail.flatMap (Piece.chars path)

/-- The characters of a skeleton's clause. -/
def Skeleton.chars : Skeleton → List Char
  | always => trueClause.toList
  | never => falseClause.toList
  | test op path => path.dotted.toList ++ op.behindPath path

theorem Predicate.toList_text_skeleton (p : Predicate) : p.text.toList = p.skeleton.chars := by
  rw [p.toList_text]
  obtain ⟨path, op, values⟩ := p
  cases op <;> cases values <;> rfl

/-- Equal skeletons have equal texts. -/
theorem Predicate.text_eq_of_skeleton {p q : Predicate} (h : p.skeleton = q.skeleton) :
    p.text = q.text := by
  rw [← String.toList_inj, p.toList_text_skeleton, q.toList_text_skeleton, h]

/-! ## words -/

/-- Whether a character may stand in a word: it is no blank and no parenthesis. -/
def isWordChar (c : Char) : Bool := c != ' ' && c != '(' && c != ')'

/-- a text tells its first word and what stands behind it -/
theorem word_append_inj {w₁ w₂ r₁ r₂ : List Char} {c₁ c₂ : Char} (hw₁ : ∀ c ∈ w₁, isWordChar c)
    (hw₂ : ∀ c ∈ w₂, isWordChar c) (h₁ : isWordChar c₁ = false) (h₂ : isWordChar c₂ = false)
    (h : w₁ ++ c₁ :: r₁ = w₂ ++ c₂ :: r₂) : w₁ = w₂ ∧ c₁ = c₂ ∧ r₁ = r₂ := by
  induction w₁ generalizing w₂ with
  | nil =>
    cases w₂ with
    | nil => exact ⟨rfl, List.cons.inj h⟩
    | cons a w₂ =>
      obtain ⟨rfl, _⟩ := List.cons.inj h
      simp [hw₂ c₁ List.mem_cons_self] at h₁
  | cons a w₁ ih =>
    cases w₂ with
    | nil =>
      obtain ⟨rfl, _⟩ := List.cons.inj h
      simp [hw₁ a List.mem_cons_self] at h₂
    | cons b w₂ =>
      obtain ⟨rfl, tails⟩ := List.cons.inj h
      obtain ⟨rfl, rest⟩ := ih (fun c hc => hw₁ c (List.mem_cons_of_mem _ hc))
        (fun c hc => hw₂ c (List.mem_cons_of_mem _ hc)) tails
      exact ⟨rfl, rest⟩

/-! ## plain paths -/

namespace Path

/-- No step has a blank, a dot or a parenthesis. -/
def Plain (p : Path) : Prop := ∀ s ∈ p.steps, ∀ c ∈ s.toList, c ∉ [' ', '.', '(', ')']

instance (p : Path) : Decidable p.Plain :=
  decidable_of_iff
    (p.steps.all fun s => s.toList.all fun c => !([' ', '.', '(', ')'].contains c))
    (by simp only [Plain, List.all_eq_true, Bool.not_eq_true', List.contains_eq_mem,
      decide_eq_false_iff_not])

theorem toList_dotted (p : Path) :
    p.dotted.toList = ['.'].intercalate (p.steps.map String.toList) := by
  rw [dotted, String.toList_intercalate]
  rfl

theorem mem_intercalate {x c : Char} {pieces : List (List Char)} (h : c ∈ [x].intercalate pieces) :
    c = x ∨ ∃ s ∈ pieces, c ∈ s := by
  induction pieces with
  | nil => simp at h
  | cons s pieces ih =>
    cases pieces with
    | nil => exact .inr ⟨s, List.mem_cons_self, by simpa using h⟩
    | cons t pieces =>
      rw [List.intercalate_cons_cons, List.mem_append, List.mem_append, List.mem_singleton] at h
      rcases h with (first | rfl) | later
      · exact .inr ⟨s, List.mem_cons_self, first⟩
      · exact .inl rfl
      · rcases ih later with rfl | ⟨u, hu, hc⟩
        · exact .inl rfl
        · exact .inr ⟨u, List.mem_cons_of_mem _ hu, hc⟩

theorem isWordChar_of_mem_dotted {p : Path} (h : p.Plain) :
    ∀ c ∈ p.dotted.toList, isWordChar c := by
  intro c hc
  rw [toList_dotted] at hc
  rcases mem_intercalate hc with rfl | ⟨l, hl, hcl⟩
  · rfl
  · obtain ⟨s, hs, rfl⟩ := List.mem_map.mp hl
    have other := h s hs c hcl
    simp_all [isWordChar]

/-- Paths without the character `x` are told by their steps with `x` between. -/
theorem eq_of_joined_eq {p q : Path} {x : Char} (hp : ∀ s ∈ p.steps, x ∉ s.toList)
    (hq : ∀ s ∈ q.steps, x ∉ s.toList)
    (h : [x].intercalate (p.steps.map String.toList)
      = [x].intercalate (q.steps.map String.toList)) : p = q := by
  have split : ∀ r : Path, (∀ s ∈ r.steps, x ∉ s.toList) →
      ([x].intercalate (r.steps.map String.toList)).splitOn x = r.steps.map String.toList := by
    intro r hr
    rw [List.splitOn_intercalate]
    · intro l hl
      obtain ⟨s, hs, rfl⟩ := List.mem_map.mp hl
      exact hr s hs
    · simpa using r.ne_nil
  have steps : p.steps.map String.toList = q.steps.map String.toList := by
    rw [← split p hp, h, split q hq]
  have steps := (List.map_inj_right fun _ _ => String.toList_inj.mp).mp steps
  cases p
  cases q
  cases steps
  rfl

/-- Plain paths are told by their dotted texts. -/
theorem eq_of_dotted_eq {p q : Path} (hp : p.Plain) (hq : q.Plain)
    (h : p.dotted.toList = q.dotted.toList) : p = q := by
  rw [toList_dotted, toList_dotted] at h
  exact eq_of_joined_eq (fun s hs dot => hp s hs '.' dot (by decide))
    (fun s hs dot => hq s hs '.' dot (by decide)) h

end Path

/-! ## the text of a test at the head of a text -/

/-- behind the path stands a blank and then no parenthesis -/
theorem Operator.behindPath_eq {op : Operator} (h : op.IsTest) (path : Path) :
    ∃ c r, op.behindPath path = ' ' :: c :: r ∧ c ≠ '(' := by
  obtain ⟨notAlways, notNever⟩ := h
  cases op with
  | always => exact absurd rfl notAlways
  | never => exact absurd rfl notNever
  | _ => exact ⟨_, _, rfl, by decide⟩

/-- what stands behind one path tells the operator and where the clause ends -/
theorem Operator.behindPath_append_inj {op₁ op₂ : Operator} (h₁ : op₁.IsTest) (h₂ : op₂.IsTest)
    {path : Path} {s₁ s₂ : List Char}
    (h : op₁.behindPath path ++ s₁ = op₂.behindPath path ++ s₂) : op₁ = op₂ ∧ s₁ = s₂ := by
  by_cases same : op₁ = op₂
  · subst same
    exact ⟨rfl, List.append_cancel_left h⟩
  · exfalso
    cases op₁ <;> cases op₂ <;>
      simp_all [behindPath, template, Piece.chars, IsTest]

/-- A skeleton that its text tells: of a test, no constant stands for the operator and the path is
plain. -/
def Skeleton.Readable : Skeleton → Prop
  | always | never => True
  | test op path => op.IsTest ∧ path.Plain

theorem Predicate.readable_skeleton {p : Predicate} (h : p.path.Plain) : p.skeleton.Readable := by
  obtain ⟨path, op, values⟩ := p
  cases op <;> cases values <;>
    first
    | exact trivial
    | exact ⟨by simp [Operator.IsTest], h⟩

/-- the clause of a test opens with a word and a blank, behind which stands no parenthesis -/
theorem Skeleton.chars_test {op : Operator} (h : op.IsTest) (path : Path) (s : List Char) :
    ∃ c r, (test op path).chars ++ s = path.dotted.toList ++ ' ' :: c :: r ∧ c ≠ '(' := by
  obtain ⟨c, r, behind, hc⟩ := op.behindPath_eq h path
  refine ⟨c, r ++ s, ?_, hc⟩
  rw [chars, behind, List.append_assoc, List.cons_append, List.cons_append]

/-- a constant opens with a parenthesis and a test with a word -/
theorem Skeleton.paren_ne_test {op : Operator} {path : Path} (h : (test op path).Readable)
    (r s : List Char) : '(' :: r ≠ (test op path).chars ++ s := by
  intro eq
  obtain ⟨c, r', opening, _⟩ := chars_test h.1 path s
  have words : [] ++ '(' :: r = path.dotted.toList ++ ' ' :: c :: r' := eq.trans opening
  have paren : '(' = ' ' :=
    (word_append_inj (by simp) (Path.isWordChar_of_mem_dotted h.2) rfl rfl words).2.1
  exact absurd paren (by decide)

/-- **The clause of a predicate can be read.**  Whatever stands behind it, it tells the skeleton and
where it ends. -/
theorem Skeleton.chars_append_inj {k₁ k₂ : Skeleton} (h₁ : k₁.Readable) (h₂ : k₂.Readable)
    {s₁ s₂ : List Char} (h : k₁.chars ++ s₁ = k₂.chars ++ s₂) : k₁ = k₂ ∧ s₁ = s₂ := by
  cases k₁ with
  | always =>
    cases k₂ with
    | always => exact ⟨rfl, List.append_cancel_left h⟩
    | never => simp [chars, trueClause, falseClause] at h
    | test op path => exact absurd h (paren_ne_test h₂ _ _)
  | never =>
    cases k₂ with
    | always => simp [chars, trueClause, falseClause] at h
    | never => exact ⟨rfl, List.append_cancel_left h⟩
    | test op path => exact absurd h (paren_ne_test h₂ _ _)
  | test op₁ path₁ =>
    cases k₂ with
    | always => exact absurd h.symm (paren_ne_test h₁ _ _)
    | never => exact absurd h.symm (paren_ne_test h₁ _ _)
    | test op₂ path₂ =>
      -- The paths are the first words; behind one and the same path the operators differ.
      obtain ⟨c₁, r₁, opening₁, _⟩ := chars_test h₁.1 path₁ s₁
      obtain ⟨c₂, r₂, opening₂, _⟩ := chars_test h₂.1 path₂ s₂
      have words := word_append_inj (Path.isWordChar_of_mem_dotted h₁.2)
        (Path.isWordChar_of_mem_dotted h₂.2) rfl rfl (opening₁ ▸ opening₂ ▸ h)
      obtain rfl := Path.eq_of_dotted_eq h₁.2 h₂.2 words.1
      rw [chars, chars, List.append_assoc, List.append_assoc] at h
      obtain ⟨rfl, rest⟩ := Operator.behindPath_append_inj h₁.1 h₂.1 (List.append_cancel_left h)
      exact ⟨rfl, rest⟩

end HqlWhere

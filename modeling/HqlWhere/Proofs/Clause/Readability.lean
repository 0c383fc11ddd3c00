import HqlWhere.Proofs.Clause.Compilation
import HqlWhere.Proofs.Clause.Skeleton
import HqlWhere.Proofs.Expr.Leafwise

/-!
# Clauses can be read

A clause tells the tree that it was compiled from, up to what no clause shows: the two trees of equal
clauses have AND, OR and NOT in the same places and leaves of equal skeletons.  No grouping, no order
of operands, no operator and no path is lost, whatever the steps are named, as long as they are plain.

The texts are prefix-free: `Expr.text_append_inj` reads a tree off the head of ANY text, so that the
right part of a node, its bracket and all that stands behind it play no part while its left part is
read.  What comes first decides the kind of a node:

* a parenthesis opens AND and OR, which go on with a word and a blank or with a parenthesis, and also
  the constants, whose word is followed by the closing parenthesis;
* a word opens NOT, with a parenthesis behind its blank, and the tests, with none there.
-/

namespace HqlWhere

namespace Expr

/-- Every path is plain. -/
def Plain (e : Expr) : Prop := ∀ p ∈ e.leaves, p.path.Plain

theorem Plain.left {l r : Expr} (h : (and l r).Plain) : l.Plain :=
  fun p hp => h p (List.mem_append_left _ hp)

theorem Plain.right {l r : Expr} (h : (and l r).Plain) : r.Plain :=
  fun p hp => h p (List.mem_append_right _ hp)

theorem Plain.readable {p : Predicate} (h : (leaf p).Plain) : p.skeleton.Readable :=
  Predicate.readable_skeleton (h p List.mem_cons_self)

/-! ## the text of each kind of node, in front of any text -/

theorem toList_leaf (p : Predicate) (s : List Char) :
    (leaf p).text.toList ++ s = p.skeleton.chars ++ s := by
  rw [text, p.toList_text_skeleton]

theorem toList_and (l r : Expr) (s : List Char) :
    (and l r).text.toList ++ s
      = '(' :: (l.text.toList ++ ' ' :: 'A' :: 'N' :: 'D' :: ' ' :: (r.text.toList ++ ')' :: s)) := by
  simp [text]

theorem toList_or (l r : Expr) (s : List Char) :
    (or l r).text.toList ++ s
      = '(' :: (l.text.toList ++ ' ' :: 'O' :: 'R' :: ' ' :: (r.text.toList ++ ')' :: s)) := by
  simp [text]

theorem toList_not (e : Expr) (s : List Char) :
    (not e).text.toList ++ s = ['N', 'O', 'T'] ++ ' ' :: '(' :: (e.text.toList ++ ')' :: s) := by
  simp [text]

/-! ## what opens a node -/

/-- A tree opens with a word and a blank, or with a parenthesis. -/
theorem opening {e : Expr} (h : e.Plain) (s : List Char) :
    ∃ w c r, e.text.toList ++ s = w ++ c :: r ∧ (∀ x ∈ w, isWordChar x) ∧ (c = ' ' ∨ c = '(') := by
  cases e with
  | leaf p =>
    have readable := h.readable
    rw [toList_leaf]
    cases skeleton : p.skeleton with
    | always => exact ⟨[], '(', _, rfl, by simp, .inr rfl⟩
    | never => exact ⟨[], '(', _, rfl, by simp, .inr rfl⟩
    | test op path =>
      rw [skeleton] at readable
      obtain ⟨c, r, eq, _⟩ := Skeleton.chars_test readable.1 path s
      exact ⟨_, _, _, eq, Path.isWordChar_of_mem_dotted readable.2, .inl rfl⟩
  | and l r => exact ⟨[], '(', _, toList_and l r s, by simp, .inr rfl⟩
  | or l r => exact ⟨[], '(', _, toList_or l r s, by simp, .inr rfl⟩
  | not e => exact ⟨_, _, _, toList_not e s, List.all_eq_true.mp rfl, .inl rfl⟩

/-- no tree opens like a constant behind its parenthesis -/
theorem text_append_ne_word {e : Expr} (h : e.Plain) (s : List Char) {w : List Char}
    (hw : ∀ x ∈ w, isWordChar x) (r : List Char) : w ++ ')' :: r ≠ e.text.toList ++ s := by
  intro eq
  obtain ⟨w', c, r', opens, hw', hc⟩ := opening h s
  have stop : isWordChar c = false := by rcases hc with rfl | rfl <;> rfl
  have closes : ')' = c := (word_append_inj hw hw' rfl stop (eq.trans opens)).2.1
  rcases hc with rfl | rfl <;> exact absurd closes (by decide)

theorem leaf_ne_pair {k : Skeleton} (hk : k.Readable) {l : Expr} (hl : l.Plain)
    (s t : List Char) : k.chars ++ s ≠ '(' :: (l.text.toList ++ t) := by
  intro eq
  cases k with
  | always =>
    have word : ∀ x ∈ "true".toList, isWordChar x := List.all_eq_true.mp rfl
    exact text_append_ne_word hl t word s (List.cons.inj eq).2
  | never =>
    have word : ∀ x ∈ "false".toList, isWordChar x := List.all_eq_true.mp rfl
    exact text_append_ne_word hl t word s (List.cons.inj eq).2
  | test op path => exact Skeleton.paren_ne_test hk _ _ eq.symm

theorem leaf_ne_not {k : Skeleton} (hk : k.Readable) (s t : List Char) :
    k.chars ++ s ≠ ['N', 'O', 'T'] ++ ' ' :: '(' :: t := by
  intro eq
  cases k with
  | always => exact absurd (List.cons.inj eq).1 (by decide)
  | never => exact absurd (List.cons.inj eq).1 (by decide)
  | test op path =>
    obtain ⟨c, r, opens, hc⟩ := Skeleton.chars_test hk.1 path s
    have behind := (word_append_inj (Path.isWordChar_of_mem_dotted hk.2)
      (List.all_eq_true.mp rfl) rfl rfl (opens.symm.trans eq)).2.2
    exact hc (List.cons.inj behind).1

/-! ## reading -/

/-- The trees of equal texts: one shape, and leaves of equal skeletons. -/
abbrev Alike : Expr → Expr → Prop := Leafwise fun p q => p.skeleton = q.skeleton

/-- **A tree can be read off the head of any text.**  Its text tells the tree, up to what no clause
shows, and where the text ends. -/
theorem text_append_inj {e₁ e₂ : Expr} (h₁ : e₁.Plain) (h₂ : e₂.Plain) {s₁ s₂ : List Char}
    (h : e₁.text.toList ++ s₁ = e₂.text.toList ++ s₂) : e₁.Alike e₂ ∧ s₁ = s₂ := by
  induction e₁ generalizing e₂ s₁ s₂ with
  | leaf p =>
    rw [toList_leaf] at h
    cases e₂ with
    | leaf q =>
      rw [toList_leaf] at h
      obtain ⟨same, rest⟩ := Skeleton.chars_append_inj h₁.readable h₂.readable h
      exact ⟨.leaf same, rest⟩
    | and l r => exact absurd (h.trans (toList_and l r s₂)) (leaf_ne_pair h₁.readable h₂.left _ _)
    | or l r => exact absurd (h.trans (toList_or l r s₂)) (leaf_ne_pair h₁.readable h₂.left _ _)
    | not e => exact absurd (h.trans (toList_not e s₂)) (leaf_ne_not h₁.readable _ _)
  | and l₁ r₁ ihl ihr =>
    rw [toList_and] at h
    cases e₂ with
    | leaf q =>
      rw [toList_leaf] at h
      exact absurd h.symm (leaf_ne_pair h₂.readable h₁.left _ _)
    | and l₂ r₂ =>
      rw [toList_and] at h
      obtain ⟨left, behind⟩ := ihl h₁.left h₂.left (List.cons.inj h).2
      obtain ⟨right, close⟩ := ihr h₁.right h₂.right (by simpa using behind)
      exact ⟨.and left right, (List.cons.inj close).2⟩
    | or l₂ r₂ =>
      rw [toList_or] at h
      -- The left parts are read alike, and the joiners behind them differ.
      obtain ⟨_, behind⟩ := ihl h₁.left h₂.left (List.cons.inj h).2
      simp at behind
    | not e =>
      rw [toList_not] at h
      exact absurd (List.cons.inj h).1 (by decide)
  | or l₁ r₁ ihl ihr =>
    rw [toList_or] at h
    cases e₂ with
    | leaf q =>
      rw [toList_leaf] at h
      exact absurd h.symm (leaf_ne_pair h₂.readable h₁.left _ _)
    | and l₂ r₂ =>
      rw [toList_and] at h
      obtain ⟨_, behind⟩ := ihl h₁.left h₂.left (List.cons.inj h).2
      simp at behind
    | or l₂ r₂ =>
      rw [toList_or] at h
      obtain ⟨left, behind⟩ := ihl h₁.left h₂.left (List.cons.inj h).2
      obtain ⟨right, close⟩ := ihr h₁.right h₂.right (by simpa using behind)
      exact ⟨.or left right, (List.cons.inj close).2⟩
    | not e =>
      rw [toList_not] at h
      exact absurd (List.cons.inj h).1 (by decide)
  | not e ih =>
    rw [toList_not] at h
    cases e₂ with
    | leaf q =>
      rw [toList_leaf] at h
      exact absurd h.symm (leaf_ne_not h₂.readable _ _)
    | and l r =>
      rw [toList_and] at h
      exact absurd (List.cons.inj h).1 (by decide)
    | or l r =>
      rw [toList_or] at h
      exact absurd (List.cons.inj h).1 (by decide)
    | not e' =>
      rw [toList_not] at h
      have plain : e'.Plain := h₂
      obtain ⟨inner, close⟩ := ih h₁ plain (by simpa using h)
      exact ⟨.not inner, (List.cons.inj close).2⟩

/-- Alike trees have equal texts. -/
theorem text_eq_of_alike {e₁ e₂ : Expr} (h : e₁.Alike e₂) : e₁.text = e₂.text := by
  induction h with
  | leaf same => exact Predicate.text_eq_of_skeleton same
  | and _ _ ihl ihr => rw [text, text, ihl, ihr]
  | or _ _ ihl ihr => rw [text, text, ihl, ihr]
  | not _ ih => rw [text, text, ih]

theorem text_eq_iff {e₁ e₂ : Expr} (h₁ : e₁.Plain) (h₂ : e₂.Plain) :
    e₁.text = e₂.text ↔ e₁.Alike e₂ := by
  constructor
  · intro same
    exact (text_append_inj h₁ h₂ (congrArg (String.toList · ++ []) same)).1
  · exact text_eq_of_alike

end Expr

/-! ## lists -/

/-- The predicates behind the first can be read one after the other. -/
theorem joinedText_inj {ps qs : List Predicate} (hp : ∀ p ∈ ps, p.path.Plain)
    (hq : ∀ q ∈ qs, q.path.Plain) (h : (joinedText ps).toList = (joinedText qs).toList) :
    ps.map Predicate.skeleton = qs.map Predicate.skeleton := by
  induction ps generalizing qs with
  | nil =>
    cases qs with
    | nil => rfl
    | cons q qs => simp [joinedText] at h
  | cons p ps ih =>
    cases qs with
    | nil => simp [joinedText] at h
    | cons q qs =>
      simp only [joinedText, String.toList_append, List.append_assoc, List.append_cancel_left_eq,
        Predicate.toList_text_skeleton] at h
      obtain ⟨same, rest⟩ := Skeleton.chars_append_inj
        (Predicate.readable_skeleton (hp p List.mem_cons_self))
        (Predicate.readable_skeleton (hq q List.mem_cons_self)) h
      rw [List.map_cons, List.map_cons, same, ih (fun p hp' => hp p (List.mem_cons_of_mem _ hp'))
        (fun q hq' => hq q (List.mem_cons_of_mem _ hq')) rest]

theorem joinedText_eq_of_skeletons {ps qs : List Predicate}
    (h : ps.map Predicate.skeleton = qs.map Predicate.skeleton) :
    joinedText ps = joinedText qs := by
  induction ps generalizing qs with
  | nil => rw [List.map_eq_nil_iff.mp h.symm]
  | cons p ps ih =>
    cases qs with
    | nil => simp at h
    | cons q qs =>
      obtain ⟨same, rest⟩ := List.cons.inj h
      rw [joinedText, joinedText, Predicate.text_eq_of_skeleton same, ih rest]

/-- A list of two or more is read as the tests behind `" AND "`, and so is the first. -/
theorem textOfAll_eq_iff {ps qs : List Predicate} (hp : ∀ p ∈ ps, p.path.Plain)
    (hq : ∀ q ∈ qs, q.path.Plain) :
    textOfAll ps = textOfAll qs ↔ ps.map Predicate.skeleton = qs.map Predicate.skeleton := by
  cases ps with
  | nil =>
    cases qs with
    | nil => simp
    | cons q qs => simp [textOfAll, introducer]
  | cons p ps =>
    cases qs with
    | nil => simp [textOfAll, introducer]
    | cons q qs =>
      have joined : textOfAll (p :: ps) = textOfAll (q :: qs) ↔
          joinedText (p :: ps) = joinedText (q :: qs) := by
        simp [textOfAll, joinedText, String.append_assoc]
      rw [joined]
      constructor
      · intro same
        exact joinedText_inj hp hq (congrArg String.toList same)
      · exact joinedText_eq_of_skeletons

/-- **Equal clauses come from alike filters.**  Without a depth limit, the clauses of two trees on
plain paths have one text exactly when AND, OR and NOT stand in the same places of the trees and the
leaves have equal skeletons; those of two lists, exactly when the lists have equal skeletons. -/
theorem Settings.sql_eq_iff_alike (s : Settings) (unlimited : s.maxDepth = none) :
    (∀ e₁ e₂ : Expr, e₁.Plain → e₂.Plain → ∃ c₁ c₂,
      (s.compile e₁).1 = .ok c₁ ∧ (s.compile e₂).1 = .ok c₂ ∧ (c₁.sql = c₂.sql ↔ e₁.Alike e₂)) ∧
    ∀ ps qs : List Predicate, (∀ p ∈ ps, p.path.Plain) → (∀ q ∈ qs, q.path.Plain) →
      ((s.compileAll ps).1.sql = (s.compileAll qs).1.sql ↔
        ps.map Predicate.skeleton = qs.map Predicate.skeleton) := by
  have fits : ∀ e : Expr, ∀ n ∈ s.maxDepth, e.depth ≤ n.toNat := by simp [unlimited]
  constructor
  · intro e₁ e₂ h₁ h₂
    refine ⟨e₁.clause, e₂.clause, ?_, ?_, ?_⟩
    · rw [s.compile_of_fits (fits e₁)]
    · rw [s.compile_of_fits (fits e₂)]
    · rw [← Expr.text_eq_iff h₁ h₂]
      simp [Expr.clause]
  · intro ps qs hp hq
    rw [s.compileAll_eq, s.compileAll_eq]
    exact textOfAll_eq_iff hp hq

/-- steps named like the words of a clause: a negation is no test on `NOT`, and two constants on
different paths are one -/
theorem Settings.sql_of_keywords :
    let s : Settings := {}
    let negation : Expr := .not (.leaf ⟨⟨["true"], by decide, by decide⟩, .isNull, []⟩)
    let test : Predicate := ⟨⟨["NOT"], by decide, by decide⟩, .isIn, [.int 1]⟩
    let nothing : Predicate := ⟨⟨["AND", "OR"], by decide, by decide⟩, .isIn, []⟩
    let never : Predicate := ⟨⟨["NOT"], by decide, by decide⟩, .never, [.null]⟩
    s.maxDepth = none ∧ negation.Plain ∧ (Expr.leaf test).Plain ∧
      (∃ c₁ c₂, (s.compile negation).1 = .ok c₁ ∧ (s.compile (.leaf test)).1 = .ok c₂ ∧
        c₁.sql ≠ c₂.sql) ∧
      (∀ p ∈ [test, nothing], p.path.Plain) ∧ (∀ p ∈ [test, never], p.path.Plain) ∧
      (s.compileAll [test, nothing]).1.sql = (s.compileAll [test, never]).1.sql := by
  intro s negation test nothing never
  have plainNot : negation.Plain := by
    unfold Expr.Plain
    decide
  have plainTest : (Expr.leaf test).Plain := by
    unfold Expr.Plain
    decide
  have plainNothing : ∀ p ∈ [test, nothing], p.path.Plain := by
    decide
  have plainNever : ∀ p ∈ [test, never], p.path.Plain := by
    decide
  refine ⟨rfl, plainNot, plainTest, ?_, plainNothing, plainNever, ?_⟩
  · obtain ⟨c₁, c₂, h₁, h₂, same⟩ :=
      (Settings.sql_eq_iff_alike s rfl).1 negation (.leaf test) plainNot plainTest
    refine ⟨c₁, c₂, h₁, h₂, fun eq => ?_⟩
    have alike : (Expr.not (.leaf _)).Alike (.leaf test) := same.mp eq
    cases alike
  · exact ((Settings.sql_eq_iff_alike s rfl).2 _ _ plainNothing plainNever).mpr rfl

end HqlWhere

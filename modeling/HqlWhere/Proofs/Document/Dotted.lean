import HqlWhere.Proofs.Document.Paths

/-!
# Dotted texts and lists of steps

A dotted text and a list of steps are two views of one path.  The steps of a text have no dot in
them, so a path is told by its dotted text only where none of its steps has one; and `[""]` is the
one list of such steps whose text is told otherwise, since the empty text stands for no step.

* `Path.nil_mem_splitDots_iff`   where a text has an empty piece;
* `Path.ofText_eq_error`         the texts that tell no path;
* `Path.dotted_and_steps`        both views, in one statement.
-/

namespace HqlWhere

namespace Path

theorem head_splitDots_eq_nil_iff (s : List Char) :
    (splitDots s).head? = some [] ↔ s = [] ∨ ['.'] <+: s := by
  cases s with
  | nil => exact iff_of_true rfl (.inl rfl)
  | cons c s =>
    rw [splitDots, List.cons_prefix_cons]
    split
    · rename_i dot
      exact iff_of_true rfl (.inr ⟨dot.symm, List.nil_prefix⟩)
    · rename_i other
      refine iff_of_false ?_ ?_
      · split <;> exact fun first => List.cons_ne_nil _ _ (Option.some.inj first)
      · rintro (none | ⟨dot, _⟩)
        · exact List.cons_ne_nil c s none
        · exact other dot.symm

theorem nil_mem_splitDots_of_tail {s : List Char} :
    [] ∈ splitDots s ↔ (splitDots s).head? = some [] ∨ [] ∈ (splitDots s).tail := by
  obtain ⟨piece, pieces, split⟩ := List.exists_cons_of_ne_nil (splitDots_ne_nil s)
  rw [split, List.mem_cons, List.head?_cons, List.tail_cons, Option.some.injEq, eq_comm]

/-- Behind the first piece an empty one ends the text or stands between two dots. -/
theorem nil_mem_tail_splitDots_iff (s : List Char) :
    [] ∈ (splitDots s).tail ↔ ['.'] <:+ s ∨ ['.', '.'] <:+: s := by
  induction s with
  | nil => exact iff_of_false List.not_mem_nil (by simp)
  | cons c s ih =>
    rw [List.suffix_cons_iff, List.infix_cons_iff, List.cons_prefix_cons]
    by_cases dot : c = '.'
    · subst c
      -- the pieces of `s` are those behind the first, and its first piece follows a dot
      have pieces : (splitDots ('.' :: s)).tail = splitDots s := rfl
      rw [pieces, nil_mem_splitDots_of_tail, head_splitDots_eq_nil_iff, ih]
      simp only [List.cons.injEq, true_and, eq_comm]
      tauto
    · have pieces : (splitDots (c :: s)).tail = (splitDots s).tail := by
        obtain ⟨piece, pieces, split⟩ := List.exists_cons_of_ne_nil (splitDots_ne_nil s)
        rw [splitDots, if_neg dot, split]
        rfl
      rw [pieces, ih]
      have front : ¬('.' = c) := fun eq => dot eq.symm
      simp only [List.cons.injEq, front, false_and, false_or]

/-- A text has an empty piece between dots if it is empty, or begins or ends with a dot, or has two
dots in a row. -/
theorem nil_mem_splitDots_iff (s : List Char) :
    [] ∈ splitDots s ↔ s = [] ∨ ['.'] <+: s ∨ ['.'] <:+ s ∨ ['.', '.'] <:+: s := by
  rw [nil_mem_splitDots_of_tail, head_splitDots_eq_nil_iff, nil_mem_tail_splitDots_iff, or_assoc]

theorem ofSteps_eq_error {steps : List String} :
    (∃ f, ofSteps steps = .error f) ↔ steps = [] ∨ "" ∈ steps := by
  unfold ofSteps
  by_cases none : steps = []
  · rw [dif_pos none]
    exact iff_of_true ⟨_, rfl⟩ (.inl none)
  · rw [dif_neg none]
    by_cases empty : "" ∈ steps
    · rw [dif_pos empty]
      exact iff_of_true ⟨_, rfl⟩ (.inr empty)
    · rw [dif_neg empty]
      refine iff_of_false ?_ (not_or.mpr ⟨none, empty⟩)
      rintro ⟨f, refused⟩
      cases refused

theorem empty_mem_map_ofList {pieces : List (List Char)} :
    "" ∈ pieces.map String.ofList ↔ [] ∈ pieces := by
  rw [List.mem_map]
  constructor
  · rintro ⟨piece, mem, empty⟩
    obtain rfl : piece = [] := String.ofList_injective empty
    exact mem
  · exact fun mem => ⟨[], mem, rfl⟩

/-- A text tells no path if it is empty, or begins or ends with a dot, or has two dots in a row. -/
theorem ofText_eq_error {s : String} :
    (∃ f, ofText s = .error f) ↔
      s = "" ∨ ['.'] <+: s.toList ∨ ['.'] <:+ s.toList ∨ ['.', '.'] <:+: s.toList := by
  unfold ofText
  by_cases empty : s = ""
  · rw [if_pos empty]
    exact iff_of_true ⟨_, rfl⟩ (.inl empty)
  · have some : (splitDots s.toList).map String.ofList ≠ [] := by
      simpa using splitDots_ne_nil s.toList
    have nonempty : s.toList ≠ [] := by simpa using empty
    rw [if_neg empty, ofSteps_eq_error, empty_mem_map_ofList, nil_mem_splitDots_iff]
    simp only [some, nonempty, empty, false_or]

/-- Steps without a dot are told by their text, unless there is one and it is empty. -/
theorem ofText_intercalate_eq_ofSteps_iff {steps : List String}
    (whole : ∀ t ∈ steps, '.' ∉ t.toList) :
    ofText (".".intercalate steps) = ofSteps steps ↔ steps ≠ [""] := by
  constructor
  · rintro same rfl
    cases same
  · exact ofText_intercalate whole

/-- **A dotted text and a list of steps are two views of one path.**  A path that a text tells is
shown as that text.  A list of steps without dots and its text are taken for the same path, or
refused for the same fault, unless the list is that of one empty step.  A path is told by its
dotted text if none of its steps has a dot in it, and only then.  The texts that tell no path are
the empty one, those that begin or end with a dot and those with two dots in a row. -/
theorem dotted_and_steps :
    (∀ text p, ofText text = .ok p → p.dotted = text) ∧
    (∀ steps : List String, (∀ t ∈ steps, '.' ∉ t.toList) →
      (ofText (".".intercalate steps) = ofSteps steps ↔ steps ≠ [""])) ∧
    (∀ p : Path, ofText p.dotted = .ok p ↔ ∀ t ∈ p.steps, '.' ∉ t.toList) ∧
    ∀ text, (∃ f, ofText text = .error f) ↔
      text = "" ∨ ['.'] <+: text.toList ∨ ['.'] <:+ text.toList ∨
        ['.', '.'] <:+: text.toList := by
  refine ⟨?_, fun steps => ofText_intercalate_eq_ofSteps_iff, ?_, fun text => ofText_eq_error⟩
  · intro text p told
    cases ofText_eq_ok.mp told with
    | dotted => rfl
  · intro p
    constructor
    · intro told
      generalize shown : p.dotted = text at told
      cases ofText_eq_ok.mp told with
      | dotted whole => exact whole
    · exact ofText_dotted

/-- An empty step in the middle is the same fault in both views, and `[""]` is the exception. -/
theorem dotted_of_gap :
    author.dotted = "author.name" ∧ ofText "author..name" = ofSteps ["author", "", "name"] ∧
      ofText "" ≠ ofSteps [""] := by
  obtain ⟨shown, listed, _, _⟩ := dotted_and_steps
  refine ⟨shown "author.name" author (by decide +kernel),
    (listed ["author", "", "name"] (by decide)).mpr (by decide), ?_⟩
  exact fun same => (listed [""] (by decide)).mp same rfl

end Path

end HqlWhere

import HqlWhere.Proofs.Clause.Placeholders
import HqlWhere.Proofs.Document.Origins
import HqlWhere.Proofs.Document.Spelling
import Mathlib.Algebra.GroupWithZero.Nat

/-!
# No route makes a path without a step or with an empty one

A path is made of its steps, of a dotted text or of a JSON value, and the paths in documents are
made of JSON values that stand there.  Each route takes exactly the paths as they are told by it,
and refuses everything else.

* `Path.ofSteps_eq_ok`, `Path.ofText_eq_ok`, `Path.ofJson_eq_ok`   what each route takes;
* `Path.StandsIn`         a path was made of a value in a document, and so is each path in
                          predicates, lists and trees;
* `Path.Sound`            what the texts of a path are then like;
* `Path.sound_on_every_route`   the routes and what they give, in one statement.
-/

namespace HqlWhere

open Json

/-! ## pieces with a character between them -/

/-- the weight of joined pieces knows the character between them by its weight only -/
theorem sum_intercalate (weight : Char → Nat) {x y : Char} (same : weight x = weight y)
    (pieces : List (List Char)) :
    (([x].intercalate pieces).map weight).sum = (([y].intercalate pieces).map weight).sum := by
  induction pieces with
  | nil => rfl
  | cons s pieces ih =>
    cases pieces with
    | nil => rw [List.intercalate_singleton, List.intercalate_singleton]
    | cons t pieces =>
      rw [List.intercalate_cons_cons, List.intercalate_cons_cons]
      simp only [List.map_append, List.sum_append, List.map_cons, List.map_nil, List.sum_cons,
        List.sum_nil, same, ih]

theorem getLast_suffix_intercalate (x : Char) {pieces : List (List Char)} (some : pieces ≠ []) :
    pieces.getLast some <:+ [x].intercalate pieces := by
  induction pieces with
  | nil => exact absurd rfl some
  | cons s pieces ih =>
    cases pieces with
    | nil =>
      simp only [List.intercalate_singleton, List.getLast_singleton, List.suffix_rfl]
    | cons t pieces =>
      rw [List.intercalate_cons_cons, List.getLast_cons (List.cons_ne_nil t pieces)]
      exact (ih (List.cons_ne_nil t pieces)).trans (List.suffix_append _ _)

namespace Path

theorem intercalate_splitDots (s : List Char) : ['.'].intercalate (splitDots s) = s := by
  induction s with
  | nil => rfl
  | cons c s ih =>
    obtain ⟨piece, pieces, split⟩ := List.exists_cons_of_ne_nil (splitDots_ne_nil s)
    rw [split] at ih
    rw [splitDots, split]
    split
    · subst c
      rw [List.intercalate_cons_cons, ih]
      rfl
    · cases pieces with
      | nil =>
        rw [List.intercalate_singleton] at ih ⊢
        rw [ih]
      | cons t pieces =>
        rw [List.intercalate_cons_cons] at ih ⊢
        rw [← ih]
        rfl

theorem dot_not_mem_splitDots {s piece : List Char} (h : piece ∈ splitDots s) : '.' ∉ piece := by
  induction s generalizing piece with
  | nil =>
    obtain rfl := List.mem_singleton.mp h
    exact List.not_mem_nil
  | cons c s ih =>
    obtain ⟨first, pieces, split⟩ := List.exists_cons_of_ne_nil (splitDots_ne_nil s)
    rw [splitDots, split] at h
    rw [split] at ih
    split at h
    · rcases List.mem_cons.mp h with rfl | later
      · exact List.not_mem_nil
      · exact ih later
    · rename_i other
      rcases List.mem_cons.mp h with rfl | later
      · have rest : '.' ∉ first := ih List.mem_cons_self
        exact List.not_mem_cons_of_ne_of_not_mem (fun eq => other eq.symm) rest
      · exact ih (List.mem_cons_of_mem first later)

/-! ## what each route takes -/

theorem ofSteps_eq_ok {steps : List String} {p : Path} :
    ofSteps steps = .ok p ↔ p.steps = steps := by
  constructor
  · intro h
    unfold ofSteps at h
    split at h
    · cases h
    · split at h
      · cases h
      · obtain rfl := Except.ok.inj h
        rfl
  · rintro rfl
    exact p.ofSteps_steps

theorem ofSteps_eq_noStep {steps : List String} : ofSteps steps = .error .noStep ↔ steps = [] := by
  constructor
  · intro h
    unfold ofSteps at h
    split at h
    · assumption
    · split at h <;> cases h
  · rintro rfl
    rfl

theorem idxOf_eq_iff {steps : List String} (mem : "" ∈ steps) {i : Nat} :
    steps.idxOf "" = i ↔ steps[i]? = some "" ∧ ∀ j < i, steps[j]? ≠ some "" := by
  have found : steps[steps.idxOf ""]? = some "" := List.getElem?_idxOf mem
  have before : ∀ j < steps.idxOf "", steps[j]? ≠ some "" := by
    intro j below here
    have other := List.not_of_lt_findIdx below
    obtain ⟨inside, empty⟩ := List.getElem?_eq_some_iff.mp here
    rw [empty] at other
    cases other
  constructor
  · rintro rfl
    exact ⟨found, before⟩
  · rintro ⟨here, first⟩
    rcases Nat.lt_trichotomy (steps.idxOf "") i with below | same | above
    · exact absurd found (first _ below)
    · exact same
    · exact absurd here (before i above)

/-- the index is that of the first empty step -/
theorem ofSteps_eq_emptyStep {steps : List String} {i : Nat} :
    ofSteps steps = .error (.emptyStep i) ↔
      steps[i]? = some "" ∧ ∀ j < i, steps[j]? ≠ some "" := by
  constructor
  · intro h
    unfold ofSteps at h
    split at h
    · cases h
    · split at h
      · obtain rfl := Fault.emptyStep.inj (Except.error.inj h)
        exact (idxOf_eq_iff ‹_›).mp rfl
      · cases h
  · intro h
    have mem : "" ∈ steps := List.mem_of_getElem? h.1
    unfold ofSteps
    rw [dif_neg (List.ne_nil_of_mem mem), dif_pos mem, (idxOf_eq_iff mem).mpr h]

/-- A dotted text tells the path that is shown so, if no step has a dot in it. -/
theorem ofText_eq_ok {s : String} {p : Path} :
    ofText s = .ok p ↔ p.SpelledBy (.dotted s) := by
  constructor
  · intro h
    unfold ofText at h
    split at h
    · cases h
    · have steps := ofSteps_eq_ok.mp h
      have pieces : p.steps.map String.toList = splitDots s.toList := by
        rw [steps, List.map_map]
        exact List.map_id'' (fun t => String.toList_ofList) _
      have dotted : p.dotted = s := by
        rw [← String.toList_inj, toList_dotted, pieces, intercalate_splitDots]
      rw [← dotted]
      refine .dotted fun t ht => ?_
      apply dot_not_mem_splitDots (s := s.toList)
      rw [← pieces]
      exact List.mem_map_of_mem ht
  · intro h
    exact h.path_eq

theorem path_eq_ok {raw : RawPath} {p : Path} : raw.path = .ok p ↔ p.SpelledBy raw := by
  constructor
  · intro h
    cases raw with
    | steps l =>
      obtain rfl := ofSteps_eq_ok.mp h
      exact .steps
    | dotted s => exact ofText_eq_ok.mp h
  · intro h
    exact h.path_eq

theorem eq_of_texts? {items : List Json} {steps : List String} (h : texts? items = some steps) :
    items = steps.map .string := by
  induction items generalizing steps with
  | nil =>
    obtain rfl := Option.some.inj h
    rfl
  | cons j items ih =>
    cases j with
    | string s =>
      obtain ⟨rest, found, rfl⟩ := Option.map_eq_some_iff.mp h
      rw [List.map_cons, ← ih found]
    | _ => cases h

/-- A JSON value tells a path in either form and nothing else. -/
theorem ofJson_eq_ok {j : Json} {p : Path} :
    ofJson j = .ok p ↔ ∃ raw : RawPath, j = raw.toJson ∧ p.SpelledBy raw := by
  constructor
  · intro h
    unfold ofJson at h
    split at h
    · split at h
      · rename_i items steps texts
        rw [eq_of_texts? texts]
        exact ⟨.steps steps, rfl, path_eq_ok.mp (mapError_eq_ok.mp h)⟩
      · cases h
    · rename_i s
      exact ⟨.dotted s, rfl, path_eq_ok.mp (mapError_eq_ok.mp h)⟩
    · cases h
  · rintro ⟨raw, rfl, told⟩
    rw [raw.ofJson_toJson, told.path_eq]
    rfl

/-- In the text stands a value that tells the path. -/
def StandsIn (p : Path) (s : List Char) : Prop :=
  ∃ t raw budget r, t <:+ s ∧ readValue budget t = .ok (raw.toJson, r) ∧ p.SpelledBy raw

theorem standsIn_of_read {budget : Nat} {s t r : List Char} {p : Path} (behind : t <:+ s)
    (h : read budget t = .ok (p, r)) : p.StandsIn s := by
  obtain ⟨⟨j, u⟩, value, h⟩ := bind_eq_ok.mp h
  obtain ⟨p, told, h⟩ := bind_eq_ok.mp h
  obtain ⟨rfl, rfl⟩ := Prod.mk.inj (Except.ok.inj h)
  obtain ⟨raw, rfl, spelled⟩ := ofJson_eq_ok.mp (mapError_eq_ok.mp told)
  exact ⟨t, raw, budget, u, behind, value, spelled⟩

end Path

theorem Predicate.Parts.standsIn {inside : Nat} {s : List Char} {p : Predicate}
    (h : p.Parts inside s) : p.path.StandsIn s := by
  obtain ⟨⟨t, r, behind, read⟩, _⟩ := h
  exact Path.standsIn_of_read behind read

/-- The path comes out of one of the decoders, by itself or inside something else. -/
inductive Path.DecodedFrom (text : String) : Path → Prop
  | path {p : Path} (h : readAll (Path.read nesting) text.toList = .ok p) : DecodedFrom text p
  | predicate {p : Predicate} (h : readAll (Predicate.read nesting) text.toList = .ok p) :
      DecodedFrom text p.path
  | list {ps : List Predicate} {p : Predicate} (h : Predicate.parseList text = .ok ps)
      (mem : p ∈ ps) : DecodedFrom text p.path
  | tree {e : Expr} {p : Predicate} (h : Expr.parse text = .ok e) (mem : p ∈ e.leaves) :
      DecodedFrom text p.path

/-- **A path that is decoded stands in the document**, in one of its two forms. -/
theorem Path.DecodedFrom.standsIn {text : String} {p : Path} (h : p.DecodedFrom text) :
    p.StandsIn text.toList := by
  cases h with
  | path h =>
    obtain ⟨r, found, _⟩ := readAll_eq_ok.mp h
    exact standsIn_of_read List.suffix_rfl found
  | predicate h =>
    obtain ⟨r, found, _⟩ := readAll_eq_ok.mp h
    obtain ⟨_, inside, _, parts⟩ := Predicate.parts_of_read found
    exact parts.standsIn
  | list h mem =>
    obtain ⟨inside, parts⟩ := Predicate.parts_of_parseList h _ mem
    exact parts.standsIn
  | tree h mem =>
    obtain ⟨inside, parts⟩ := Expr.parts_of_parse h _ mem
    exact parts.standsIn

/-! ## what the texts of a path are like -/

/-- The steps are right, and so are the texts made of them.  `Text.byteCount` counts the bytes. -/
structure Path.Sound (p : Path) : Prop where
  some_step : p.steps ≠ []
  no_empty_step : "" ∉ p.steps
  dotted_ne_empty : p.dotted ≠ ""
  parameter_ne_empty : p.parameter ≠ ""
  same_length : p.parameter.length = p.dotted.length
  same_bytes : Text.byteCount p.parameter.toList = Text.byteCount p.dotted.toList
  leaf_ne_empty : p.leaf ≠ ""
  leaf_ends_dotted : p.leaf.toList <:+ p.dotted.toList
  leaf_ends_parameter : p.leaf.toList <:+ p.parameter.toList

namespace Path

theorem leaf_ne_empty (p : Path) : p.leaf ≠ "" := p.step_ne_empty _ (List.getLast_mem p.ne_nil)

/-- the last step ends the steps, joined by any character -/
theorem leaf_suffix (p : Path) (x : Char) :
    p.leaf.toList <:+ [x].intercalate (p.steps.map String.toList) := by
  have some : p.steps.map String.toList ≠ [] := by simpa using p.ne_nil
  have last : (p.steps.map String.toList).getLast some = p.leaf.toList := List.getLast_map some
  rw [← last]
  exact getLast_suffix_intercalate x some

theorem ne_empty_of_leaf_suffix {p : Path} {s : String} (h : p.leaf.toList <:+ s.toList) :
    s ≠ "" := by
  rintro rfl
  have none : p.leaf.toList = [] := List.suffix_nil.mp h
  exact p.leaf_ne_empty (String.toList_inj.mp none)

theorem length_eq_sum (s : String) : s.length = (s.toList.map fun _ => 1).sum := by
  rw [← String.length_toList]
  simp

theorem byteCount_eq_sum (s : List Char) : Text.byteCount s = (s.map Char.utf8Size).sum :=
  List.foldr_map.symm

theorem sound (p : Path) : p.Sound := by
  have endsDotted := p.leaf_suffix '.'
  have endsParameter := p.leaf_suffix '_'
  rw [← toList_dotted] at endsDotted
  rw [← toList_parameter] at endsParameter
  refine
    { some_step := p.ne_nil
      no_empty_step := fun mem => p.step_ne_empty "" mem rfl
      dotted_ne_empty := ne_empty_of_leaf_suffix endsDotted
      parameter_ne_empty := ne_empty_of_leaf_suffix endsParameter
      same_length := ?_
      same_bytes := ?_
      leaf_ne_empty := p.leaf_ne_empty
      leaf_ends_dotted := endsDotted
      leaf_ends_parameter := endsParameter }
  · rw [length_eq_sum, length_eq_sum, toList_parameter, toList_dotted]
    exact sum_intercalate (fun _ => 1) rfl _
  · rw [byteCount_eq_sum, byteCount_eq_sum, toList_parameter, toList_dotted]
    have bytes : '_'.utf8Size = '.'.utf8Size := rfl
    exact sum_intercalate Char.utf8Size bytes _

end Path

/-- The clause of a predicate is a constant or begins with the dotted path. -/
theorem Predicate.sql_ne_empty (p : Predicate) : p.compile.sql ≠ "" := by
  intro empty
  have chars : p.skeleton.chars = [] := by
    rw [← p.toList_text_skeleton]
    exact congrArg String.toList empty
  cases shown : p.skeleton with
  | always =>
    rw [shown] at chars
    cases chars
  | never =>
    rw [shown] at chars
    cases chars
  | test op path =>
    rw [shown] at chars
    have front : path.dotted.toList = [] := (List.append_eq_nil_iff.mp chars).1
    exact path.sound.dotted_ne_empty (String.toList_inj.mp front)

namespace Path

/-- **No route makes a path without a step or with an empty one.**  A list of steps is taken if it
is neither empty nor holds an empty step, and refused for the first fault else.  A dotted text is
taken for the path that is shown so.  A decoded path stands in its document in one of the two forms.  So
the texts of each path are as they should be, and no predicate has an empty clause. -/
theorem sound_on_every_route :
    (∀ steps : List String,
      (ofSteps steps = .error .noStep ↔ steps = []) ∧
      (∀ i, ofSteps steps = .error (.emptyStep i) ↔
        steps[i]? = some "" ∧ ∀ j < i, steps[j]? ≠ some "") ∧
      ((∃ p, ofSteps steps = .ok p) ↔ steps ≠ [] ∧ "" ∉ steps) ∧
      ∀ p, ofSteps steps = .ok p ↔ p.steps = steps) ∧
    (∀ text p, ofText text = .ok p ↔ p.SpelledBy (.dotted text)) ∧
    (∀ j p, ofJson j = .ok p ↔ ∃ raw : RawPath, j = raw.toJson ∧ p.SpelledBy raw) ∧
    (∀ path operator values p, Predicate.ofTexts path operator values = .ok p →
      ofText path = .ok p.path) ∧
    (∀ text (p : Path), p.DecodedFrom text → p.StandsIn text.toList) ∧
    (∀ p : Path, p.Sound) ∧
    ∀ p : Predicate, p.compile.sql ≠ "" := by
  refine ⟨fun steps => ⟨ofSteps_eq_noStep, fun i => ofSteps_eq_emptyStep, ?_, fun p => ofSteps_eq_ok⟩,
    fun text p => ofText_eq_ok, fun j p => ofJson_eq_ok, ?_, fun text p => DecodedFrom.standsIn,
    sound, Predicate.sql_ne_empty⟩
  · constructor
    · rintro ⟨p, made⟩
      obtain rfl := ofSteps_eq_ok.mp made
      exact ⟨p.sound.some_step, p.sound.no_empty_step⟩
    · rintro ⟨some, full⟩
      exact ⟨⟨steps, some, fun s mem eq => full (eq ▸ mem)⟩, ofSteps_eq_ok.mpr rfl⟩
  · intro path operator values p h
    obtain ⟨q, told, h⟩ := bind_eq_ok.mp h
    obtain ⟨op, _, h⟩ := bind_eq_ok.mp h
    obtain rfl := Except.ok.inj h
    exact mapError_eq_ok.mp told

def author : Path := ⟨["author", "name"], by decide, by decide⟩

/-- Two predicates, one as an object with its path dotted, one as a list with its path as a list. -/
def mixedText : String := Json.compact <| .array
  [.object [("operator", .string "TRUE"), ("path", .string "author.name")],
    .array [.strings ["order", "placed"], .string "ISNULL"]]

theorem parseList_mixedText : Predicate.parseList mixedText =
    .ok [.unary author .always, .unary order .isNull] := by
  decide +kernel

/-- The paths of the two predicates, and that of a predicate made of texts. -/
theorem sound_in_mixedText :
    author.StandsIn mixedText.toList ∧ order.StandsIn mixedText.toList ∧
      ofText "author.name" = .ok author := by
  obtain ⟨_, _, _, texts, decoded, _⟩ := sound_on_every_route
  refine ⟨decoded _ _ (.list parseList_mixedText (p := .unary author .always) ?_),
    decoded _ _ (.list parseList_mixedText (p := .unary order .isNull) ?_),
    texts "author.name" "true" [] (.unary author .always) (by decide +kernel)⟩
  · exact List.mem_cons_self
  · exact List.mem_cons_of_mem _ List.mem_cons_self

end Path

end HqlWhere

import HqlWhere.Document.Path
import HqlWhere.Proofs.Json.Tokens
import HqlWhere.Proofs.Text.Words

/-!
# Operators by their names

A text is an operator's name in any mix of cases with any white space around it, or it is no
operator's name.  No text is two operators' name, so the catalogue may be searched in any order.

* `Operator.NamedBy`              the texts that name an operator;
* `Operator.searched`             the search of a catalogue in the order that it has;
* `Operator.parse_string`         a string of a document is searched for like any other text;
* `Operator.ofText_recognises`    all of this, in one statement.
-/

namespace HqlWhere

open Json

namespace Operator

/-- Between white space the text is the operator's name up to the case of ASCII letters. -/
def NamedBy (op : Operator) (s : String) : Prop :=
  ∃ word, Text.Strips s.toList word ∧ Text.SameButCase word op.name.toList

/-- The first operator of a catalogue that a text names. -/
def searched (ops : List Operator) (s : String) : Except Unknown Operator :=
  match ops.find? (isNamed (Text.trim s.toList)) with
  | some op => .ok op
  | none => .error ⟨s⟩

theorem map_toUpper_name (op : Operator) : op.name.toList.map Char.toUpper = op.name.toList := by
  cases op <;> rfl

theorem name_inj {op op' : Operator} (same : op.name = op'.name) : op = op' := by
  have distinct : ∀ op ∈ all, ∀ op' ∈ all, op.name = op'.name → op = op' := by decide
  exact distinct op op.mem_all op' op'.mem_all same

theorem isNamed_iff {word : List Char} {op : Operator} :
    isNamed word op = true ↔ Text.SameButCase word op.name.toList := by
  rw [isNamed, beq_iff_eq, Text.sameButCase_iff, map_toUpper_name]

section
variable {s t : String} {op op' : Operator}

theorem namedBy_iff : op.NamedBy s ↔ isNamed (Text.trim s.toList) op = true := by
  rw [isNamed_iff]
  constructor
  · rintro ⟨word, strips, same⟩
    rwa [Text.strips_iff.mp strips]
  · intro same
    exact ⟨_, Text.strips_trim _, same⟩

/-- **A text names one operator at most.** -/
theorem NamedBy.unique (h : op.NamedBy s) (h' : op'.NamedBy s) : op = op' := by
  have first := beq_iff_eq.mp (namedBy_iff.mp h)
  have second := beq_iff_eq.mp (namedBy_iff.mp h')
  exact name_inj (String.toList_injective (first.symm.trans second))

/-! ## searching -/

section
variable {ops : List Operator} (complete : ∀ op, op ∈ ops)
include complete

theorem searched_eq_ok : searched ops s = .ok op ↔ op.NamedBy s := by
  rw [searched]
  cases found : ops.find? (isNamed (Text.trim s.toList)) with
  | some first =>
    have named : first.NamedBy s := namedBy_iff.mpr (List.find?_some found)
    constructor
    · rintro ⟨⟩
      exact named
    · intro h
      exact congrArg Except.ok (named.unique h)
  | none =>
    refine iff_of_false nofun fun h => ?_
    exact List.find?_eq_none.mp found op (complete op) (namedBy_iff.mp h)

theorem searched_eq_error {u : Unknown} :
    searched ops s = .error u ↔ u = ⟨s⟩ ∧ ∀ op : Operator, ¬ op.NamedBy s := by
  constructor
  · intro unknown
    refine ⟨?_, fun op h => ?_⟩
    · unfold searched at unknown
      split at unknown
      · cases unknown
      · exact (Except.error.inj unknown).symm
    · cases unknown.symm.trans ((searched_eq_ok complete).mpr h)
  · rintro ⟨rfl, none⟩
    rw [searched]
    cases found : ops.find? (isNamed (Text.trim s.toList)) with
    | some first => exact absurd (namedBy_iff.mpr (List.find?_some found)) (none first)
    | none => rfl

end

theorem ofText_eq_ok : ofText s = .ok op ↔ op.NamedBy s := searched_eq_ok mem_all

/-- the order of the catalogue is of no account -/
theorem searched_of_perm {ops : List Operator} (order : ops.Perm all) : searched ops = ofText := by
  have complete : ∀ op, op ∈ ops := fun op => order.mem_iff.mpr op.mem_all
  funext s
  cases found : searched ops s with
  | ok op => exact (ofText_eq_ok.mpr ((searched_eq_ok complete).mp found)).symm
  | error u => exact ((searched_eq_error mem_all).mpr ((searched_eq_error complete).mp found)).symm

/-! ## what does not matter -/

theorem namedBy_surrounded {front back : String}
    (blankFront : ∀ c ∈ front.toList, c.toNat ∈ Text.whiteSpace)
    (blankBack : ∀ c ∈ back.toList, c.toNat ∈ Text.whiteSpace) :
    op.NamedBy (front ++ s ++ back) ↔ op.NamedBy s := by
  rw [namedBy_iff, namedBy_iff, String.append_assoc, String.toList_append, String.toList_append,
    Text.trim_surrounded blankFront blankBack]

theorem namedBy_recased (same : Text.SameButCase s.toList t.toList) :
    op.NamedBy s ↔ op.NamedBy t := by
  rw [namedBy_iff, namedBy_iff, isNamed, isNamed, ← Text.trim_map_toUpper, ← Text.trim_map_toUpper,
    Text.sameButCase_iff.mp same]

/-- a name is spelled with ASCII letters and nothing else -/
theorem NamedBy.characters (h : op.NamedBy s) {c : Char} (hc : c ∈ s.toList) :
    c.toNat ∈ Text.whiteSpace ∨ Text.IsLetter c := by
  have letters : ∀ op ∈ all, op.name.toList.all (fun d => Text.IsLetter d) = true := by decide
  obtain ⟨word, ⟨front, back, text, blankFront, blankBack, _⟩, same⟩ := h
  rw [text, List.mem_append, List.mem_append] at hc
  rcases hc with hc | hc | hc
  · exact .inl (blankFront c hc)
  · rw [Text.sameButCase_iff, map_toUpper_name] at same
    rcases Text.toUpper_cases c with capital | pair
    · have mem := List.mem_map_of_mem (f := Char.toUpper) hc
      rw [capital, same] at mem
      exact .inr (of_decide_eq_true (List.all_eq_true.mp (letters op op.mem_all) c mem))
    · exact .inr ⟨_, pair, .inr rfl⟩
  · exact .inl (blankBack c hc)

end

/-- **A string of a document is searched for like any other text.** -/
theorem parse_string {s : String} {text : List Char} (laid : Laid [.string s] text) :
    readAll read text = (ofText s).mapError fun u => .mismatch (.filter (.operator u)) := by
  obtain ⟨r, found, rest⟩ := reads_string "a string" s [] text stops_nil laid
  unfold readAll read
  rw [found, ok_bind]
  dsimp only
  cases ofText s with
  | error u => rfl
  | ok op =>
    show (if skipSpace r = [] then _ else _) = _
    exact if_pos rest.skipSpace_nil

/-- **Operators are recognised by their names, and by nothing else.**  A text tells an operator
exactly if between white space it is the operator's name up to the case of ASCII letters.  That is one
operator at most, so the catalogue may be searched in any order; a text that names none is refused as
it was given.  White space at the ends of a text and the case of its ASCII letters do not matter, and
besides white space a text that names an operator holds nothing but ASCII letters.  A string in a
document is told apart in the same way. -/
theorem ofText_recognises :
    (∀ s op, ofText s = .ok op ↔ op.NamedBy s) ∧
    (∀ s (op op' : Operator), op.NamedBy s → op'.NamedBy s → op = op') ∧
    (∀ ops : List Operator, ops.Perm all → searched ops = ofText) ∧
    (∀ s u, ofText s = .error u ↔ u = ⟨s⟩ ∧ ∀ op : Operator, ¬ op.NamedBy s) ∧
    (∀ s front back op, (∀ c ∈ front.toList, c.toNat ∈ Text.whiteSpace) →
      (∀ c ∈ back.toList, c.toNat ∈ Text.whiteSpace) →
      (ofText (front ++ s ++ back) = .ok op ↔ ofText s = .ok op)) ∧
    (∀ s t op, Text.SameButCase s.toList t.toList → (ofText s = .ok op ↔ ofText t = .ok op)) ∧
    (∀ s op, ofText s = .ok op → ∀ c ∈ s.toList, c.toNat ∈ Text.whiteSpace ∨ Text.IsLetter c) ∧
    ∀ s text, Laid [.string s] text →
      readAll read text = (ofText s).mapError fun u => .mismatch (.filter (.operator u)) := by
  refine ⟨fun s op => ofText_eq_ok, fun s op op' => NamedBy.unique, fun ops => searched_of_perm,
    fun s u => searched_eq_error mem_all, ?_, ?_, ?_, fun s text => parse_string⟩
  · intro s front back op blankFront blankBack
    rw [ofText_eq_ok, ofText_eq_ok, namedBy_surrounded blankFront blankBack]
  · intro s t op same
    rw [ofText_eq_ok, ofText_eq_ok, namedBy_recased same]
  · intro s op found c hc
    exact (ofText_eq_ok.mp found).characters hc

/-- A name in mixed case between an em space and a line feed: in another case, between more white
space, searched for from the last operator to the first, and as a string, which has the line feed
escaped.  With a long s, which is no ASCII letter, it is no name. -/
theorem ofText_of_oddNames :
    ofText "\u2003pOSTfix\n" = .ok endsWith ∧ ofText "\u2003POSTfIX\n" = .ok endsWith ∧
      ofText "\t\u2003pOSTfix\n\u3000" = .ok endsWith ∧
      searched all.reverse "\u2003pOSTfix\n" = .ok endsWith ∧
      readAll read "\"\u2003pOSTfix\\n\"".toList = .ok endsWith ∧
      ofText "po\u017Ftfix" = .error ⟨"po\u017Ftfix"⟩ := by
  obtain ⟨told, _, ordered, refused, surrounded, recased, _, parsed⟩ := ofText_recognises
  have strips : Text.Strips "\u2003pOSTfix\n".toList "pOSTfix".toList := by
    refine ⟨['\u2003'], ['\n'], rfl, List.forall_mem_singleton.mpr (by decide),
      List.forall_mem_singleton.mpr (by decide), ?_, ?_⟩
    · rintro _ ⟨⟩
      decide
    · rintro _ ⟨⟩
      decide
  have letters : Text.SameButCase "pOSTfix".toList endsWith.name.toList := by
    rw [Text.sameButCase_iff]
    decide
  have first := (told _ _).mpr ⟨_, strips, letters⟩
  have upper : Text.SameButCase "\u2003pOSTfix\n".toList "\u2003POSTfIX\n".toList := by
    rw [Text.sameButCase_iff]
    decide
  have wider := surrounded "\u2003pOSTfix\n" "\t" "\u3000" endsWith
    (List.forall_mem_singleton.mpr (by decide)) (List.forall_mem_singleton.mpr (by decide))
  have none : ∀ op ∈ all, ¬ op.NamedBy "po\u017Ftfix" := by
    intro op mem named
    have other : ∀ op ∈ all, isNamed (Text.trim "po\u017Ftfix".toList) op = false := by decide
    exact Bool.eq_false_iff.mp (other op mem) (namedBy_iff.mp named)
  have laid : Laid [.string "\u2003pOSTfix\n"] "\"\u2003pOSTfix\\n\"".toList :=
    laid_writeString "\u2003pOSTfix\n" (.nil (w := []) nofun)
  refine ⟨first, (recased _ _ _ upper).mp first, wider.mpr first, ?_, ?_,
    (refused _ _).mpr ⟨rfl, fun op => none op op.mem_all⟩⟩
  · rw [ordered _ all.reverse_perm]
    exact first
  · rw [parsed _ _ laid, first]
    rfl

end Operator

end HqlWhere

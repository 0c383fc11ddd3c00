import HqlWhere.Proofs.Json.Skipping
import HqlWhere.Proofs.Json.Values

/-!
# What is written is well-formed

The tokens of a value say what its strings are, and the grammar of values how they are spelled.  A
text in which the tokens of a value are laid out is a row of tokens of the grammar, whatever way its
strings are spelled.

* `Spells.form`              a spelling of a text may stand between quotes;
* `Respells`                 the same token with its string as it is spelled;
* `wellFormed_of_respelled`  the tokens of a value, so spelled, are a value of the grammar;
* `wellFormed_indented`      so the indented text of a value is one.
-/

namespace HqlWhere.Json

/-! ## strings -/

theorem SpellsCode.form {n : Nat} {t u : List Char} (h : SpellsCode n t) (rest : StringForm u) :
    StringForm ('\\' :: 'u' :: t ++ u) := by
  obtain ⟨a, b, c, d, rfl, value⟩ := h.read
  have known : (fourHex? a b c d).isSome = true := Option.isSome_of_eq_some value
  exact .code (isSome_continued?_iff.mp known) rest

theorem SpellsChar.form {c : Char} {t u : List Char} (h : SpellsChar c t) (rest : StringForm u) :
    StringForm (t ++ u) := by
  cases h with
  | plain quote backslash printable => exact .plain quote backslash printable rest
  | letter letter => exact .letter letter rest
  | code code => exact code.form rest
  | pair number front back first second =>
    rw [List.append_assoc]
    exact first.form (second.form rest)

/-- A spelling of a text is one of the forms that may stand between quotes. -/
theorem Spells.form {s t : List Char} (h : Spells s t) : StringForm t := by
  induction h with
  | nil => exact .nil
  | cons first rest ih => exact first.form ih

/-! ## tokens as they are spelled -/

/-- The same token with its string as it is spelled. -/
inductive Respells : Token → Token → Prop
  | lexeme {t : List Char} : Respells (.lexeme t) (.lexeme t)
  | string {s : String} {t : List Char} (h : Spells s.toList t) : Respells (.string s) (quotedToken t)

theorem Laid.respelled {ts : List Token} {s : List Char} (h : Laid ts s) :
    ∃ us, List.Forall₂ Respells ts us ∧ Laid us s := by
  induction h with
  | nil blank => exact ⟨[], .nil, .nil blank⟩
  | cons blank text rest ih =>
    obtain ⟨us, same, laid⟩ := ih
    cases text with
    | lexeme dark => exact ⟨_, .cons .lexeme same, .cons blank (.lexeme dark) laid⟩
    | string h => exact ⟨_, .cons (.string h) same, .cons blank (.lexeme rfl) laid⟩

section
variable {rows : List (List Token)} {us : List Token}

theorem respelled_append {ts ts' : List Token} (h : List.Forall₂ Respells (ts ++ ts') us) :
    ∃ vs vs', us = vs ++ vs' ∧ List.Forall₂ Respells ts vs ∧ List.Forall₂ Respells ts' vs' := by
  induction ts generalizing us with
  | nil => exact ⟨[], us, rfl, .nil, h⟩
  | cons token ts ih =>
    obtain ⟨u, us, one, more, rfl⟩ := List.forall₂_cons_left_iff.mp h
    obtain ⟨vs, vs', rfl, front, back⟩ := ih more
    exact ⟨u :: vs, vs', rfl, .cons one front, back⟩

theorem respelled_lexeme {t : List Char} {ts : List Token}
    (h : List.Forall₂ Respells (.lexeme t :: ts) us) :
    ∃ vs, us = .lexeme t :: vs ∧ List.Forall₂ Respells ts vs := by
  obtain ⟨_, vs, same, more, rfl⟩ := List.forall₂_cons_left_iff.mp h
  cases same
  exact ⟨vs, rfl, more⟩

theorem respelled_string {s : String} {ts : List Token}
    (h : List.Forall₂ Respells (.string s :: ts) us) :
    ∃ t vs, us = quotedToken t :: vs ∧ StringForm t ∧ List.Forall₂ Respells ts vs := by
  obtain ⟨_, vs, same, more, rfl⟩ := List.forall₂_cons_left_iff.mp h
  cases same with
  | string spelled => exact ⟨_, vs, rfl, spelled.form, more⟩

theorem respelled_flatMap (h : List.Forall₂ Respells (rows.flatMap (.mark ',' :: ·)) us) :
    ∃ rows', us = rows'.flatMap (.mark ',' :: ·) ∧
      List.Forall₂ (List.Forall₂ Respells) rows rows' := by
  induction rows generalizing us with
  | nil =>
    cases h
    exact ⟨[], rfl, .nil⟩
  | cons row rows ih =>
    obtain ⟨vs, rfl, behind⟩ := respelled_lexeme h
    obtain ⟨row', vs', rfl, one, more⟩ := respelled_append behind
    obtain ⟨rows', rfl, all⟩ := ih more
    exact ⟨row' :: rows', rfl, .cons one all⟩

/-- the rows between two brackets, each spelled by itself -/
theorem respelled_bracket {opening closing : Char}
    (h : List.Forall₂ Respells (.mark opening :: (separated rows ++ [.mark closing])) us) :
    ∃ rows', us = .mark opening :: (separated rows' ++ [.mark closing]) ∧
      List.Forall₂ (List.Forall₂ Respells) rows rows' := by
  obtain ⟨vs, rfl, behind⟩ := respelled_lexeme h
  obtain ⟨inner, back, rfl, between, close⟩ := respelled_append behind
  obtain ⟨_, rfl, none⟩ := respelled_lexeme close
  cases none
  cases rows with
  | nil =>
    cases between
    exact ⟨[], rfl, .nil⟩
  | cons row rows =>
    obtain ⟨row', vs', rfl, one, more⟩ := respelled_append between
    obtain ⟨rows', rfl, all⟩ := respelled_flatMap more
    exact ⟨row' :: rows', rfl, .cons one all⟩

end

/-! ## values -/

/-- The number is written as one of the grammar, or as a word. -/
def Number.WellWritten (n : Number) : Prop := WellFormed [.lexeme (n.write [])]

mutual

/-- **The tokens of a value are a value of the grammar**, however its strings are spelled. -/
theorem wellFormed_of_respelled : ∀ (j : Json) {us : List Token},
    (∀ n ∈ j.numbers, n.WellWritten) → List.Forall₂ Respells j.tokens us → WellFormed us
  | .null, us, _, h => by
    obtain ⟨_, rfl, none⟩ := respelled_lexeme h
    cases none
    exact .word (by decide)
  | .boolean b, us, _, h => by
    obtain ⟨_, rfl, none⟩ := respelled_lexeme h
    cases none
    rw [writeBool, List.append_nil]
    exact .word (by cases b <;> decide)
  | .number n, us, written, h => by
    obtain ⟨_, rfl, none⟩ := respelled_lexeme h
    cases none
    exact written n List.mem_cons_self
  | .string s, us, _, h => by
    obtain ⟨t, _, rfl, form, none⟩ := respelled_string h
    cases none
    exact .string form
  | .array l, us, written, h => by
    obtain ⟨rows', rfl, rows⟩ := respelled_bracket h
    exact .list (wellFormed_items l written rows)
  | .object ms, us, written, h => by
    obtain ⟨rows', rfl, rows⟩ := respelled_bracket h
    obtain ⟨members, rfl, names, each⟩ := wellFormed_members ms written rows
    exact .object names each

theorem wellFormed_items : ∀ (l : List Json) {rows : List (List Token)},
    (∀ n ∈ numbersOfItems l, n.WellWritten) →
    List.Forall₂ (List.Forall₂ Respells) (itemsTokens l) rows → ∀ v ∈ rows, WellFormed v
  | [], _, _, .nil => nofun
  | x :: l, _, written, .cons one more => by
    obtain ⟨own, rest⟩ := List.forall_mem_append.mp written
    exact List.forall_mem_cons.mpr
      ⟨wellFormed_of_respelled x own one, wellFormed_items l rest more⟩

theorem wellFormed_members : ∀ (ms : List (String × Json)) {rows : List (List Token)},
    (∀ n ∈ numbersOfMembers ms, n.WellWritten) →
    List.Forall₂ (List.Forall₂ Respells) (membersTokens ms) rows →
    ∃ members : List (List Char × List Token),
      rows = members.map (fun m => quotedToken m.1 :: .mark ':' :: m.2) ∧
      (∀ m ∈ members, StringForm m.1) ∧ ∀ m ∈ members, WellFormed m.2
  | [], _, _, .nil => ⟨[], rfl, nofun, nofun⟩
  | (name, x) :: ms, _, written, .cons first more => by
    obtain ⟨own, rest⟩ := List.forall_mem_append.mp written
    obtain ⟨t, _, rfl, form, behind⟩ := respelled_string first
    obtain ⟨v, rfl, value⟩ := respelled_lexeme behind
    obtain ⟨members, rfl, names, each⟩ := wellFormed_members ms rest more
    exact ⟨(t, v) :: members, rfl, List.forall_mem_cons.mpr ⟨form, names⟩,
      List.forall_mem_cons.mpr ⟨wellFormed_of_respelled x own value, each⟩⟩

end

/-- **The indented text of a value is well-formed.** -/
theorem wellFormed_indented {j : Json} (written : ∀ n ∈ j.numbers, n.WellWritten) :
    ∃ v, WellFormed v ∧ Laid v j.indented.toList := by
  have laid := laid_writeIndented j 0 (.nil (w := []) nofun)
  rw [List.append_nil] at laid
  obtain ⟨v, same, laid⟩ := laid.respelled
  rw [Json.indented, String.toList_ofList]
  exact ⟨v, wellFormed_of_respelled j written same, laid⟩

end HqlWhere.Json

import HqlWhere.Proofs.Json.Skipping

/-!
# Numbers where an integer is wanted

An integer may be written with any number of digits.  One that does not fit a 64-bit word is read as
a floating point number or as no number at all, but never as another integer.

* `Admits`                    what a reader can take certain tokens for, and that it then stands
                              behind them;
* `NumberForm.ofInt`          a written integer is a number of the grammar;
* `NumberForm.readNumeric_laid`   a number is taken apart to its end, whatever it makes up;
* `admits_integer`            a written integer is taken for itself, and only between the bounds;
* `WellFormed.admitsInteger`, `WellFormed.admitsBoolean`   other values, of which only the end
                              matters.
-/

namespace HqlWhere.Json

/-- If the reader takes the tokens for a value, it is one of these, and the reader stands behind the
tokens, wherever they are laid out and whatever follows. -/
def Admits {α : Type} (read : Reader α) (tokens : List Token) (values : α → Prop) : Prop :=
  ∀ ts s x r, Stops ts → Laid (tokens ++ ts) s → read s = .ok (x, r) → values x ∧ Laid ts r

section
variable {α β : Type} {read : Reader α} {tokens : List Token} {values : α → Prop}

theorem Admits.readAll (h : Admits read tokens values) {s : List Char} (laid : Laid tokens s)
    {x : α} (found : Json.readAll read s = .ok x) : values x := by
  rw [← List.append_nil tokens] at laid
  obtain ⟨r, here, _⟩ := readAll_eq_ok.mp found
  exact (h [] s x r stops_nil laid here).1

theorem Admits.mono {values' : α → Prop} (h : Admits read tokens values)
    (weaker : ∀ x, values x → values' x) : Admits read tokens values' := by
  intro ts s x r stops laid found
  obtain ⟨value, rest⟩ := h ts s x r stops laid found
  exact ⟨weaker x value, rest⟩

/-- a reader that takes the tokens for a value takes them for nothing else -/
theorem Reads.admits {x : α} (h : Reads read tokens x) : Admits read tokens (· = x) := by
  intro ts s y r stops laid found
  obtain ⟨k, here, rest⟩ := h ts s stops laid
  obtain ⟨rfl, rfl⟩ := Prod.mk.inj (Except.ok.inj (here.symm.trans found))
  exact ⟨rfl, rest⟩

theorem Admits.andThen {f : α × List Char → Except Fault (β × List Char)} {values' : β → Prop}
    (h : Admits read tokens values)
    (step : ∀ x r y k, values x → f (x, r) = .ok (y, k) → values' y ∧ k = r) :
    Admits (fun s => read s >>= f) tokens values' := by
  intro ts s y k stops laid found
  obtain ⟨⟨x, r⟩, here, made⟩ := bind_eq_ok.mp found
  obtain ⟨value, rest⟩ := h ts s x r stops laid here
  obtain ⟨value, rfl⟩ := step x r y k value made
  exact ⟨value, rest⟩

end

/-! ## written integers -/

/-- an unsigned word holds an integer that fits it -/
theorem toNat_unsigned {n : Int} (low : 0 ≤ n) (high : n ≤ 0xFFFFFFFFFFFFFFFF) :
    ((UInt64.ofNat n.toNat).toNat : Int) = n := by
  have fits : n.toNat < UInt64.size := by
    show n.toNat < 0x10000000000000000
    omega
  rw [UInt64.toNat_ofNat_of_lt' fits, Int.toNat_of_nonneg low]

theorem digits_write (n : Nat) : Digits (Numeral.write n) :=
  ⟨Numeral.write_ne_nil n, fun _ hc => Numeral.isDigit_of_mem_write hc⟩

theorem write_of_zero {n : Nat} (h : (Numeral.write n).head? = some '0') :
    Numeral.write n = ['0'] := by
  by_cases zero : n = 0
  · subst zero
    rfl
  · exact absurd h (Numeral.head?_write zero)

/-- A written integer as a number of the grammar. -/
def NumberForm.ofInt (n : Int) : NumberForm where
  sign := if n < 0 then ['-'] else []
  whole := Numeral.write n.natAbs
  fraction := []
  exponent := []
  sign_minus := by
    split
    · exact .inr rfl
    · exact .inl rfl
  whole_digits := digits_write _
  whole_zero := write_of_zero
  fraction_point := .inl rfl
  exponent_letter := .inl rfl

theorem NumberForm.text_ofInt (n : Int) : (ofInt n).text = Numeral.writeInt n := by
  show (if n < 0 then ['-'] else []) ++ (Numeral.write n.natAbs ++ []) = _
  rw [List.append_nil]
  cases n with
  | ofNat n => rfl
  | negSucc n =>
    rw [if_pos (Int.negSucc_lt_zero n)]
    rfl

theorem tokens_integer (n : Int) : (Json.integer n).tokens = [.lexeme (NumberForm.ofInt n).text] := by
  rw [NumberForm.text_ofInt]
  show [Token.lexeme (Numeral.writeInt n ++ [])] = _
  rw [List.append_nil]

theorem wellFormed_integer (n : Int) : WellFormed (Json.integer n).tokens := by
  rw [tokens_integer]
  exact .number _

/-- A written integer makes up itself or no integer. -/
theorem NumberText.integer_of_number? {n m : Int} (h : (ofInt n).number? = some (.integer m)) :
    m = n := by
  unfold number? at h
  rw [integer?_ofInt] at h
  by_cases fits : -0x8000000000000000 ≤ n ∧ n < 0x10000000000000000
  · rw [if_pos fits] at h
    injection Option.some.inj h with same
    exact same.symm
  · rw [if_neg fits] at h
    obtain ⟨x, _, other⟩ := Option.map_eq_some_iff.mp h
    cases other

/-! ## numbers -/

section
variable {ts : List Token} {s : List Char} {expected : String} {low high : Int}

/-- **A number is taken apart to its end**, and then its parts make up what they may. -/
theorem NumberForm.readNumeric_laid (n : NumberForm) (expected : String) (stops : Stops ts)
    (laid : Laid (.lexeme n.text :: ts) s) :
    ∃ t r, readNumberText missingDigit n.text = .ok (t, []) ∧ Laid ts r ∧
      readNumeric expected s = match t.number? with
        | some x => .ok (x, r)
        | none => .error (.malformed .numberTooLarge) := by
  obtain ⟨r, front, rest⟩ := laid.lexeme
  obtain ⟨t, alone⟩ := n.readNumberText_append missingDigit (k := []) nofun
  rw [List.append_nil] at alone
  obtain ⟨_, more⟩ := local_readNumberText missingDigit _ t [] alone
  have parts : readNumberText missingDigit (n.text ++ r) = .ok (t, r) :=
    more r fun _ => rest.ends stops
  refine ⟨t, r, alone, rest, ?_⟩
  obtain ⟨c, u, text, starts⟩ := n.text_eq_cons
  rw [← readNumeric_skipSpace, front, text, List.cons_append, readNumeric_cons starts,
    ← List.cons_append, ← text]
  unfold readNumber
  rw [parts]
  rfl

theorem Laid.startsInteger {n : Int} (laid : Laid ((Json.integer n).tokens ++ ts) s) :
    ∃ c r, Json.skipSpace s = c :: r ∧ startsNumber c = true := by
  rw [tokens_integer] at laid
  obtain ⟨k, front, _⟩ := laid.lexeme
  obtain ⟨c, u, text, starts⟩ := (NumberForm.ofInt n).text_eq_cons
  rw [text] at front
  exact ⟨c, _, front, starts⟩

/-- what a number was taken for where an integer is wanted -/
theorem NumberForm.readInteger_laid (n : NumberForm) (stops : Stops ts)
    (laid : Laid (.lexeme n.text :: ts) s) {m : Int} {r : List Char}
    (found : readInteger low high expected s = .ok (m, r)) :
    ∃ t, readNumberText missingDigit n.text = .ok (t, []) ∧ t.number? = some (.integer m) ∧
      (low ≤ m ∧ m ≤ high) ∧ Laid ts r := by
  obtain ⟨t, k, parts, rest, number⟩ := n.readNumeric_laid expected stops laid
  unfold readInteger at found
  rw [number] at found
  refine ⟨t, parts, ?_⟩
  cases made : t.number? with
  | none =>
    rw [made] at found
    cases found
  | some x =>
    rw [made, ok_bind] at found
    cases x with
    | float x => cases found
    | integer i =>
      dsimp only at found
      split at found
      · obtain ⟨rfl, rfl⟩ := Prod.mk.inj (Except.ok.inj found)
        exact ⟨rfl, ‹_›, rest⟩
      · cases found

/-- **A written integer is taken for itself, and only between the bounds.** -/
theorem admits_integer (n : Int) : Admits (readInteger low high expected) (Json.integer n).tokens
    fun m => m = n ∧ low ≤ n ∧ n ≤ high := by
  rw [tokens_integer]
  intro ts s m r stops laid found
  obtain ⟨t, parts, made, within, rest⟩ := (NumberForm.ofInt n).readInteger_laid stops laid found
  rw [NumberForm.text_ofInt, readNumberText_writeInt] at parts
  obtain ⟨rfl, _⟩ := Prod.mk.inj (Except.ok.inj parts)
  obtain rfl := NumberText.integer_of_number? made
  exact ⟨⟨rfl, within⟩, rest⟩

/-! ## any value -/

/-- what a value of the grammar is, as far as its first character tells -/
theorem WellFormed.cases_head {v : List Token} (h : WellFormed v) :
    (∃ w ∈ ["null", "true", "false"], v = [.lexeme w.toList]) ∨
      (∃ n : NumberForm, v = [.lexeme n.text]) ∨
      ∃ token rest, v = token :: rest ∧ token.head ∈ ['"', '[', '{'] := by
  cases h with
  | word h => exact .inl ⟨_, h, rfl⟩
  | number n => exact .inr (.inl ⟨n, rfl⟩)
  | string h => exact .inr (.inr ⟨_, _, rfl, List.mem_cons_self⟩)
  | list each => exact .inr (.inr ⟨_, _, rfl, by decide⟩)
  | object names each => exact .inr (.inr ⟨_, _, rfl, by decide⟩)

/-- what a word starts with -/
theorem head_word {w : String} (h : w ∈ ["null", "true", "false"]) :
    ∃ c u, w.toList = c :: u ∧ startsNumber c = false ∧ c ∉ ['"', '[', '{'] := by
  simp only [List.mem_cons, List.not_mem_nil, or_false] at h
  rcases h with rfl | rfl | rfl <;> exact ⟨_, _, rfl, rfl, by decide⟩

/-- Where a value starts with a word, it is the word. -/
theorem WellFormed.behindWord {v : List Token} (h : WellFormed v) (laid : Laid (v ++ ts) s)
    {w : String} (word : w ∈ ["null", "true", "false"]) {r : List Char}
    (front : skipSpace s = w.toList ++ r) : Laid ts r := by
  obtain ⟨c, u, text, noNumber, noBracket⟩ := head_word word
  have head : (skipSpace s).head? = some c := by rw [front, text]; rfl
  rcases h.cases_head with ⟨w', word', rfl⟩ | ⟨n, rfl⟩ | ⟨token, rest, rfl, bracket⟩
  · obtain ⟨k, front', behind⟩ := laid.lexeme
    obtain ⟨c', u', text', _⟩ := head_word word'
    rw [front', text'] at head
    have first : w'.toList.head? = w.toList.head? := by
      rw [text, text']
      exact head
    have distinct : ∀ w ∈ ["null", "true", "false"], ∀ w' ∈ ["null", "true", "false"],
        w.toList.head? = w'.toList.head? → w = w' := by decide
    obtain rfl := distinct w' word' w word first
    obtain rfl := List.append_cancel_left (front'.symm.trans front)
    exact behind
  · obtain ⟨k, front', _⟩ := laid.lexeme
    obtain ⟨d, _, text', starts⟩ := n.text_eq_cons
    rw [front', text'] at head
    obtain rfl := Option.some.inj head
    cases starts.symm.trans noNumber
  · obtain ⟨k, front'⟩ := laid.head
    rw [front'] at head
    obtain rfl := Option.some.inj head
    exact absurd bracket noBracket

theorem readNumeric_of_not_startsNumber {c : Char} {r : List Char} (front : skipSpace s = c :: r)
    (no : startsNumber c = false) : readNumeric expected s = .error (unwanted expected (c :: r)) := by
  unfold readNumeric
  rw [front]
  exact if_neg (Bool.eq_false_iff.mp no)

/-- Of any value an integer reader takes nothing or all. -/
theorem WellFormed.admitsInteger {v : List Token} (h : WellFormed v) :
    Admits (readInteger low high expected) v fun _ => True := by
  intro ts s m r stops laid found
  have refused {c : Char} {u : List Char} (front : skipSpace s = c :: u) :
      startsNumber c = true := by
    by_contra no
    unfold readInteger at found
    rw [readNumeric_of_not_startsNumber front (Bool.eq_false_iff.mpr no)] at found
    cases found
  rcases h.cases_head with ⟨w, word, rfl⟩ | ⟨n, rfl⟩ | ⟨token, rest, rfl, bracket⟩
  · obtain ⟨k, front, _⟩ := laid.lexeme
    obtain ⟨c, u, text, noNumber, _⟩ := head_word word
    rw [text] at front
    cases noNumber.symm.trans (refused front)
  · obtain ⟨_, _, _, _, rest⟩ := n.readInteger_laid stops laid found
    exact ⟨trivial, rest⟩
  · obtain ⟨u, front⟩ := laid.head
    have starts := refused front
    simp only [List.mem_cons, List.not_mem_nil, or_false] at bracket
    rcases bracket with same | same | same <;> rw [same] at starts <;> cases starts

/-- what was read as a truth value is one of its two words -/
theorem readBoolean_eq_ok {b : Bool} {r : List Char} (h : readBoolean expected s = .ok (b, r)) :
    skipSpace s = (if b then "true" else "false").toList ++ r := by
  unfold readBoolean at h
  split at h
  · obtain ⟨u, word, same⟩ := map_eq_ok.mp h
    obtain ⟨rfl, rfl⟩ := Prod.mk.inj same
    rw [‹skipSpace s = _›, readWord_eq_ok word]
    rfl
  · obtain ⟨u, word, same⟩ := map_eq_ok.mp h
    obtain ⟨rfl, rfl⟩ := Prod.mk.inj same
    rw [‹skipSpace s = _›, readWord_eq_ok word]
    rfl
  · cases h

/-- Of any value the reader of truth values takes nothing or all. -/
theorem WellFormed.admitsBoolean {v : List Token} (h : WellFormed v) :
    Admits (readBoolean expected) v fun _ => True := by
  intro ts s b r _ laid found
  have word : (if b then "true" else "false") ∈ ["null", "true", "false"] := by
    cases b <;> decide
  exact ⟨trivial, h.behindWord laid word (readBoolean_eq_ok found)⟩

end

end HqlWhere.Json

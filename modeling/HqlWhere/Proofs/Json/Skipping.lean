import HqlWhere.Json.Skip
import HqlWhere.Proofs.Json.Tokens

/-!
# Any JSON value is passed over

A value that nobody asked for may be any JSON: of any nesting, with numbers of any size and with
half surrogate pairs in its strings.

* `WellFormed`               the rows of tokens that are JSON values;
* `Skips`                    a row of tokens is passed over, whatever brackets are open around it;
* `skipValue_of_wellFormed`  the skipping stops just behind the value.
-/

namespace HqlWhere.Json

/-! ## what a value is -/

/-- What may stand between the quotes of a string.  Four digits need not be a character. -/
inductive StringForm : List Char → Prop
  | nil : StringForm []
  | plain {c : Char} {t : List Char} (quote : c ≠ '"') (backslash : c ≠ '\\')
      (printable : 0x20 ≤ c.toNat) (rest : StringForm t) : StringForm (c :: t)
  | letter {e c : Char} {t : List Char} (h : (e, c) ∈ letterEscapes) (rest : StringForm t) :
      StringForm ('\\' :: e :: t)
  | code {a b c d : Char} {t : List Char} (hex : ∀ x ∈ [a, b, c, d], Hex.isDigit x = true)
      (rest : StringForm t) : StringForm ('\\' :: 'u' :: a :: b :: c :: d :: t)

def Digits (d : List Char) : Prop := d ≠ [] ∧ ∀ c ∈ d, c.isDigit = true

instance (d : List Char) : Decidable (Digits d) :=
  decidable_of_iff (d ≠ [] ∧ d.all Char.isDigit = true) (and_congr_right fun _ => List.all_eq_true)

/-- A number as it is written, in its parts; an absent one is empty. -/
structure NumberForm where
  sign : List Char
  whole : List Char
  fraction : List Char
  exponent : List Char
  sign_minus : sign = [] ∨ sign = ['-']
  whole_digits : Digits whole
  /-- A zero stands alone. -/
  whole_zero : whole.head? = some '0' → whole = ['0']
  fraction_point : fraction = [] ∨ ∃ d, Digits d ∧ fraction = '.' :: d
  exponent_letter : exponent = [] ∨ ∃ e sign d, (e = 'e' ∨ e = 'E') ∧
    (sign = [] ∨ sign = ['+'] ∨ sign = ['-']) ∧ Digits d ∧ exponent = e :: (sign ++ d)

def NumberForm.text (n : NumberForm) : List Char :=
  n.sign ++ (n.whole ++ (n.fraction ++ n.exponent))

def quotedToken (t : List Char) : Token := .lexeme ('"' :: (t ++ ['"']))

/-- The rows of tokens that are JSON values. -/
inductive WellFormed : List Token → Prop
  | word {w : String} (h : w ∈ ["null", "true", "false"]) : WellFormed [.lexeme w.toList]
  | number (n : NumberForm) : WellFormed [.lexeme n.text]
  | string {t : List Char} (h : StringForm t) : WellFormed [quotedToken t]
  | list {items : List (List Token)} (each : ∀ v ∈ items, WellFormed v) :
      WellFormed (listTokens items)
  | object {members : List (List Char × List Token)} (names : ∀ m ∈ members, StringForm m.1)
      (each : ∀ m ∈ members, WellFormed m.2) :
      WellFormed (objectTokens (members.map fun m => quotedToken m.1 :: .mark ':' :: m.2))

/-! ## strings and numbers -/

theorem skipChars_plain {c : Char} (quote : c ≠ '"') (backslash : c ≠ '\\')
    (printable : 0x20 ≤ c.toNat) (s : List Char) : skipChars (c :: s) = skipChars s := by
  rw [skipChars]
  · rw [if_neg (Nat.not_lt.mpr printable)]
  all_goals simp_all

theorem skipChars_escape {c e : Char} (letter : escaped? e = some c) (other : e ≠ 'u')
    (s : List Char) : skipChars ('\\' :: e :: s) = skipChars s := by
  rw [skipChars]
  · rw [letter]
    rfl
  all_goals simp_all

theorem isSome_continued?_iff {s : List Char} {n : Nat} :
    (Hex.continued? n s).isSome = true ↔ ∀ c ∈ s, Hex.isDigit c = true := by
  induction s generalizing n with
  | nil => exact iff_of_true rfl (List.forall_mem_nil _)
  | cons c s ih =>
    rw [List.forall_mem_cons, Hex.continued?, Hex.isDigit]
    cases Hex.value? c with
    | none => exact iff_of_false Bool.false_ne_true fun digits => Bool.false_ne_true digits.1
    | some d => exact ih.trans (and_iff_right rfl).symm

theorem skipChars_form {t : List Char} (h : StringForm t) (k : List Char) :
    skipChars (t ++ '"' :: k) = .ok k := by
  induction h with
  | nil => rw [List.nil_append, skipChars]
  | plain quote backslash printable rest ih =>
    rw [List.cons_append, skipChars_plain quote backslash printable, ih]
  | letter h rest ih =>
    obtain ⟨letter, other⟩ := escaped?_of_mem h
    rw [List.cons_append, List.cons_append, skipChars_escape letter other, ih]
  | @code a b c d t hex rest ih =>
    have value : (fourHex? a b c d).isSome = true := isSome_continued?_iff.mpr hex
    show skipChars ('\\' :: 'u' :: a :: b :: c :: d :: (t ++ '"' :: k)) = _
    rw [skipChars, if_pos value, ih]

section
variable {missing : List Char → Fault} {k : List Char}

theorem readDigits_append {d : List Char} (digits : Digits d)
    (last : ∀ c ∈ k.head?, c.isDigit = false) : readDigits missing (d ++ k) = .ok (d, k) := by
  obtain ⟨nonempty, all⟩ := digits
  have take : (d ++ k).takeWhile Char.isDigit = d ++ k.takeWhile Char.isDigit :=
    List.takeWhile_append_of_pos all
  have drop : (d ++ k).dropWhile Char.isDigit = k.dropWhile Char.isDigit :=
    List.dropWhile_append_of_pos all
  have none : k.takeWhile Char.isDigit = [] ∧ k.dropWhile Char.isDigit = k := by
    cases k with
    | nil => exact ⟨rfl, rfl⟩
    | cons c k =>
      rw [List.takeWhile_cons, List.dropWhile_cons, last c rfl]
      exact ⟨rfl, rfl⟩
  rw [none.1, List.append_nil] at take
  rw [none.2] at drop
  exact readDigits_eq_ok.mpr ⟨take, drop, nonempty⟩

namespace NumberForm

theorem readExponent_append (n : NumberForm) (missing : List Char → Fault) (ends : Ends k) :
    ∃ x, readExponent missing (n.exponent ++ k) = .ok (x, k) := by
  rcases n.exponent_letter with absent | ⟨e, sign, d, letter, signs, digits, text⟩
  · rw [absent]
    exact ⟨_, readExponent_of_ne fun c hc => (ends c hc).2.2⟩
  · have last : ∀ c ∈ k.head?, c.isDigit = false := fun c hc => (ends c hc).1
    have behind : (exponentSign (sign ++ (d ++ k))).2 = d ++ k := by
      rcases signs with rfl | rfl | rfl
      · obtain ⟨c, d, rfl⟩ := List.exists_cons_of_ne_nil digits.1
        have digit := digits.2 c List.mem_cons_self
        unfold exponentSign
        split
        · obtain ⟨rfl, _⟩ := List.cons.inj ‹_›
          cases digit
        · obtain ⟨rfl, _⟩ := List.cons.inj ‹_›
          cases digit
        · rfl
      · rfl
      · rfl
    refine ⟨some ((exponentSign (sign ++ (d ++ k))).1, d), ?_⟩
    rw [text, List.cons_append, List.append_assoc, readExponent_cons letter, behind,
      readDigits_append digits last]
    rfl

theorem head_exponent (n : NumberForm) (ends : Ends k) :
    ∀ c ∈ (n.exponent ++ k).head?, c.isDigit = false ∧ c ≠ '.' := by
  rcases n.exponent_letter with absent | ⟨e, _, _, letter, _, _, text⟩
  · rw [absent]
    exact fun c hc => ⟨(ends c hc).1, (ends c hc).2.1⟩
  · rw [text]
    intro c hc
    obtain rfl := Option.some.inj hc
    rcases letter with rfl | rfl
    · exact ⟨rfl, by decide⟩
    · exact ⟨rfl, by decide⟩

theorem readFraction_append (n : NumberForm) (missing : List Char → Fault) (ends : Ends k) :
    ∃ x, readFraction missing (n.fraction ++ (n.exponent ++ k)) = .ok (x, n.exponent ++ k) := by
  have last := n.head_exponent ends
  rcases n.fraction_point with absent | ⟨d, digits, text⟩
  · rw [absent]
    refine ⟨_, readFraction_of_ne ?_⟩
    intro point
    exact (last '.' point).2 rfl
  · have read : readDigits missing (d ++ (n.exponent ++ k)) = .ok (d, n.exponent ++ k) :=
      readDigits_append digits fun c hc => (last c hc).1
    refine ⟨some d, ?_⟩
    rw [text]
    show (readDigits missing (d ++ (n.exponent ++ k)) >>= _) = _
    rw [read]
    rfl

theorem readWhole_append (n : NumberForm) (ends : Ends k) :
    readWhole missing (n.whole ++ (n.fraction ++ (n.exponent ++ k))) =
      .ok (n.whole, n.fraction ++ (n.exponent ++ k)) := by
  have last : ∀ c ∈ (n.fraction ++ (n.exponent ++ k)).head?, c.isDigit = false := by
    rcases n.fraction_point with absent | ⟨d, _, text⟩
    · rw [absent]
      exact fun c hc => (n.head_exponent ends c hc).1
    · rw [text]
      intro c hc
      obtain rfl := Option.some.inj hc
      rfl
  refine readWhole_eq_ok.mpr ⟨readDigits_append n.whole_digits last, ?_⟩
  rintro ⟨zero, long⟩
  rw [n.whole_zero zero] at long
  exact long rfl

theorem numberSign_append (n : NumberForm) (s : List Char) :
    (numberSign (n.sign ++ (n.whole ++ s))).2 = n.whole ++ s := by
  rcases n.sign_minus with absent | minus
  · obtain ⟨c, d, whole⟩ := List.exists_cons_of_ne_nil n.whole_digits.1
    have digit : c.isDigit = true := n.whole_digits.2 c (whole ▸ List.mem_cons_self)
    rw [absent, whole]
    exact congrArg Prod.snd (numberSign_of_isDigit digit (d ++ s))
  · rw [minus]
    rfl

/-- **A number is taken apart up to where it ends.** -/
theorem readNumberText_append (n : NumberForm) (missing : List Char → Fault) (ends : Ends k) :
    ∃ t, readNumberText missing (n.text ++ k) = .ok (t, k) := by
  obtain ⟨x, fraction⟩ := n.readFraction_append missing ends
  obtain ⟨y, exponent⟩ := n.readExponent_append missing ends
  have sign := n.numberSign_append (n.fraction ++ (n.exponent ++ k))
  refine ⟨⟨(numberSign (n.text ++ k)).1, n.whole, x, y⟩, ?_⟩
  unfold text
  simp only [List.append_assoc]
  rw [readNumberText_eq, sign, n.readWhole_append ends, ok_bind]
  dsimp only
  rw [fraction, ok_bind]
  dsimp only
  rw [exponent]
  rfl

theorem skip (n : NumberForm) (ends : Ends k) : skipNumber (n.text ++ k) = .ok k := by
  obtain ⟨t, parts⟩ := n.readNumberText_append (fun _ => .malformed .badNumber) ends
  unfold skipNumber
  rw [parts]
  rfl

theorem text_eq_cons (n : NumberForm) : ∃ c r, n.text = c :: r ∧ startsNumber c = true := by
  unfold text
  rcases n.sign_minus with absent | minus
  · obtain ⟨c, d, whole⟩ := List.exists_cons_of_ne_nil n.whole_digits.1
    have digit : c.isDigit = true := n.whole_digits.2 c (whole ▸ List.mem_cons_self)
    rw [absent, whole]
    exact ⟨c, _, rfl, startsNumber_of_isDigit digit⟩
  · rw [minus]
    exact ⟨'-', _, rfl, rfl⟩

end NumberForm

end

/-! ## one value under open brackets -/

/-- What is still to be passed over behind a value. -/
def skipBehind (bound : List Char) (opened : List Bracket) (s : List Char) :
    Except Fault (List Char) := do
  let (opened, s) ← skipClosing opened false s
  if opened.isEmpty then pure s else skipValues bound opened s

/-- The tokens are passed over as one value, whatever brackets are open around it, and of the bound
they take no more than their number. -/
def Skips (v : List Token) : Prop :=
  ∀ (opened : List Bracket) (bound : List Char) (ts : List Token) (s : List Char), Stops ts →
    Laid (v ++ ts) s → v.length ≤ bound.length →
    ∃ rest r, bound.length ≤ rest.length + v.length ∧ Laid ts r ∧
      skipValues bound opened s = skipBehind rest opened r

theorem skips_lexeme {t : List Char}
    (pass : ∀ s k, skipSpace s = t ++ k → Ends k → skipOpening s = .ok (none, k)) :
    Skips [.lexeme t] := by
  intro opened bound ts s stops laid long
  obtain ⟨b, bound, rfl⟩ := List.exists_cons_of_length_pos long
  obtain ⟨k, front, rest⟩ := laid.lexeme
  refine ⟨bound, k, Nat.le_refl _, rest, ?_⟩
  rw [skipValues, pass s k front (rest.ends stops)]
  rfl

theorem skips_word {w : String} (h : w ∈ ["null", "true", "false"]) :
    Skips [.lexeme w.toList] := by
  refine skips_lexeme fun s k front _ => ?_
  unfold skipOpening
  rw [front]
  simp only [List.mem_cons, List.not_mem_nil, or_false] at h
  rcases h with rfl | rfl | rfl <;> rfl

theorem skips_number (n : NumberForm) : Skips [.lexeme n.text] := by
  refine skips_lexeme fun s k front ends => ?_
  have pass := n.skip ends
  obtain ⟨c, r, text, starts⟩ := n.text_eq_cons
  rw [text] at front pass
  have other : ∀ d, startsNumber d = false → c ≠ d := by
    rintro d no rfl
    rw [starts] at no
    cases no
  unfold skipOpening
  rw [front, List.cons_append]
  dsimp only
  rw [if_neg (other 'n' rfl), if_neg (other 't' rfl), if_neg (other 'f' rfl),
    if_neg (other '"' rfl), if_pos starts, ← List.cons_append, pass]
  rfl

theorem skips_string {t : List Char} (h : StringForm t) : Skips [quotedToken t] := by
  refine skips_lexeme fun s k front _ => ?_
  unfold skipOpening
  rw [front, List.cons_append, List.append_assoc]
  show (skipChars (t ++ '"' :: k)).map _ = _
  rw [skipChars_form h]
  rfl

/-! ## brackets -/

def Bracket.opening : Bracket → Char
  | .list => '['
  | .object => '{'

theorem Bracket.closing_cases (b : Bracket) :
    b.closing = ',' ∨ b.closing = ']' ∨ b.closing = '}' := by
  cases b with
  | list => exact .inr (.inl rfl)
  | object => exact .inr (.inr rfl)

theorem Bracket.comma_ne_closing (b : Bracket) : ',' ≠ b.closing := by
  cases b <;> decide

theorem skipOpening_bracket {b : Bracket} {s r : List Char} (front : skipSpace s = b.opening :: r) :
    skipOpening s = .ok (some b, r) := by
  unfold skipOpening
  rw [front]
  cases b <;> rfl

/-- An item of a list or a member of an object: behind its name, if it has one, stands a value. -/
def SkipsEntry (b : Bracket) (t : List Token) : Prop :=
  Starts b.closing t ∧ ∃ v, Skips v ∧ v.length ≤ t.length ∧
    ∀ ts s, Laid (t ++ ts) s → ∃ r, b.skipName s = .ok r ∧ Laid (v ++ ts) r

theorem skipsEntry_item {v : List Token} (starts : Starts ']' v) (skips : Skips v) :
    SkipsEntry .list v :=
  ⟨starts, v, skips, Nat.le_refl _, fun _ s laid => ⟨s, rfl, laid⟩⟩

theorem skipsEntry_member {name : List Char} {v : List Token} (form : StringForm name)
    (skips : Skips v) : SkipsEntry .object (quotedToken name :: .mark ':' :: v) := by
  have starts : (quotedToken name).head ≠ '}' := fun h => absurd h (by decide : '"' ≠ '}')
  refine ⟨⟨_, _, rfl, starts⟩, v, skips, by simp only [List.length_cons]; omega, ?_⟩
  intro ts s laid
  obtain ⟨k, front, colon⟩ := laid.lexeme
  obtain ⟨r, reads, value⟩ := colon.readColon
  refine ⟨r, ?_, value⟩
  rw [Bracket.skipName, front, List.cons_append, List.append_assoc]
  show (skipChars (name ++ '"' :: k) >>= readColon) = _
  rw [skipChars_form form, ok_bind, reads]

section
variable {b : Bracket} {opened : List Bracket} {bound : List Char} {ts : List Token} {s : List Char}

theorem skipClosing_closed (fresh : Bool) {r : List Char} (front : skipSpace s = b.closing :: r) :
    skipClosing (b :: opened) fresh s = skipClosing opened false r := by
  rw [skipClosing, front]
  exact if_pos rfl

/-- the entries behind the first, and the closing bracket -/
theorem skipBehind_entries (opened : List Bracket) {entries : List (List Token)}
    (each : ∀ t ∈ entries, SkipsEntry b t)
    (laid : Laid (entries.flatMap (.mark ',' :: ·) ++ .mark b.closing :: ts) s)
    (long : (entries.flatMap (.mark ',' :: ·)).length ≤ bound.length) :
    ∃ rest r, bound.length ≤ rest.length + (entries.flatMap (.mark ',' :: ·)).length ∧
      Laid ts r ∧ skipBehind bound (b :: opened) s = skipBehind rest opened r := by
  induction entries generalizing bound s with
  | nil =>
    obtain ⟨r, front, done⟩ := laid.mark
    refine ⟨bound, r, Nat.le_refl _, done, ?_⟩
    unfold skipBehind
    rw [skipClosing_closed false front]
  | cons t entries ih =>
    obtain ⟨⟨_, v, skips, shorter, name⟩, others⟩ := List.forall_mem_cons.mp each
    rw [List.flatMap_cons, List.length_append, List.length_cons] at long ⊢
    rw [List.flatMap_cons, List.append_assoc, List.cons_append] at laid
    obtain ⟨k, comma, behind⟩ := laid.mark
    obtain ⟨u, passed, value⟩ := name _ k behind
    have stops := stops_separated b.closing_cases entries ts
    obtain ⟨left, w, used, more, same⟩ := skips (b :: opened) bound _ u stops value (by omega)
    -- Behind the value the bracket is still the innermost one, and the next entry may follow.
    have enough : (entries.flatMap (.mark ',' :: ·)).length ≤ left.length := by omega
    obtain ⟨rest, r, usedThen, done, sameThen⟩ := ih others more enough
    refine ⟨rest, r, by omega, done, ?_⟩
    have closing : skipClosing (b :: opened) false s = .ok (b :: opened, u) := by
      rw [skipClosing, comma]
      dsimp only
      rw [if_neg b.comma_ne_closing, if_neg Bool.false_ne_true, if_pos rfl, passed]
      rfl
    have step : skipBehind bound (b :: opened) s = skipValues bound (b :: opened) u := by
      unfold skipBehind
      rw [closing]
      rfl
    rw [step, same, sameThen]

/-- **A bracket is passed over entry by entry.** -/
theorem skips_bracket {entries : List (List Token)} (each : ∀ t ∈ entries, SkipsEntry b t) :
    Skips (.mark b.opening :: (separated entries ++ [.mark b.closing])) := by
  intro opened bound ts s stops laid long
  have some := Nat.lt_of_lt_of_le (Nat.succ_pos _) long
  obtain ⟨_, bound, rfl⟩ := List.exists_cons_of_length_pos some
  rw [List.cons_append, List.append_assoc] at laid
  obtain ⟨k, front, inner⟩ := laid.mark
  -- The bracket is pushed; right behind it a comma is not allowed, so the first entry stands apart.
  have opens := skipOpening_bracket front
  simp only [List.length_cons, List.length_append] at long ⊢
  cases entries with
  | nil =>
    obtain ⟨r, close, done⟩ := inner.mark
    refine ⟨bound, r, by omega, done, ?_⟩
    rw [skipValues, opens, ok_bind]
    show (skipClosing (b :: opened) true k >>= _) = _
    rw [skipClosing_closed true close]
    rfl
  | cons t entries =>
    obtain ⟨⟨starts, v, skips, shorter, name⟩, others⟩ := List.forall_mem_cons.mp each
    rw [separated, List.length_append] at long
    rw [separated, List.append_assoc] at inner
    obtain ⟨c, k', head, other⟩ := starts.head inner
    have behind := inner.skipSpace
    rw [head] at behind
    obtain ⟨u, passed, value⟩ := name _ _ behind
    have stopsEntries := stops_separated b.closing_cases entries ts
    obtain ⟨left, w, used, more, same⟩ :=
      skips (b :: opened) bound _ u stopsEntries value (by omega)
    have enough : (entries.flatMap (.mark ',' :: ·)).length ≤ left.length := by omega
    obtain ⟨rest, r, usedThen, done, sameThen⟩ :=
      skipBehind_entries opened others more enough
    refine ⟨rest, r, by rw [separated, List.length_append]; omega, done, ?_⟩
    have closing : skipClosing (b :: opened) true k = .ok (b :: opened, u) := by
      rw [skipClosing, head]
      dsimp only
      rw [if_neg other, if_pos rfl, passed]
      rfl
    rw [skipValues, opens, ok_bind]
    show (skipClosing (b :: opened) true k >>= _) = _
    rw [closing]
    exact same.trans sameThen

end

/-! ## any value -/

theorem WellFormed.starts {v : List Token} (h : WellFormed v) : Starts ']' v := by
  cases h with
  | word h =>
    simp only [List.mem_cons, List.not_mem_nil, or_false] at h
    rcases h with rfl | rfl | rfl <;> exact ⟨_, _, rfl, by decide⟩
  | number n =>
    obtain ⟨c, r, text, starts⟩ := n.text_eq_cons
    rw [text]
    refine ⟨_, _, rfl, ?_⟩
    rintro (rfl : c = ']')
    cases starts
  | string h => exact ⟨_, _, rfl, fun eq => absurd eq (by decide : '"' ≠ ']')⟩
  | list each => exact ⟨_, _, rfl, by decide⟩
  | object names each => exact ⟨_, _, rfl, by decide⟩

/-- **Every value is passed over**, under any open brackets. -/
theorem WellFormed.skips {v : List Token} (h : WellFormed v) : Skips v := by
  induction h with
  | word h => exact skips_word h
  | number n => exact skips_number n
  | string h => exact skips_string h
  | list each ih =>
    exact skips_bracket (b := .list) fun v hv => skipsEntry_item (each v hv).starts (ih v hv)
  | object names each ih =>
    refine skips_bracket (b := .object) fun t ht => ?_
    obtain ⟨m, hm, rfl⟩ := List.mem_map.mp ht
    exact skipsEntry_member (names m hm) (ih m hm)

/-- **Behind a value that nobody asked for, the reader goes on as behind any other.** -/
theorem skipValue_of_wellFormed {v ts : List Token} {s : List Char} (h : WellFormed v)
    (stops : Stops ts) (laid : Laid (v ++ ts) s) : ∃ r, skipValue s = .ok r ∧ Laid ts r := by
  have long : v.length ≤ s.length := by
    have all := laid.length_le
    rw [List.length_append] at all
    omega
  obtain ⟨rest, r, _, done, same⟩ := h.skips [] s ts s stops laid long
  exact ⟨r, same, done⟩

end HqlWhere.Json

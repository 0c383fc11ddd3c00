import HqlWhere.Json.Reading
import HqlWhere.Proofs.Json.Readers
import HqlWhere.Proofs.Json.Strings

/-!
# How far a reader looks

A reader that succeeds has taken a front part of its text, and what stands behind does not matter:
`Local`.  Only a number has to see its end, so where nothing is left behind, no text may be put
there that goes on with a number.

* `Local.bind`, `Local.andThen`  readers one after the other;
* `Local.afterSpace`             a reader that passes over spaces first;
* `local_readChars`              strings, where an escape may take up to twelve characters at once;
* `local_readNumber`             numbers.
-/

namespace HqlWhere.Json

/-- No number goes on with this text. -/
def Ends (k : List Char) : Prop :=
  ∀ c ∈ k.head?, c.isDigit = false ∧ c ≠ '.' ∧ c ≠ 'e' ∧ c ≠ 'E'

theorem ends_cons {c : Char} (k : List Char) (digit : c.isDigit = false) (point : c ≠ '.')
    (small : c ≠ 'e') (capital : c ≠ 'E') : Ends (c :: k) := by
  intro d hd
  obtain rfl := Option.some.inj hd
  exact ⟨digit, point, small, capital⟩

/-- A reader takes a front part of its text, and looks no further. -/
def Local {α : Type} (read : Reader α) : Prop :=
  ∀ s x r, read s = .ok (x, r) →
    r <:+ s ∧ ∀ k, (r = [] → Ends k) → read (s ++ k) = .ok (x, r ++ k)

/-- The same for a reader that gives only the rest of the text. -/
def LocalRest (pass : List Char → Except Fault (List Char)) : Prop :=
  ∀ s r, pass s = .ok r → r <:+ s ∧ ∀ k, (r = [] → Ends k) → pass (s ++ k) = .ok (r ++ k)

section
variable {α β : Type}

theorem local_error (f : List Char → Fault) :
    Local fun s => (.error (f s) : Except Fault (α × List Char)) := by
  intro s x r h
  cases h

theorem local_ok (x : α) : Local fun s => .ok (x, s) := by
  intro s y r h
  obtain ⟨rfl, rfl⟩ := Prod.mk.inj (Except.ok.inj h)
  exact ⟨List.suffix_rfl, fun k _ => rfl⟩

theorem Local.ite {c : Prop} [Decidable c] {first second : Reader α} (hf : Local first)
    (hs : Local second) : Local fun s => if c then first s else second s := by
  by_cases h : c
  · simp only [if_pos h]
    exact hf
  · simp only [if_neg h]
    exact hs

/-- A reader and then another. -/
theorem Local.bind {read : Reader α} {f : α × List Char → Except Fault (β × List Char)}
    (first : Local read) (second : ∀ x, Local fun r => f (x, r)) :
    Local fun s => read s >>= f := by
  intro s y r h
  obtain ⟨⟨x, t⟩, hx, hy⟩ := bind_eq_ok.mp h
  obtain ⟨front, more⟩ := first s x t hx
  obtain ⟨back, again⟩ := second x t y r hy
  refine ⟨back.trans front, fun k ends => ?_⟩
  have endsFirst : t = [] → Ends k := by
    rintro rfl
    exact ends (List.suffix_nil.mp back)
  show (read (s ++ k) >>= f) = _
  rw [more k endsFirst, ok_bind]
  exact again k ends

theorem LocalRest.map {pass : List Char → Except Fault (List Char)} (h : LocalRest pass) (x : α) :
    Local fun s => (pass s).map (x, ·) := by
  intro s y r hy
  cases found : pass s with
  | error f =>
    dsimp only at hy
    rw [found] at hy
    cases hy
  | ok t =>
    dsimp only at hy
    rw [found] at hy
    obtain ⟨rfl, rfl⟩ := Prod.mk.inj (Except.ok.inj hy)
    obtain ⟨front, more⟩ := h s t found
    refine ⟨front, fun k ends => ?_⟩
    dsimp only
    rw [more k ends]
    rfl

/-- Something passed over and then a reader. -/
theorem LocalRest.andThen {pass : List Char → Except Fault (List Char)} {read : Reader α}
    (first : LocalRest pass) (second : Local read) : Local fun s => pass s >>= read := by
  have both : Local fun s => (pass s).map ((), ·) >>= fun x => read x.2 :=
    (first.map ()).bind fun _ => second
  have same : (fun s => (pass s).map ((), ·) >>= fun x => read x.2) = fun s => pass s >>= read := by
    funext s
    cases pass s <;> rfl
  rw [← same]
  exact both

/-! ## spaces and words -/

theorem skipSpace_suffix (s : List Char) : skipSpace s <:+ s := List.dropWhile_suffix _

theorem skipSpace_append {s : List Char} (h : skipSpace s ≠ []) (k : List Char) :
    skipSpace (s ++ k) = skipSpace s ++ k := by
  induction s with
  | nil => exact absurd rfl h
  | cons c s ih =>
    cases space : isSpace c with
    | true =>
      rw [skipSpace_cons_of_isSpace space] at h ⊢
      rw [List.cons_append, skipSpace_cons_of_isSpace space, ih h]
    | false =>
      rw [List.cons_append, skipSpace_cons_of_not_isSpace space,
        skipSpace_cons_of_not_isSpace space, List.cons_append]

/-- A reader behind spaces; it must want something. -/
theorem Local.afterSpace {read : Reader α} (h : Local read) (wants : ∀ x r, read [] ≠ .ok (x, r)) :
    Local fun s => read (skipSpace s) := by
  intro s x r hx
  have nonempty : skipSpace s ≠ [] := by
    intro empty
    dsimp only at hx
    rw [empty] at hx
    exact wants x r hx
  obtain ⟨front, more⟩ := h _ x r hx
  refine ⟨front.trans (skipSpace_suffix s), fun k ends => ?_⟩
  dsimp only
  rw [skipSpace_append nonempty]
  exact more k ends

theorem readWord_eq_ok {word s r : List Char} (h : readWord word s = .ok r) : s = word ++ r := by
  induction word generalizing s with
  | nil => exact Except.ok.inj h
  | cons c word ih =>
    cases s with
    | nil => cases h
    | cons d s =>
      rw [readWord] at h
      split at h
      · subst d
        rw [ih h, List.cons_append]
      · cases h

theorem local_readWord (word : List Char) : LocalRest (readWord word) := by
  intro s r h
  obtain rfl := readWord_eq_ok h
  refine ⟨List.suffix_append word r, fun k _ => ?_⟩
  rw [List.append_assoc, readWord_append]

/-! ## strings and numbers -/

/-- a reader that takes `front` off any text and then reads on as another -/
theorem Local.step {read next : Reader α} {s r : List Char} {x : α} (front : List Char)
    (rest : r <:+ s ∧ ∀ k, (r = [] → Ends k) → next (s ++ k) = .ok (x, r ++ k))
    (step : ∀ t, read (front ++ t) = next t) :
    r <:+ front ++ s ∧ ∀ k, (r = [] → Ends k) → read (front ++ s ++ k) = .ok (x, r ++ k) := by
  obtain ⟨back, again⟩ := rest
  refine ⟨back.trans (List.suffix_append front s), fun k ends => ?_⟩
  rw [List.append_assoc, step]
  exact again k ends

/-- a reader that tells by the first character how to go on -/
theorem Local.ofHead {read : Reader α}
    (h : ∀ s x r, read s = .ok (x, r) →
      ∃ c t next, s = c :: t ∧ Local next ∧ ∀ t, read (c :: t) = next t) : Local read := by
  intro s x r hx
  obtain ⟨c, t, next, rfl, behind, step⟩ := h s x r hx
  rw [step] at hx
  exact Local.step [c] (behind t x r hx) step

theorem local_readChars (done : List Char) : Local (readChars done) := by
  intro s x r h
  -- one case for each way a string goes on; all that do not end in a fault take a front part
  fun_induction readChars done s
  case case2 =>
    obtain ⟨rfl, rfl⟩ := Prod.mk.inj (Except.ok.inj h)
    exact ⟨List.suffix_cons _ _, fun k _ => by rw [List.cons_append, readChars]⟩
  case case9 a b c d n first notLow high a' b' c' d' s m second low ih =>
    refine Local.step ['\\', 'u', a, b, c, d, '\\', 'u', a', b', c', d'] (ih h) ?_
    intro t
    simp [readChars, first, notLow, high, second, low]
  case case13 a b c d s n value notLow notHigh ih =>
    refine Local.step ['\\', 'u', a, b, c, d] (ih h) ?_
    intro t
    simp [readChars, value, notLow, notHigh]
  case case16 e s _ notDigits c letter ih =>
    refine Local.step ['\\', e] (ih h) ?_
    intro t
    show readChars _ ('\\' :: e :: t) = _
    rw [readChars]
    · rw [letter]
    all_goals simp_all
  case case18 c s notQuote notLast _ _ notEscape plain ih =>
    have notBackslash : c ≠ '\\' := by
      intro eq
      cases s with
      | nil => exact notLast eq rfl
      | cons e s => exact notEscape e s eq rfl
    refine Local.step [c] (ih h) ?_
    intro t
    exact readChars_plain notQuote notBackslash plain _ t
  all_goals cases h

theorem local_readText : Local readText := by
  refine (local_readChars []).bind fun t => ?_
  exact local_ok (String.ofList t)

/-! ## numbers -/

theorem span_digits_append {s k : List Char} (ends : s.dropWhile Char.isDigit = [] → Ends k) :
    (s ++ k).takeWhile Char.isDigit = s.takeWhile Char.isDigit ∧
      (s ++ k).dropWhile Char.isDigit = s.dropWhile Char.isDigit ++ k := by
  induction s with
  | nil =>
    cases k with
    | nil => exact ⟨rfl, rfl⟩
    | cons c k =>
      have digit : c.isDigit = false := (ends rfl c rfl).1
      rw [List.nil_append, List.takeWhile_cons, List.dropWhile_cons, digit]
      exact ⟨rfl, rfl⟩
  | cons c s ih =>
    rw [List.cons_append, List.takeWhile_cons, List.dropWhile_cons, List.takeWhile_cons,
      List.dropWhile_cons]
    cases digit : c.isDigit with
    | false => exact ⟨rfl, rfl⟩
    | true =>
      rw [List.dropWhile_cons, digit] at ends
      obtain ⟨take, drop⟩ := ih ends
      exact ⟨congrArg (c :: ·) take, drop⟩

section
variable {missing : List Char → Fault} {s r : List Char}

theorem readDigits_eq_ok {digits : List Char} : readDigits missing s = .ok (digits, r) ↔
    s.takeWhile Char.isDigit = digits ∧ s.dropWhile Char.isDigit = r ∧ digits ≠ [] := by
  unfold readDigits
  cases found : s.takeWhile Char.isDigit with
  | nil =>
    constructor
    · intro h
      cases h
    · rintro ⟨rfl, _, nonempty⟩
      exact absurd rfl nonempty
  | cons d ds =>
    show Except.ok (d :: ds, s.dropWhile Char.isDigit) = .ok (digits, r) ↔ _
    constructor
    · intro h
      obtain ⟨rfl, rfl⟩ := Prod.mk.inj (Except.ok.inj h)
      exact ⟨rfl, rfl, List.cons_ne_nil _ _⟩
    · rintro ⟨rfl, rfl, _⟩
      rfl

theorem local_readDigits (missing : List Char → Fault) : Local (readDigits missing) := by
  intro s digits r h
  obtain ⟨rfl, rfl, nonempty⟩ := readDigits_eq_ok.mp h
  refine ⟨List.dropWhile_suffix _, fun k ends => ?_⟩
  obtain ⟨take, drop⟩ := span_digits_append ends
  exact readDigits_eq_ok.mpr ⟨take, drop, nonempty⟩

theorem local_readWhole (missing : List Char → Fault) : Local (readWhole missing) := by
  refine (local_readDigits missing).bind fun digits => ?_
  refine Local.ite ?_ (local_ok digits)
  exact local_error fun _ => .malformed .badNumber

/-- without a point nothing is read -/
theorem readFraction_of_ne (h : s.head? ≠ some '.') : readFraction missing s = .ok (none, s) := by
  cases s with
  | nil => rfl
  | cons c s =>
    rw [readFraction]
    rintro _ ⟨⟩
    exact h rfl

theorem readFraction_cases {f : Option (List Char)} (h : readFraction missing s = .ok (f, r)) :
    (s.head? ≠ some '.' ∧ f = none ∧ r = s) ∨
      ∃ t d, s = '.' :: t ∧ readDigits missing t = .ok (d, r) ∧ f = some d := by
  by_cases point : s.head? = some '.'
  · obtain ⟨t, rfl⟩ := List.head?_eq_some_iff.mp point
    obtain ⟨⟨d, u⟩, digits, h⟩ := bind_eq_ok.mp h
    obtain ⟨rfl, rfl⟩ := Prod.mk.inj (Except.ok.inj h)
    exact .inr ⟨t, d, rfl, digits, rfl⟩
  · rw [readFraction_of_ne point] at h
    obtain ⟨rfl, rfl⟩ := Prod.mk.inj (Except.ok.inj h)
    exact .inl ⟨point, rfl, rfl⟩

theorem local_readFraction (missing : List Char → Fault) : Local (readFraction missing) := by
  intro s x r h
  rcases readFraction_cases h with ⟨point, rfl, rfl⟩ | ⟨t, d, rfl, _, _⟩
  · refine ⟨List.suffix_rfl, fun k ends => readFraction_of_ne ?_⟩
    cases r with
    | nil => exact fun found => (ends rfl '.' found).2.1 rfl
    | cons c s => exact point
  · have behind : Local fun t => readDigits missing t >>= fun x => .ok (some x.1, x.2) :=
      (local_readDigits missing).bind fun digits => local_ok (some digits)
    exact Local.step ['.'] (behind t x r h) fun t => rfl

/-- without the letter nothing is read -/
theorem readExponent_of_ne (h : ∀ c ∈ s.head?, c ≠ 'e' ∧ c ≠ 'E') :
    readExponent missing s = .ok (none, s) := by
  cases s with
  | nil => rfl
  | cons c s =>
    obtain ⟨small, capital⟩ := h c rfl
    show (if c = 'e' ∨ c = 'E' then _ else _) = _
    rw [if_neg (by simp [small, capital])]

/-- The sign of an exponent and the text behind it. -/
def exponentSign (s : List Char) : Bool × List Char :=
  match s with
  | '-' :: r => (true, r)
  | '+' :: r => (false, r)
  | _ => (false, s)

theorem exponentSign_suffix (s : List Char) : (exponentSign s).2 <:+ s := by
  unfold exponentSign
  split
  · exact List.suffix_cons _ _
  · exact List.suffix_cons _ _
  · exact List.suffix_rfl

theorem exponentSign_append (h : s ≠ []) :
    exponentSign (s ++ k) = ((exponentSign s).1, (exponentSign s).2 ++ k) := by
  cases s with
  | nil => exact absurd rfl h
  | cons c s =>
    by_cases minus : c = '-'
    · subst minus
      rfl
    · by_cases plus : c = '+'
      · subst plus
        rfl
      · have other : ∀ t : List Char, exponentSign (c :: t) = (false, c :: t) := by
          intro t
          unfold exponentSign
          split <;> simp_all
        rw [List.cons_append, other, other]
        rfl

theorem readExponent_cons {c : Char} (h : c = 'e' ∨ c = 'E') (t : List Char) :
    readExponent missing (c :: t) =
      (readDigits missing (exponentSign t).2 >>= fun x =>
        .ok (some ((exponentSign t).1, x.1), x.2)) := by
  show (if c = 'e' ∨ c = 'E' then _ else _) = _
  rw [if_pos h]
  unfold exponentSign
  rfl

theorem readExponent_cases {e : Option (Bool × List Char)}
    (h : readExponent missing s = .ok (e, r)) :
    ((∀ c ∈ s.head?, c ≠ 'e' ∧ c ≠ 'E') ∧ e = none ∧ r = s) ∨
      ∃ c t d, s = c :: t ∧ (c = 'e' ∨ c = 'E') ∧
        readDigits missing (exponentSign t).2 = .ok (d, r) ∧ e = some ((exponentSign t).1, d) := by
  by_cases letter : ∃ c t, s = c :: t ∧ (c = 'e' ∨ c = 'E')
  · obtain ⟨c, t, rfl, letter⟩ := letter
    rw [readExponent_cons letter] at h
    obtain ⟨⟨d, u⟩, digits, h⟩ := bind_eq_ok.mp h
    obtain ⟨rfl, rfl⟩ := Prod.mk.inj (Except.ok.inj h)
    exact .inr ⟨c, t, d, rfl, letter, digits, rfl⟩
  · have other : ∀ c ∈ s.head?, c ≠ 'e' ∧ c ≠ 'E' := by
      intro c hc
      obtain ⟨t, rfl⟩ := List.head?_eq_some_iff.mp hc
      constructor
      · rintro rfl
        exact letter ⟨_, _, rfl, .inl rfl⟩
      · rintro rfl
        exact letter ⟨_, _, rfl, .inr rfl⟩
    rw [readExponent_of_ne other] at h
    obtain ⟨rfl, rfl⟩ := Prod.mk.inj (Except.ok.inj h)
    exact .inl ⟨other, rfl, rfl⟩

theorem local_readExponent (missing : List Char → Fault) : Local (readExponent missing) := by
  intro s x r h
  rcases readExponent_cases h with ⟨other, rfl, rfl⟩ | ⟨c, t, d, rfl, letter, digits, rfl⟩
  · refine ⟨List.suffix_rfl, fun k ends => readExponent_of_ne ?_⟩
    cases r with
    | nil => exact fun c hc => (ends rfl c hc).2.2
    | cons c s => exact other
  · -- A sign alone is no exponent, so behind the letter something is left to read.
    have nonempty : t ≠ [] := by
      rintro rfl
      cases digits
    obtain ⟨back, again⟩ := local_readDigits missing _ d r digits
    refine ⟨(back.trans (exponentSign_suffix t)).trans (List.suffix_cons c t), fun k ends => ?_⟩
    rw [List.cons_append, readExponent_cons letter, exponentSign_append nonempty, again k ends]
    rfl

/-- The sign of a number and the text behind it. -/
def numberSign (s : List Char) : Bool × List Char :=
  match s with
  | '-' :: r => (true, r)
  | _ => (false, s)

theorem numberSign_suffix (s : List Char) : (numberSign s).2 <:+ s := by
  unfold numberSign
  split
  · exact List.suffix_cons _ _
  · exact List.suffix_rfl

theorem numberSign_of_isDigit {c : Char} (digit : c.isDigit = true) (s : List Char) :
    numberSign (c :: s) = (false, c :: s) := by
  unfold numberSign
  split
  · obtain ⟨rfl, _⟩ := List.cons.inj ‹_›
    cases digit
  · rfl

theorem numberSign_append (h : s ≠ []) :
    numberSign (s ++ k) = ((numberSign s).1, (numberSign s).2 ++ k) := by
  cases s with
  | nil => exact absurd rfl h
  | cons c s =>
    by_cases minus : c = '-'
    · subst minus
      rfl
    · have other : ∀ t : List Char, numberSign (c :: t) = (false, c :: t) := by
        intro t
        unfold numberSign
        split <;> simp_all
      rw [List.cons_append, other, other]
      rfl

theorem readNumberText_eq (s : List Char) : readNumberText missing s =
    (readWhole missing (numberSign s).2 >>= fun x =>
      readFraction missing x.2 >>= fun y =>
        readExponent missing y.2 >>= fun z =>
          .ok (⟨(numberSign s).1, x.1, y.1, z.1⟩, z.2)) := rfl

/-- the parts of a number, each read where the one before ends -/
theorem readNumberText_parts {t : NumberText} (h : readNumberText missing s = .ok (t, r)) :
    ∃ s₁ s₂, readWhole missing (numberSign s).2 = .ok (t.whole, s₁) ∧
      readFraction missing s₁ = .ok (t.fraction, s₂) ∧
      readExponent missing s₂ = .ok (t.exponent, r) := by
  rw [readNumberText_eq] at h
  obtain ⟨⟨w, s₁⟩, whole, h⟩ := bind_eq_ok.mp h
  obtain ⟨⟨f, s₂⟩, fraction, h⟩ := bind_eq_ok.mp h
  obtain ⟨⟨e, s₃⟩, exponent, h⟩ := bind_eq_ok.mp h
  obtain ⟨rfl, rfl⟩ := Prod.mk.inj (Except.ok.inj h)
  exact ⟨s₁, s₂, whole, fraction, exponent⟩

theorem local_readNumberText (missing : List Char → Fault) : Local (readNumberText missing) := by
  intro s t r h
  have behind : Local fun u => readWhole missing u >>= fun x =>
      readFraction missing x.2 >>= fun y =>
        readExponent missing y.2 >>= fun z =>
          .ok ((⟨(numberSign s).1, x.1, y.1, z.1⟩ : NumberText), z.2) := by
    refine (local_readWhole missing).bind fun whole => ?_
    dsimp only
    refine (local_readFraction missing).bind fun fraction => ?_
    dsimp only
    refine (local_readExponent missing).bind fun exponent => ?_
    exact local_ok (⟨(numberSign s).1, whole, fraction, exponent⟩ : NumberText)
  have nonempty : s ≠ [] := by
    rintro rfl
    cases h
  rw [readNumberText_eq] at h
  obtain ⟨back, again⟩ := behind _ t r h
  refine ⟨back.trans (numberSign_suffix s), fun k ends => ?_⟩
  rw [readNumberText_eq, numberSign_append nonempty]
  exact again k ends

end

/-- **A number ends where nothing goes on with it.** -/
theorem local_readNumber : Local readNumber := by
  refine (local_readNumberText missingDigit).bind fun t => ?_
  cases number : t.number? with
  | none =>
    dsimp only
    rw [number]
    exact local_error fun _ => _
  | some n =>
    dsimp only
    rw [number]
    exact local_ok n

end

end HqlWhere.Json

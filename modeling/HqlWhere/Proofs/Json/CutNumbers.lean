import HqlWhere.Proofs.Decimal.Moderate
import HqlWhere.Proofs.Json.Cutting
import HqlWhere.Proofs.Json.Skipping
import HqlWhere.Proofs.Text.Numerals

/-!
# Numbers that are cut off

A number has no end of its own.  Cut off, it is another number or it misses a digit, and it is never
taken for a wrong one: its digits before the point are the only ones that make it large, and the
numbers that are written have at most twenty of them.

* `Guesses`                           a reader takes what it has for the whole;
* `guesses_readDigits` and its like   what the parts of a number are read as;
* `NumberText.Front`                  the parts of a number that is cut off; `Front.isSome_number?`
                                      gives them a value;
* `guesses_readInteger`, `guesses_readFloat`   numbers as they are written.
-/

namespace HqlWhere

/-! ## the value of digits -/

namespace Numeral

theorem ofDigitChars_lt {d : List Char} (digits : ∀ c ∈ d, c.isDigit = true) (n : Nat) :
    Nat.ofDigitChars 10 d n < (n + 1) * 10 ^ d.length := by
  induction d generalizing n with
  | nil =>
    rw [Nat.ofDigitChars_nil]
    simp
  | cons c d ih =>
    obtain ⟨digit, rest⟩ := List.forall_mem_cons.mp digits
    have small := toNat_lt_ten digit
    rw [Nat.ofDigitChars_cons]
    have tail := ih rest (10 * n + (c.toNat - '0'.toNat))
    have room := Nat.mul_le_mul_right (10 ^ d.length)
      (by omega : 10 * n + (c.toNat - '0'.toNat) + 1 ≤ (n + 1) * 10)
    rw [Nat.mul_assoc, ← Nat.pow_succ'] at room
    exact Nat.lt_of_lt_of_le tail room

theorem length_toDigits_value {d : List Char} (digits : ∀ c ∈ d, c.isDigit = true) :
    (Nat.toDigits 10 (value d)).length ≤ max 1 d.length := by
  have small := ofDigitChars_lt digits 0
  rw [Nat.zero_add, Nat.one_mul] at small
  refine (Nat.length_toDigits_le_iff (by decide) (by omega)).mpr ?_
  exact Nat.lt_of_lt_of_le small (Nat.pow_le_pow_right (by decide) (Nat.le_max_right _ _))

/-- each digit that is missing at the end makes a number ten times smaller -/
theorem ten_mul_value_le {d front : List Char} (h : front <+: d) (other : front ≠ d) :
    10 * value front ≤ value d := by
  obtain ⟨rest, rfl⟩ := h
  cases rest with
  | nil => exact absurd (List.append_nil front).symm other
  | cons c rest =>
    unfold value
    rw [Nat.ofDigitChars_append, Nat.ofDigitChars_cons]
    exact Nat.le_trans (Nat.le_add_right _ _) (le_ofDigitChars rest _)

/-- a front part of a numeral is a numeral -/
theorem write_of_append {n : Nat} {p q : List Char} (text : p ++ q = write n) (some : p ≠ []) :
    ∃ m, p = write m ∧ m ≤ n ∧ (m = 0 → n = 0) := by
  induction n using Nat.strongRecOn generalizing q with
  | ind n ih =>
    rcases List.eq_nil_or_concat q with rfl | ⟨q, c, rfl⟩
    · rw [List.append_nil] at text
      exact ⟨n, text, Nat.le_refl n, id⟩
    · unfold write at text
      rw [List.concat_eq_append, ← List.append_assoc, Nat.toDigits_eq_if (by decide)] at text
      split at text
      · have one := congrArg List.length text
        simp only [List.length_append, List.length_singleton] at one
        have more := List.length_pos_iff.mpr some
        omega
      · have front : p ++ q = write (n / 10) := (List.append_inj' text rfl).1
        obtain ⟨m, rfl, le, zero⟩ := ih (n / 10) (by omega) front
        exact ⟨m, rfl, by omega, fun h => by have := zero h; omega⟩

/-- the same for integers, where the front part may also be a minus sign alone -/
theorem writeInt_of_append {n : Int} {p q : List Char} (text : p ++ q = writeInt n)
    (some : p ≠ []) :
    p = ['-'] ∨ ∃ m, p = writeInt m ∧ (0 ≤ n → 0 ≤ m ∧ m ≤ n) ∧ (n < 0 → n ≤ m ∧ m < 0) := by
  cases n with
  | ofNat n =>
    obtain ⟨m, rfl, le, _⟩ := write_of_append text some
    refine .inr ⟨.ofNat m, rfl, fun _ => ?_, fun h => ?_⟩
    · simp only [Int.ofNat_eq_natCast]
      omega
    · simp only [Int.ofNat_eq_natCast] at h
      omega
  | negSucc n =>
    cases p with
    | nil => exact absurd rfl some
    | cons c p =>
      obtain ⟨rfl, tail⟩ := List.cons.inj text
      by_cases empty : p = []
      · exact .inl (by rw [empty])
      · obtain ⟨m, rfl, le, zero⟩ := write_of_append tail empty
        obtain ⟨m, rfl⟩ : ∃ i, m = i + 1 := ⟨m - 1, by omega⟩
        refine .inr ⟨.negSucc m, rfl, fun h => ?_, fun _ => ?_⟩
        · omega
        · omega

end Numeral

/-- a decimal is written with at most sixteen digits before its point -/
theorem Decimal.write_whole (d : Decimal) :
    ∃ w c r, d.write = w ++ c :: r ∧ w.length ≤ 16 ∧ c.isDigit = false := by
  unfold Decimal.write
  split
  · unfold Decimal.positional
    dsimp only
    split
    · exact ⟨['0'], '.', _, rfl, by decide, rfl⟩
    · split
      · refine ⟨Numeral.write d.digits ++ List.replicate _ '0', '.', ['0'], rfl, ?_, rfl⟩
        rw [List.length_append, List.length_replicate]
        omega
      · refine ⟨_, '.', _, rfl, ?_, rfl⟩
        rw [List.length_take]
        omega
  · unfold Decimal.scientific
    dsimp only
    have one : ((Numeral.write d.digits).take 1).length ≤ 16 := by
      rw [List.length_take]
      omega
    rw [List.append_assoc]
    split
    · exact ⟨_, 'e', _, rfl, one, rfl⟩
    · exact ⟨_, '.', _, rfl, one, rfl⟩

namespace Json

/-! ## readers that see no end of their own -/

/-- A reader that takes `s` for `x` and leaves `r` is given a front part of `s` only: it is starved,
or it reads `x`, or it reads something else, of which `part` holds, and leaves nothing. -/
def Guesses {α : Type} (part : α → Prop) (read : Reader α) (x : α) (s r : List Char) : Prop :=
  ∀ p k, p ++ k = s → Starved (read p) ∨ (∃ y, read p = .ok (y, []) ∧ part y) ∨
    ∃ q, read p = .ok (x, q) ∧ q ++ k = r

section
variable {α β γ : Type} {part : α → Prop} {part' : β → Prop} {s t r : List Char}

theorem guesses_ok (part : α → Prop) (x : α) (s : List Char) :
    Guesses part (fun q => .ok (x, q)) x s s := by
  intro p k text
  exact .inr (.inr ⟨p, rfl, text⟩)

/-- What comes behind a wrong guess has to starve. -/
theorem Guesses.bind {read : Reader α} {f : α × List Char → Except Fault γ} {x : α}
    {made : List Char → γ} (first : Guesses part read x s t)
    (guessed : ∀ y, part y → Starved (f (y, [])))
    (second : Waits (fun q => f (x, q)) made t r) : Waits (fun s => read s >>= f) made s r := by
  intro p k text
  dsimp only
  rcases first p k text with starved | ⟨y, found, hy⟩ | ⟨q, found, rest⟩
  · exact .inl (starved.bind f)
  · rw [found, ok_bind]
    exact .inl (guessed y hy)
  · rw [found, ok_bind]
    exact second q k rest

/-- Two readers guess, one after the other: behind a wrong guess nothing is left to read. -/
theorem Guesses.andThen {read : Reader α} {f : α × List Char → Except Fault (β × List Char)} {x : α}
    {z : β} (first : Guesses part read x s t)
    (guessed : ∀ y, part y → ∃ z, f (y, []) = .ok (z, []) ∧ part' z)
    (second : Guesses part' (fun q => f (x, q)) z t r) :
    Guesses part' (fun s => read s >>= f) z s r := by
  intro p k text
  dsimp only
  rcases first p k text with starved | ⟨y, found, hy⟩ | ⟨q, found, rest⟩
  · exact .inl (starved.bind f)
  · rw [found, ok_bind]
    exact .inr (.inl (guessed y hy))
  · rw [found, ok_bind]
    exact second q k rest

theorem Guesses.map {read : Reader α} {x : α} (h : Guesses part read x s r) (g : α → β) :
    Guesses (fun _ => True) (fun s => read s >>= fun y => .ok (g y.1, y.2)) (g x) s r :=
  h.andThen (fun y _ => ⟨g y, rfl, trivial⟩) (guesses_ok _ (g x) r)

/-- a reader that waits has nothing to guess -/
theorem Waits.guesses {read : Reader α} {x : α} (h : Waits read (x, ·) s r) :
    Guesses (fun _ => True) read x s r := by
  intro p k text
  rcases h p k text with starved | whole
  · exact .inl starved
  · exact .inr (.inr whole)

theorem Guesses.head {read next : Reader α} {x : α} {c : Char}
    (empty : Starved (read []) ∨ ∃ y, read [] = .ok (y, []) ∧ part y)
    (step : ∀ q, read (c :: q) = next q) (behind : Guesses part next x s r) :
    Guesses part read x (c :: s) r := by
  intro p k text
  cases p with
  | nil =>
    rcases empty with starved | guess
    · exact .inl starved
    · exact .inr (.inl guess)
  | cons d p =>
    obtain ⟨rfl, rest⟩ := List.cons.inj text
    rw [step]
    exact behind p k rest

/-- a sign is found, or found missing, by one character -/
theorem Guesses.sign {sign : List Char → Bool × List Char} {read : Bool → Reader α} {x : α}
    (append : ∀ p k, p ≠ [] → sign (p ++ k) = ((sign p).1, (sign p).2 ++ k))
    (empty : Starved (read (sign []).1 (sign []).2))
    (behind : Guesses part (read (sign s).1) x (sign s).2 r) :
    Guesses part (fun q => read (sign q).1 (sign q).2) x s r := by
  intro p k text
  by_cases none : p = []
  · subst none
    exact .inl empty
  · rw [← text, append p k none] at behind
    exact behind (sign p).2 k rfl

/-! ## the parts of a number -/

theorem guesses_readDigits {d : List Char} (found : readDigits missingDigit s = .ok (d, r)) :
    Guesses (fun front => front ≠ [] ∧ front <+: d) (readDigits missingDigit) d s r := by
  obtain ⟨take, drop, nonempty⟩ := readDigits_eq_ok.mp found
  intro p k text
  subst text
  by_cases all : p.dropWhile Char.isDigit = []
  · have digits : ∀ c ∈ p, c.isDigit = true := List.dropWhile_eq_nil_iff.mp all
    by_cases empty : p = []
    · subst empty
      exact .inl ⟨.value, rfl⟩
    · have whole : readDigits missingDigit (p ++ []) = .ok (p, []) :=
        readDigits_append ⟨empty, digits⟩ nofun
      rw [List.append_nil] at whole
      rw [List.takeWhile_append_of_pos digits] at take
      exact .inr (.inl ⟨p, whole, empty, take ▸ List.prefix_append p _⟩)
  · obtain ⟨takes, drops⟩ := span_digits_append (k := k) fun h => absurd h all
    rw [takes] at take
    rw [drops] at drop
    exact .inr (.inr ⟨_, readDigits_eq_ok.mpr ⟨take, rfl, nonempty⟩, drop⟩)

theorem guesses_readWhole {w : List Char} (found : readWhole missingDigit s = .ok (w, r)) :
    Guesses (· <+: w) (readWhole missingDigit) w s r := by
  obtain ⟨digits, zero⟩ := readWhole_eq_ok.mp found
  intro p k text
  rcases guesses_readDigits digits p k text with starved | ⟨v, front, some, le⟩ | ⟨q, whole, rest⟩
  · exact .inl (starved.bind _)
  · refine .inr (.inl ⟨v, readWhole_eq_ok.mpr ⟨front, ?_⟩, le⟩)
    rintro ⟨head, long⟩
    -- A zero at the head of the front part is the whole number.
    obtain ⟨tail, rfl⟩ := le
    obtain ⟨v, rfl⟩ := List.head?_eq_some_iff.mp head
    have one : ('0' :: v ++ tail).length = 1 := by
      by_contra more
      exact zero ⟨rfl, more⟩
    simp only [List.length_append, List.length_cons] at one long
    omega
  · exact .inr (.inr ⟨q, readWhole_eq_ok.mpr ⟨whole, zero⟩, rest⟩)

theorem head?_of_append {p k : List Char} {c : Char} (h : p.head? = some c) :
    (p ++ k).head? = some c := by
  obtain ⟨t, rfl⟩ := List.head?_eq_some_iff.mp h
  rfl

theorem guesses_readFraction {f : Option (List Char)}
    (found : readFraction missingDigit s = .ok (f, r)) :
    Guesses (fun _ => True) (readFraction missingDigit) f s r := by
  rcases readFraction_cases found with ⟨point, rfl, rfl⟩ | ⟨t, d, rfl, digits, rfl⟩
  · intro p k text
    refine .inr (.inr ⟨p, readFraction_of_ne ?_, text⟩)
    intro front
    exact point (text ▸ head?_of_append front)
  · have behind := (guesses_readDigits digits).map some
    exact Guesses.head (.inr ⟨none, rfl, trivial⟩) (fun _ => rfl) behind

/-- An exponent that is cut off: there is none, or it misses digits. -/
inductive ExponentFront (e : Option (Bool × List Char)) : Option (Bool × List Char) → Prop
  | absent : ExponentFront e none
  | shorter {negative : Bool} {d front : List Char} (exponent : e = some (negative, d))
      (le : front <+: d) : ExponentFront e (some (negative, front))

/-- The digits of an exponent behind its sign. -/
def readPower (negative : Bool) : Reader (Option (Bool × List Char)) := fun s =>
  readDigits missingDigit s >>= fun x => .ok (some (negative, x.1), x.2)

theorem guesses_readExponent {e : Option (Bool × List Char)}
    (found : readExponent missingDigit s = .ok (e, r)) :
    Guesses (ExponentFront e) (readExponent missingDigit) e s r := by
  rcases readExponent_cases found with ⟨other, rfl, rfl⟩ | ⟨c, t, d, rfl, letter, digits, rfl⟩
  · intro p k text
    refine .inr (.inr ⟨p, readExponent_of_ne ?_, text⟩)
    intro c front
    exact other c (text ▸ head?_of_append front)
  · have behind : Guesses (ExponentFront (some ((exponentSign t).1, d)))
        (readPower (exponentSign t).1) (some ((exponentSign t).1, d)) (exponentSign t).2 r :=
      (guesses_readDigits digits).andThen (fun front h => ⟨_, rfl, .shorter rfl h.2⟩)
        (guesses_ok _ (some ((exponentSign t).1, d)) r)
    have signed := Guesses.sign (fun p k => exponentSign_append) ⟨.value, rfl⟩ behind
    exact Guesses.head (.inr ⟨none, rfl, .absent⟩) (readExponent_cons letter) signed

/-- The parts of a number that is cut off: no exponent and perhaps fewer digits before the point, or
all but some digits of the exponent. -/
inductive NumberText.Front (t : NumberText) : NumberText → Prop
  | flat {u : NumberText} (whole : u.whole <+: t.whole) (exponent : u.exponent = none) : Front t u
  | scaled {negative : Bool} {d front : List Char} (exponent : t.exponent = some (negative, d))
      (le : front <+: d) : Front t { t with exponent := some (negative, front) }

/-- The parts of a number behind its sign. -/
def readUnsigned (negative : Bool) : Reader NumberText := fun s =>
  readWhole missingDigit s >>= fun x => readFraction missingDigit x.2 >>= fun y =>
    readExponent missingDigit y.2 >>= fun z => .ok (⟨negative, x.1, y.1, z.1⟩, z.2)

theorem guesses_readUnsigned {negative : Bool} {t : NumberText}
    (found : readUnsigned negative s = .ok (t, r)) :
    Guesses t.Front (readUnsigned negative) t s r := by
  obtain ⟨⟨w, s₁⟩, whole, found⟩ := bind_eq_ok.mp found
  obtain ⟨⟨f, s₂⟩, fraction, found⟩ := bind_eq_ok.mp found
  obtain ⟨⟨e, s₃⟩, exponent, found⟩ := bind_eq_ok.mp found
  obtain ⟨rfl, rfl⟩ := Prod.mk.inj (Except.ok.inj found)
  refine Guesses.andThen (guesses_readWhole whole) ?_ ?_
  · exact fun v le => ⟨_, rfl, .flat le rfl⟩
  dsimp only
  refine Guesses.andThen (guesses_readFraction fraction) ?_ ?_
  · exact fun g _ => ⟨_, rfl, .flat List.prefix_rfl rfl⟩
  dsimp only
  refine Guesses.andThen (guesses_readExponent exponent) ?_ ?_
  · intro power front
    refine ⟨_, rfl, ?_⟩
    cases front with
    | absent => exact .flat List.prefix_rfl rfl
    | shorter exponent le => exact .scaled exponent le
  · exact guesses_ok _ (⟨negative, w, f, e⟩ : NumberText) s₃

theorem guesses_readNumberText {t : NumberText}
    (found : readNumberText missingDigit s = .ok (t, r)) :
    Guesses t.Front (readNumberText missingDigit) t s r :=
  Guesses.sign (fun _ _ => numberSign_append) ⟨.value, rfl⟩ (guesses_readUnsigned found)

end

/-! ## the value of a number that is cut off -/

namespace NumberText

variable {t u : NumberText}

/-- All digits but those of the exponent. -/
def digits (t : NumberText) : List Char := t.whole ++ t.fraction.getD []

theorem digits_of_read {missing : List Char → Fault} {s r : List Char}
    (found : readNumberText missing s = .ok (t, r)) : ∀ c ∈ t.digits, c.isDigit = true := by
  obtain ⟨s₁, s₂, whole, fraction, _⟩ := readNumberText_parts found
  have take : ∀ {s d r}, readDigits missing s = .ok (d, r) → ∀ c ∈ d, c.isDigit = true := by
    intro s d r read
    obtain ⟨rfl, _⟩ := readDigits_eq_ok.mp read
    exact fun c => List.mem_takeWhile_imp
  refine List.forall_mem_append.mpr ⟨take (readWhole_eq_ok.mp whole).1, ?_⟩
  rcases readFraction_cases fraction with ⟨_, none, _⟩ | ⟨u, d, _, digits, some⟩
  · rw [none]
    nofun
  · rw [some]
    exact take digits

/-- The exponent as an integer. -/
def power (t : NumberText) : Int :=
  match t.exponent with
  | none => 0
  | some (true, digits) => -(Numeral.value digits : Int)
  | some (false, digits) => Numeral.value digits

theorem float?_eq (t : NumberText) : t.float? =
    Binary64.ofDecimal? t.negative (Numeral.value t.digits)
      (t.power - (t.fraction.getD []).length) := rfl

theorem isSome_number? (h : t.float?.isSome = true) : t.number?.isSome = true := by
  unfold number?
  split
  · rfl
  · rwa [Option.isSome_map]

/-- the digits of the value are those before the point and those behind it -/
theorem length_value_le (digits : ∀ c ∈ t.digits, c.isDigit = true) (few : t.whole.length ≤ 20) :
    (Nat.toDigits 10 (Numeral.value t.digits)).length ≤ 20 + (t.fraction.getD []).length := by
  have length := Numeral.length_toDigits_value digits
  have split : t.digits.length = t.whole.length + (t.fraction.getD []).length :=
    List.length_append
  omega

/-- without an exponent the digits before the point tell the size -/
theorem isSome_of_flat (digits : ∀ c ∈ t.digits, c.isDigit = true) (few : t.whole.length ≤ 20)
    (exponent : t.exponent = none) : t.number?.isSome = true := by
  have length := length_value_le digits few
  have power : t.power = 0 := by
    unfold NumberText.power
    rw [exponent]
  apply isSome_number?
  rw [float?_eq, power]
  exact Binary64.isSome_ofDecimal? _ (by omega)

theorem isSome_float? (h : t.number?.isSome = true) (exponent : t.exponent.isSome = true) :
    t.float?.isSome = true := by
  have integer : t.integer? = none := if_pos (.inr exponent)
  rw [number?, integer] at h
  rwa [Option.isSome_map] at h

/-- an exponent that misses digits is at most a tenth of what it was -/
theorem isSome_of_scaled (digits : ∀ c ∈ t.digits, c.isDigit = true) (few : t.whole.length ≤ 20)
    (value : t.number?.isSome = true) {negative : Bool} {d front : List Char}
    (exponent : t.exponent = some (negative, d)) (le : front <+: d) (other : front ≠ d) :
    (number? { t with exponent := some (negative, front) }).isSome = true := by
  have whole := isSome_float? value (by rw [exponent]; rfl)
  rw [float?_eq] at whole
  apply isSome_number?
  rw [float?_eq]
  show (Binary64.ofDecimal? t.negative (Numeral.value t.digits) _).isSome = true
  by_cases zero : Numeral.value t.digits = 0
  · rw [zero]
    exact Binary64.isSome_ofDecimal?_zero _ _
  · have most := Binary64.le_of_isSome whole zero
    have tenth := Numeral.ten_mul_value_le le other
    have length := length_value_le digits few
    apply Binary64.isSome_ofDecimal?
    unfold power at most ⊢
    rw [exponent] at most
    dsimp only
    cases negative with
    | true =>
      dsimp only at most ⊢
      omega
    | false =>
      dsimp only at most ⊢
      omega

/-- **What a number of few digits before its point is cut off to has a value.** -/
theorem Front.isSome_number? (front : t.Front u) (digits : ∀ c ∈ t.digits, c.isDigit = true)
    (cut : ∀ c ∈ u.digits, c.isDigit = true) (few : t.whole.length ≤ 20)
    (value : t.number?.isSome = true) : u.number?.isSome = true := by
  cases front with
  | flat whole exponent => exact isSome_of_flat cut (Nat.le_trans whole.length_le few) exponent
  | @scaled negative d front exponent le =>
    by_cases same : front = d
    · subst same
      rw [← exponent]
      exact value
    · exact isSome_of_scaled digits few value exponent le same

end NumberText

/-! ## numbers with their values -/

section
variable {s r : List Char}

/-- The digits before the point of a number. -/
def wholeDigits (s : List Char) : List Char := (numberSign s).2.takeWhile Char.isDigit

theorem readNumber_eq_ok {n : Number} : readNumber s = .ok (n, r) ↔
    ∃ t, readNumberText missingDigit s = .ok (t, r) ∧ t.number? = some n := by
  unfold readNumber
  rw [bind_eq_ok]
  constructor
  · rintro ⟨⟨t, u⟩, form, h⟩
    dsimp only at h
    split at h
    · obtain ⟨rfl, rfl⟩ := Prod.mk.inj (Except.ok.inj h)
      exact ⟨t, form, ‹_›⟩
    · cases h
  · rintro ⟨t, form, value⟩
    refine ⟨_, form, ?_⟩
    dsimp only
    rw [value]
    rfl

theorem whole_eq_of_read {t : NumberText} (found : readNumberText missingDigit s = .ok (t, r)) :
    t.whole = wholeDigits s := by
  obtain ⟨s₁, s₂, whole, _⟩ := readNumberText_parts found
  exact (readDigits_eq_ok.mp (readWhole_eq_ok.mp whole).1).1.symm

/-- **A number of few digits before its point is a number wherever it is cut, or misses one.** -/
theorem guesses_readNumber {n : Number} (found : readNumber s = .ok (n, r))
    (few : (wholeDigits s).length ≤ 20) : Guesses (fun _ => True) readNumber n s r := by
  obtain ⟨t, form, value⟩ := readNumber_eq_ok.mp found
  rw [← whole_eq_of_read form] at few
  intro p k text
  rcases guesses_readNumberText form p k text with starved | ⟨u, cut, front⟩ | ⟨q, same, rest⟩
  · exact .inl (starved.bind _)
  · have some := front.isSome_number? (NumberText.digits_of_read form)
      (NumberText.digits_of_read cut) few (by rw [value]; rfl)
    obtain ⟨m, hm⟩ := Option.isSome_iff_exists.mp some
    exact .inr (.inl ⟨m, readNumber_eq_ok.mpr ⟨u, cut, hm⟩, trivial⟩)
  · exact .inr (.inr ⟨q, readNumber_eq_ok.mpr ⟨t, same, value⟩, rest⟩)

theorem guesses_readNumeric (expected : String) {n : Number} {c : Char}
    (starts : startsNumber c = true) (found : readNumeric expected (c :: s) = .ok (n, r))
    (few : (wholeDigits (c :: s)).length ≤ 20) :
    Guesses (fun _ => True) (readNumeric expected) n (c :: s) r := by
  rw [readNumeric_cons starts] at found
  intro p k text
  cases p with
  | nil => exact .inl ⟨.value, rfl⟩
  | cons d p =>
    have here := guesses_readNumber found few (d :: p) k text
    obtain ⟨rfl, _⟩ := List.cons.inj text
    rwa [← readNumeric_cons starts] at here

/-- The floating point number that a number is taken for. -/
def Number.nearest : Number → Binary64
  | .integer n => .ofInt n
  | .float x => x

theorem readFloat_eq (expected : String) (s : List Char) :
    readFloat expected s = (readNumeric expected s >>= fun y => .ok (y.1.nearest, y.2)) := by
  show (readNumeric expected s >>= _) = _
  congr 1
  funext ⟨n, r⟩
  cases n <;> rfl

theorem guesses_readFloat (expected : String) {x : Binary64} {c : Char}
    (starts : startsNumber c = true) (found : readFloat expected (c :: s) = .ok (x, r))
    (few : (wholeDigits (c :: s)).length ≤ 20) :
    Guesses (fun _ => True) (readFloat expected) x (c :: s) r := by
  rw [readFloat_eq] at found
  obtain ⟨⟨n, u⟩, number, h⟩ := bind_eq_ok.mp found
  obtain ⟨rfl, rfl⟩ := Prod.mk.inj (Except.ok.inj h)
  rw [funext (readFloat_eq expected)]
  exact (guesses_readNumeric expected starts number few).map Number.nearest

end

/-! ## numbers as they are written -/

/-- an integer that is cut off is a smaller one, so it is not too large -/
theorem guesses_readInteger (expected : String) {n low high : Int}
    (least : -0x8000000000000000 ≤ n) (greatest : n < 0x10000000000000000) (atLeast : low ≤ n)
    (atMost : n ≤ high) (around : low ≤ 0 ∧ 0 ≤ high) {k : List Char} (ends : Ends k) :
    Guesses (fun _ => True) (readInteger low high expected) n (Numeral.writeInt n ++ k) k := by
  intro p rest text
  rcases List.append_eq_append_iff.mp text with ⟨q, whole, _⟩ | ⟨q, rfl, tail⟩
  · by_cases empty : p = []
    · subst empty
      exact .inl ⟨.value, rfl⟩
    rcases Numeral.writeInt_of_append whole.symm empty with rfl | ⟨m, rfl, above, below⟩
    · exact .inl ⟨.value, rfl⟩
    · have alone := readInteger_writeInt expected (by omega) (by omega) (by omega : low ≤ m)
        (by omega : m ≤ high) (k := []) nofun
      rw [List.append_nil] at alone
      exact .inr (.inl ⟨m, alone, trivial⟩)
  · have endsHere : Ends q := by
      intro c hc
      exact ends c (tail ▸ head?_of_append hc)
    exact .inr (.inr ⟨q, readInteger_writeInt expected least greatest atLeast atMost endsHere,
      tail.symm⟩)

theorem length_takeWhile_le {w r : List Char} {c : Char} (mark : c.isDigit = false) :
    ((w ++ c :: r).takeWhile Char.isDigit).length ≤ w.length := by
  induction w with
  | nil =>
    rw [List.nil_append, List.takeWhile_cons, mark]
    exact Nat.le_refl 0
  | cons d w ih =>
    rw [List.cons_append, List.takeWhile_cons]
    split
    · exact Nat.succ_le_succ ih
    · exact Nat.zero_le _

theorem length_wholeDigits_write (x : Binary64) (k : List Char) :
    (wholeDigits (x.write ++ k)).length ≤ 16 := by
  obtain ⟨c, r, text, digit⟩ := (Shortest.decimal x).write_eq_cons
  obtain ⟨w, mark, t, whole, few, notDigit⟩ := Decimal.write_whole (Shortest.decimal x)
  have unsigned : (numberSign (x.write ++ k)).2 = (Shortest.decimal x).write ++ k := by
    unfold Binary64.write
    dsimp only
    split
    · rfl
    · rw [text, List.cons_append, numberSign_of_isDigit digit]
  rw [wholeDigits, unsigned, whole, List.append_assoc, List.cons_append]
  exact Nat.le_trans (length_takeWhile_le notDigit) few

/-- **A floating point number that survives is a number wherever it is cut, or misses a digit.**
What stands behind it is what its own text leaves, at most spaces. -/
theorem guesses_writeFloat {x : Binary64} (k : List Char)
    (survives : Json.readAll (readFloat "f64") ((Number.float x).write []) = .ok x) :
    ∃ t, skipSpace t = [] ∧
      Guesses (fun _ => True) (readFloat "f64") x ((Number.float x).write ('}' :: k))
        (t ++ '}' :: k) := by
  obtain ⟨t, alone, blank⟩ := readAll_eq_ok.mp survives
  obtain ⟨_, more⟩ := local_readFloat "f64" _ _ _ alone
  have found := more ('}' :: k) fun _ => ends_brace k
  rw [← Number.write_append, List.nil_append] at found
  refine ⟨t, blank, ?_⟩
  unfold Number.write at found alone ⊢
  dsimp only at found alone ⊢
  split at alone
  · rw [if_pos ‹_›] at found ⊢
    obtain ⟨c, r, text, starts⟩ := startsNumber_write x
    have few := Nat.le_trans (length_wholeDigits_write x ('}' :: k)) (by decide : 16 ≤ 20)
    rw [text, List.cons_append] at found few ⊢
    exact guesses_readFloat "f64" starts found few
  · cases alone

end Json

end HqlWhere

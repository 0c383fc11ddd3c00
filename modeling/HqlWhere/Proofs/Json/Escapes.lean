import HqlWhere.Proofs.Json.Brackets
import HqlWhere.Proofs.Uuid
import Mathlib.Data.List.Forall2

/-!
# Strings in any spelling

JSON leaves it open how a character of a string is spelled: as itself, by a letter behind a
backslash, by four hexadecimal digits in either case, or by two such escapes.

* `Recased`            the same text up to the case of ASCII letters;
* `SpellsChar`         the ways to spell a character, `Spells` those to spell a text;
* `readText_spelled`   a string is read as what it spells, however it spells it;
* `spells_write`       the writer's spelling is one of them.
-/

namespace HqlWhere

/-- The same text, each ASCII letter in either case. -/
def Recased (s t : List Char) : Prop :=
  List.Forall₂ (fun c d => d = c.toUpper ∨ d = c.toLower) s t

/-! ## hexadecimal digits -/

theorem Hex.value?_recased {d : Nat} (h : d < 16) {c : Char}
    (cases : c = (Nat.digitChar d).toUpper ∨ c = (Nat.digitChar d).toLower) :
    value? c = some d := by
  have upper : ∀ d : Fin 16, value? (Nat.digitChar d).toUpper = some d.val := by decide
  have lower : ∀ d : Fin 16, value? (Nat.digitChar d).toLower = some d.val := by decide
  rcases cases with rfl | rfl
  · exact upper ⟨d, h⟩
  · exact lower ⟨d, h⟩

theorem Hex.continued?_recased {s t : List Char} (same : Recased s t)
    (digits : ∀ c ∈ s, ∃ d < 16, c = Nat.digitChar d) (n : Nat) :
    continued? n t = continued? n s := by
  induction same generalizing n with
  | nil => rfl
  | cons first rest ih =>
    obtain ⟨⟨d, hd, rfl⟩, others⟩ := List.forall_mem_cons.mp digits
    rw [continued?, continued?, value?_recased hd first, value?_digitChar hd]
    exact ih others _

namespace Json

/-- Four hexadecimal digits of a number, in either case. -/
def SpellsCode (n : Nat) (t : List Char) : Prop := n < 0x10000 ∧ Recased (Hex.digits 4 n) t

theorem SpellsCode.read {n : Nat} {t : List Char} (h : SpellsCode n t) :
    ∃ a b c d, t = [a, b, c, d] ∧ fourHex? a b c d = some n := by
  obtain ⟨small, same⟩ := h
  have value : Hex.number? t = some n := by
    have digits : Hex.number? t = Hex.number? (Hex.digits 4 n) :=
      Hex.continued?_recased same (fun _ => Hex.mem_digits) 0
    rw [digits, Hex.number?_digits, Nat.mod_eq_of_lt small]
  have four : t.length = 4 := same.length_eq.symm.trans (Hex.length_digits 4 n)
  match t, four with
  | [a, b, c, d], _ => exact ⟨a, b, c, d, rfl, value⟩

/-! ## characters -/

/-- What a letter behind a backslash stands for. -/
def letterEscapes : List (Char × Char) :=
  [('"', '"'), ('\\', '\\'), ('/', '/'), ('b', '\x08'), ('f', '\x0c'), ('n', '\n'), ('r', '\r'),
    ('t', '\t')]

theorem escaped?_of_mem {c e : Char} (h : (e, c) ∈ letterEscapes) :
    escaped? e = some c ∧ e ≠ 'u' := by
  have table : ∀ p ∈ letterEscapes, escaped? p.1 = some p.2 ∧ p.1 ≠ 'u' := by decide
  exact table _ h

/-- The ways to spell a character in a string. -/
inductive SpellsChar : Char → List Char → Prop
  | plain {c : Char} (quote : c ≠ '"') (backslash : c ≠ '\\') (printable : 0x20 ≤ c.toNat) :
      SpellsChar c [c]
  | letter {c e : Char} (h : (e, c) ∈ letterEscapes) : SpellsChar c ['\\', e]
  | code {c : Char} {t : List Char} (h : SpellsCode c.toNat t) : SpellsChar c ('\\' :: 'u' :: t)
  /-- A character beyond the first 65536 takes two codes with ten bits of its number in each. -/
  | pair {c : Char} {n high low : Nat} {s t : List Char} (number : c.toNat = 0x10000 + n)
      (front : high = 0xD800 + n / 0x400) (back : low = 0xDC00 + n % 0x400)
      (first : SpellsCode high s) (second : SpellsCode low t) :
      SpellsChar c ('\\' :: 'u' :: s ++ '\\' :: 'u' :: t)

inductive Spells : List Char → List Char → Prop
  | nil : Spells [] []
  | cons {c : Char} {s t u : List Char} (first : SpellsChar c t) (rest : Spells s u) :
      Spells (c :: s) (t ++ u)

theorem readChars_escape {c e : Char} (letter : escaped? e = some c) (other : e ≠ 'u')
    (done k : List Char) : readChars done ('\\' :: e :: k) = readChars (c :: done) k := by
  rw [readChars]
  · rw [letter]
  all_goals simp_all

theorem char_not_half (c : Char) : isLow c.toNat = false ∧ isHigh c.toNat = false := by
  have valid : c.toNat < 0xD800 ∨ (0xDFFF < c.toNat ∧ c.toNat < 0x110000) := c.valid
  simp only [isLow, isHigh, Bool.and_eq_false_iff, decide_eq_false_iff_not]
  omega

/-- **A spelled character is read as the character**, in front of any text. -/
theorem SpellsChar.read {c : Char} {t : List Char} (h : SpellsChar c t) (done k : List Char) :
    readChars done (t ++ k) = readChars (c :: done) k := by
  cases h with
  | plain quote backslash printable =>
    exact readChars_plain quote backslash (Nat.not_lt.mpr printable) done k
  | letter h =>
    obtain ⟨letter, other⟩ := escaped?_of_mem h
    exact readChars_escape letter other done k
  | code h =>
    obtain ⟨a, b, c', d, rfl, value⟩ := h.read
    obtain ⟨notLow, notHigh⟩ := char_not_half c
    show readChars done ('\\' :: 'u' :: a :: b :: c' :: d :: k) = _
    rw [readChars, value]
    dsimp only
    rw [notLow, notHigh, if_neg Bool.false_ne_true, if_neg Bool.false_ne_true, Char.ofNat_toNat]
  | @pair n high low _ _ number front back first second =>
    obtain ⟨a, b, c', d, rfl, highValue⟩ := first.read
    obtain ⟨a', b', c'', d', rfl, lowValue⟩ := second.read
    have valid : c.toNat < 0xD800 ∨ (0xDFFF < c.toNat ∧ c.toNat < 0x110000) := c.valid
    have isFirst : isLow high = false ∧ isHigh high = true := by
      simp only [isLow, isHigh, Bool.and_eq_false_iff, Bool.and_eq_true, decide_eq_false_iff_not,
        decide_eq_true_eq]
      omega
    have isSecond : isLow low = true := by
      simp only [isLow, Bool.and_eq_true, decide_eq_true_eq]
      omega
    have joined : pairChar high low = c := by
      have parts : 0x10000 + (high - 0xD800) * 0x400 + (low - 0xDC00) = c.toNat := by omega
      rw [pairChar, parts, Char.ofNat_toNat]
    show readChars done ('\\' :: 'u' :: a :: b :: c' :: d :: '\\' :: 'u' :: a' :: b' :: c'' ::
      d' :: k) = _
    simp [readChars, highValue, isFirst, lowValue, isSecond, joined]

theorem readChars_spelled {s t : List Char} (h : Spells s t) (done k : List Char) :
    readChars done (t ++ '"' :: k) = .ok (done.reverse ++ s, k) := by
  induction h generalizing done with
  | nil => rw [List.nil_append, readChars, List.append_nil]
  | cons first rest ih =>
    rw [List.append_assoc, first.read, ih, List.reverse_cons, List.append_assoc]
    rfl

theorem readText_spelled {s : String} {t : List Char} (h : Spells s.toList t) (k : List Char) :
    readText (t ++ '"' :: k) = .ok (s, k) := by
  unfold readText
  rw [readChars_spelled h]
  show Except.ok (String.ofList s.toList, k) = _
  rw [String.ofList_toList]

/-! ## the writer's spelling -/

theorem recased_digits (count n : Nat) : Recased (Hex.digits count n) (Hex.digits count n) := by
  have lower : ∀ d : Fin 16, Nat.digitChar d = (Nat.digitChar d).toLower := by decide
  apply List.forall₂_same.mpr
  intro c hc
  obtain ⟨d, hd, rfl⟩ := Hex.mem_digits hc
  exact .inr (lower ⟨d, hd⟩)

theorem mem_letterEscapes {c e : Char} (h : escapeLetter? c = some e) :
    (e, c) ∈ letterEscapes := by
  unfold escapeLetter? at h
  repeat' split at h
  rotate_right
  · cases h
  all_goals
    subst c
    obtain rfl := Option.some.inj h
    decide

theorem spellsChar_write (c : Char) : SpellsChar c (writeChar c []) := by
  unfold writeChar
  cases letter : escapeLetter? c with
  | some e => exact .letter (mem_letterEscapes letter)
  | none =>
    dsimp only
    split
    · rw [List.append_nil]
      exact .code ⟨by omega, recased_digits 4 c.toNat⟩
    · refine .plain ?_ ?_ (by omega)
      · rintro rfl
        cases letter
      · rintro rfl
        cases letter

theorem spells_write (s : List Char) : Spells s (s.foldr writeChar []) := by
  induction s with
  | nil => exact .nil
  | cons c s ih =>
    have front : writeChar c (s.foldr writeChar []) = writeChar c [] ++ s.foldr writeChar [] :=
      foldr_writeChar_append [c] [] _
    rw [List.foldr_cons, front]
    exact .cons (spellsChar_write c) ih

end Json

end HqlWhere

import HqlWhere.Json.Strings
import HqlWhere.Json.Writing

/-!
# Written strings are read back

`readText_write`: behind its opening quote, a written string is read as what was written, and the
reader stands behind its closing quote, whatever the text goes on with.  One character is written in
one of three ways, as itself, by a letter or by four digits, and each is undone by one step of the
reader (`readChars_writeChar`).
-/

namespace HqlWhere.Json

/-- a character that is written by a letter -/
theorem readChars_letter {c e : Char} (h : escapeLetter? c = some e) (done k : List Char) :
    readChars done ('\\' :: e :: k) = readChars (c :: done) k := by
  unfold escapeLetter? at h
  repeat' split at h
  all_goals
    first
    | subst c
      obtain rfl := Option.some.inj h
      rw [readChars]
      · rfl
      all_goals simp
    | cases h

/-- a character that is written by four digits -/
theorem readChars_digits {c : Char} (h : c.toNat < 0x20) (done k : List Char) :
    readChars done ('\\' :: 'u' :: (Hex.digits 4 c.toNat ++ k)) = readChars (c :: done) k := by
  have value : Hex.number? (Hex.digits 4 c.toNat) = some c.toNat := by
    have small : c.toNat < Nat.pow 16 4 := Nat.lt_trans h (by decide)
    rw [Hex.number?_digits, Nat.mod_eq_of_lt small]
  have notLow : isLow c.toNat = false := by
    simp only [isLow, Bool.and_eq_false_iff, decide_eq_false_iff_not]
    omega
  have notHigh : isHigh c.toNat = false := by
    simp only [isHigh, Bool.and_eq_false_iff, decide_eq_false_iff_not]
    omega
  simp only [Hex.digits, List.nil_append, List.cons_append] at value ⊢
  rw [readChars, fourHex?, value]
  simp [notLow, notHigh, Char.ofNat_toNat]

/-- a character that is written as itself -/
theorem readChars_plain {c : Char} (notQuote : c ≠ '"') (notEscape : c ≠ '\\')
    (h : ¬ c.toNat < 0x20) (done k : List Char) :
    readChars done (c :: k) = readChars (c :: done) k := by
  rw [readChars]
  · rw [if_neg h]
  all_goals simp_all

theorem readChars_writeChar (c : Char) (done k : List Char) :
    readChars done (writeChar c k) = readChars (c :: done) k := by
  unfold writeChar
  cases letter : escapeLetter? c with
  | some e => exact readChars_letter letter done k
  | none =>
    dsimp only
    split
    · exact readChars_digits ‹_› done k
    · refine readChars_plain ?_ ?_ ‹_› done k
      · rintro rfl
        cases letter
      · rintro rfl
        cases letter

theorem readChars_write (s done k : List Char) :
    readChars done (s.foldr writeChar ('"' :: k)) = .ok (done.reverse ++ s, k) := by
  induction s generalizing done with
  | nil => rw [List.foldr_nil, readChars, List.append_nil]
  | cons c s ih =>
    rw [List.foldr_cons, readChars_writeChar, ih, List.reverse_cons, List.append_assoc]
    rfl

/-- **A written string is read back**, in front of any text. -/
theorem readText_write (s : String) (k : List Char) :
    readText (s.toList.foldr writeChar ('"' :: k)) = .ok (s, k) := by
  unfold readText
  rw [readChars_write]
  show Except.ok (String.ofList s.toList, k) = _
  rw [String.ofList_toList]

end HqlWhere.Json

import HqlWhere.Proofs.Command.Sources
import HqlWhere.Proofs.Text.Numerals
import HqlWhere.Proofs.Text.Words

/-!
# The limit in the environment variable

The variable tells a limit if its value, between white space, is the numeral of a 64-bit word.
Every other value is told back as it is.

* `VariableSpells`          which values stand for which numbers;
* `variableLimit_exact`     the limit of every value, and that computing it in words is safe.
-/

namespace HqlWhere

/-- Between white space, the value is a numeral of `n`: a plus sign or nothing, and then digits. -/
def VariableSpells (value : String) (n : Nat) : Prop :=
  ∃ word, Text.Strips value.toList word ∧ Word.Spells word n

section
variable {value : String}

theorem variableSpells_iff {n : Nat} :
    VariableSpells value n ↔ Word.Spells (Text.trim value.toList) n := by
  constructor
  · rintro ⟨word, strips, spells⟩
    rwa [Text.strips_iff.mp strips]
  · intro spells
    exact ⟨_, Text.strips_trim _, spells⟩

theorem VariableSpells.unique {m n : Nat} (hm : VariableSpells value m)
    (hn : VariableSpells value n) : m = n :=
  (variableSpells_iff.mp hm).unique (variableSpells_iff.mp hn)

/-- The limit of a value whose word is read by `read`. -/
def limitBy (read : List Char → Option UInt64) (value : String) :
    Except Failure (Option UInt64) :=
  match read (Text.trim value.toList) with
  | some n => .ok (some n)
  | none => .error (.invalidEnv value)

theorem variableLimit_some (value : String) :
    variableLimit (some value) = limitBy Word.ofText? value := rfl

theorem limitBy_eq_ok {read : List Char → Option UInt64} {limit : Option UInt64} :
    limitBy read value = .ok limit ↔
      ∃ n, limit = some n ∧ read (Text.trim value.toList) = some n := by
  unfold limitBy
  cases read (Text.trim value.toList) with
  | none => simp
  | some n => simp [eq_comm]

theorem limitBy_eq_error {read : List Char → Option UInt64} {f : Failure} :
    limitBy read value = .error f ↔
      f = .invalidEnv value ∧ read (Text.trim value.toList) = none := by
  unfold limitBy
  cases read (Text.trim value.toList) with
  | none => simp [eq_comm]
  | some n => simp

end

/-- **The limit of the variable is read exactly.**  A value tells a limit if and only if between
white space it is a plus sign or nothing and then one or more ASCII digits, any number of zeros in
front, whose number a 64-bit word holds; it tells that number then.  Every other value is refused as
it was given.  A value stands for one number at most, so one that stands for a number too large for a
word is refused, however long it is.  The limit is the same when it is computed digit by digit in
words: nothing wraps, since after any digits the word is their number, or there is none and their
number is too large. -/
theorem variableLimit_exact (value : String) :
    (∀ limit, variableLimit (some value) = .ok limit ↔
      ∃ n : UInt64, limit = some n ∧ VariableSpells value n.toNat) ∧
    (∀ f, variableLimit (some value) = .error f ↔
      f = .invalidEnv value ∧ ∀ n, VariableSpells value n → 2 ^ 64 - 1 < n) ∧
    (∀ m n, VariableSpells value m → VariableSpells value n → m = n) ∧
    variableLimit (some value) = limitBy Word.computed? value ∧
    (∀ digits (n : UInt64), Word.withDigits? 0 digits = some n ↔
      (∀ c ∈ digits, c.isDigit = true) ∧ n.toNat = Numeral.value digits) := by
  refine ⟨fun limit => ?_, fun f => ?_, fun m n => VariableSpells.unique, ?_,
    fun digits n => Word.withDigits?_eq_some_iff⟩
  · simp only [variableLimit_some, limitBy_eq_ok, Word.ofText?_eq_some_iff, variableSpells_iff]
  · simp only [variableLimit_some, limitBy_eq_error, Word.ofText?_eq_none_iff, variableSpells_iff]
    rfl
  · rw [variableLimit_some, show Word.ofText? = Word.computed? from
      funext Word.ofText?_eq_computed?]

/-- The greatest word with zeros in front, between an ideographic space and a tab, is a limit.  The
next number is none, and neither is what has no digit, a sign too many, a minus sign, white space
inside or a digit that is not ASCII. -/
theorem variableLimit_of_oddValues :
    variableLimit (some "\u3000+00018446744073709551615\t") = .ok (some 0xFFFFFFFFFFFFFFFF) ∧
    variableLimit (some "18446744073709551616") = .error (.invalidEnv "18446744073709551616") ∧
    ∀ value ∈ ["", " ", "+", "-", "-1", "++1", "1 6", "\u0663"],
      variableLimit (some value) = .error (.invalidEnv value) := by
  have spells {s : List Char} {n : Nat} (some : s ≠ []) (digits : s.all Char.isDigit = true)
      (value : Numeral.value s = n) : Numeral.Spells s n :=
    Numeral.spells_iff.mpr ⟨some, List.all_eq_true.mp digits, value⟩
  refine ⟨?_, ?_, ?_⟩
  · obtain ⟨told, _⟩ := variableLimit_exact "\u3000+00018446744073709551615\t"
    have greatest : Numeral.Spells "00018446744073709551615".toList 0xFFFFFFFFFFFFFFFF :=
      spells (by decide) (by decide) (by decide)
    have strips : Text.Strips "\u3000+00018446744073709551615\t".toList
        "+00018446744073709551615".toList := Text.strips_iff.mpr (by decide)
    exact (told _).mpr ⟨_, rfl, _, strips, ['+'], _, .inr rfl, rfl, greatest⟩
  · obtain ⟨_, refused, unique, _⟩ := variableLimit_exact "18446744073709551616"
    have next : Numeral.Spells "18446744073709551616".toList (2 ^ 64) :=
      spells (by decide) (by decide) (by decide)
    have strips : Text.Strips "18446744073709551616".toList "18446744073709551616".toList :=
      Text.strips_iff.mpr (by decide)
    refine (refused _).mpr ⟨rfl, fun n other => ?_⟩
    rw [unique n _ other ⟨_, strips, [], _, .inl rfl, rfl, next⟩]
    decide
  · intro value mem
    obtain ⟨_, _, _, computed, _⟩ := variableLimit_exact value
    have none : ∀ value ∈ ["", " ", "+", "-", "-1", "++1", "1 6", "\u0663"],
        Word.computed? (Text.trim value.toList) = none := by decide
    rw [computed, limitBy, none value mem]

end HqlWhere

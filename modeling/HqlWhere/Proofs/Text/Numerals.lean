import HqlWhere.Text.Numeral
import Mathlib.Data.List.Induction
import Mathlib.Data.Nat.Digits.Defs

/-!
# Numerals digit by digit

The number that digits stand for, and how a 64-bit word comes to hold it although no product and no
sum may leave the words.

* `Numeral.Spells`, `Numeral.spells_iff`   digits and their number by place value;
* `Word.times?`, `Word.plus?`              products and sums of words, tested for overflow;
* `Word.product_overflows_iff`, `Word.sum_overflows_iff`   the tests are exact;
* `Word.withDigit?_eq_some_iff`            one more digit, in words, is one more digit;
* `Word.withDigits?_eq_some_iff`           so are any number of digits, as long as a word holds them;
* `Word.Spells`, `Word.ofText?_eq_some_iff`   the numerals of words, with a plus sign or without;
* `Word.ofText?_eq_computed?`              a word is read as if it were computed in words.
-/

namespace HqlWhere

namespace Numeral

def digit (d : Fin 10) : Char := Nat.digitChar d

/-- The digits from `0` to `9`, one or more, stand for `n` by place value. -/
def Spells (s : List Char) (n : Nat) : Prop :=
  ∃ digits : List (Fin 10), digits ≠ [] ∧ s = digits.map digit ∧
    Nat.ofDigits 10 (digits.reverse.map Fin.val) = n

theorem isDigit_iff {c : Char} : c.isDigit = true ↔ ∃ d, digit d = c := by
  constructor
  · intro isDigit
    simp only [Char.isDigit, Bool.and_eq_true, decide_eq_true_eq] at isDigit
    have zero : 48 ≤ c.toNat := UInt32.le_iff_toNat_le.mp isDigit.1
    have nine : c.toNat ≤ 57 := UInt32.le_iff_toNat_le.mp isDigit.2
    have all : ∀ d : Fin 10, digit d = Char.ofNat (48 + d) := by decide
    refine ⟨⟨c.toNat - 48, by omega⟩, ?_⟩
    rw [all, Nat.add_sub_cancel' zero, Char.ofNat_toNat]
  · rintro ⟨d, rfl⟩
    have all : ∀ d : Fin 10, (digit d).isDigit = true := by decide
    exact all d

theorem toNat_digit (d : Fin 10) : (digit d).toNat - '0'.toNat = d := by
  have all : ∀ d : Fin 10, (digit d).toNat - '0'.toNat = d := by decide
  exact all d

theorem toNat_lt_ten {c : Char} (h : c.isDigit = true) : c.toNat - '0'.toNat < 10 := by
  obtain ⟨d, rfl⟩ := isDigit_iff.mp h
  rw [toNat_digit]
  exact d.isLt

theorem le_ofDigitChars (d : List Char) (n : Nat) : n ≤ Nat.ofDigitChars 10 d n := by
  induction d generalizing n with
  | nil => exact Nat.le_refl n
  | cons c d ih =>
    rw [Nat.ofDigitChars_cons]
    exact Nat.le_trans (by omega) (ih _)

theorem value_map_digit (digits : List (Fin 10)) :
    value (digits.map digit) = Nat.ofDigits 10 (digits.reverse.map Fin.val) := by
  induction digits using List.reverseRecOn with
  | nil => rfl
  | append_singleton digits d ih =>
    unfold value at ih ⊢
    rw [List.map_append, List.map_singleton, Nat.ofDigitChars_append, ih, Nat.ofDigitChars_cons,
      Nat.ofDigitChars_nil, toNat_digit, List.reverse_concat, List.map_cons, Nat.ofDigits_cons,
      Nat.add_comm]

theorem exists_digits {s : List Char} (h : ∀ c ∈ s, c.isDigit = true) :
    ∃ digits : List (Fin 10), s = digits.map digit := by
  induction s with
  | nil => exact ⟨[], rfl⟩
  | cons c s ih =>
    obtain ⟨first, rest⟩ := List.forall_mem_cons.mp h
    obtain ⟨d, rfl⟩ := isDigit_iff.mp first
    obtain ⟨digits, rfl⟩ := ih rest
    exact ⟨d :: digits, rfl⟩

/-- **The value of digits is their number by place value.** -/
theorem spells_iff {s : List Char} {n : Nat} :
    Spells s n ↔ s ≠ [] ∧ (∀ c ∈ s, c.isDigit = true) ∧ value s = n := by
  constructor
  · rintro ⟨digits, some, rfl, rfl⟩
    refine ⟨fun none => some (List.map_eq_nil_iff.mp none), ?_, value_map_digit digits⟩
    intro c hc
    obtain ⟨d, _, rfl⟩ := List.mem_map.mp hc
    exact isDigit_iff.mpr ⟨d, rfl⟩
  · rintro ⟨some, digits, rfl⟩
    obtain ⟨ds, rfl⟩ := exists_digits digits
    exact ⟨ds, fun none => some (none ▸ rfl), rfl, (value_map_digit ds).symm⟩

end Numeral

namespace Word

/-! ## words that grow -/

/-- The product of two words, if it is a word. -/
def times? (m n : UInt64) : Option UInt64 :=
  if m ≠ 0 ∧ 0xFFFFFFFFFFFFFFFF / m < n then none else some (m * n)

/-- The sum of two words, if it is a word.  A sum that wraps is less than either of them. -/
def plus? (m n : UInt64) : Option UInt64 := if m + n < m then none else some (m + n)

/-- The word with one more digit behind, if it is a word. -/
def withDigit? (n : UInt64) (c : Char) : Option UInt64 :=
  if c.isDigit then (times? n 10).bind fun m => plus? m (UInt64.ofNat (c.toNat - '0'.toNat)) else none

section
variable {m n k : UInt64} {c : Char}

/-- The test of a product tells exactly whether it is too large for a word. -/
theorem product_overflows_iff :
    m ≠ 0 ∧ 0xFFFFFFFFFFFFFFFF / m < n ↔ 2 ^ 64 ≤ m.toNat * n.toNat := by
  have quotient : 0xFFFFFFFFFFFFFFFF / m < n ↔ 0xFFFFFFFFFFFFFFFF / m.toNat < n.toNat := by
    rw [UInt64.lt_iff_toNat_lt, UInt64.toNat_div]
    rfl
  by_cases zero : m = 0
  · subst zero
    simp
  · have pos : 0 < m.toNat := Nat.pos_of_ne_zero fun h => zero (UInt64.toNat_inj.mp h)
    rw [quotient, Nat.div_lt_iff_lt_mul pos, Nat.mul_comm]
    exact ⟨fun h => h.2, fun h => ⟨zero, h⟩⟩

/-- The test of a sum tells exactly whether it is too large for a word. -/
theorem sum_overflows_iff : m + n < m ↔ 2 ^ 64 ≤ m.toNat + n.toNat := by
  have first := m.toNat_lt
  have second := n.toNat_lt
  rw [UInt64.lt_iff_toNat_lt, UInt64.toNat_add]
  omega

theorem times?_eq_some_iff : times? m n = some k ↔ k.toNat = m.toNat * n.toNat := by
  have bound := k.toNat_lt
  by_cases overflows : m ≠ 0 ∧ 0xFFFFFFFFFFFFFFFF / m < n
  · have large := product_overflows_iff.mp overflows
    rw [times?, if_pos overflows]
    exact iff_of_false nofun (by omega)
  · have small := Nat.not_le.mp (mt product_overflows_iff.mpr overflows)
    rw [times?, if_neg overflows, Option.some_inj, ← UInt64.toNat_inj, UInt64.toNat_mul,
      Nat.mod_eq_of_lt small]
    exact eq_comm

theorem plus?_eq_some_iff : plus? m n = some k ↔ k.toNat = m.toNat + n.toNat := by
  have bound := k.toNat_lt
  by_cases overflows : m + n < m
  · have large := sum_overflows_iff.mp overflows
    rw [plus?, if_pos overflows]
    exact iff_of_false nofun (by omega)
  · have small := Nat.not_le.mp (mt sum_overflows_iff.mpr overflows)
    rw [plus?, if_neg overflows, Option.some_inj, ← UInt64.toNat_inj, UInt64.toNat_add,
      Nat.mod_eq_of_lt small]
    exact eq_comm

/-- **A digit more, in words, is a digit more.** -/
theorem withDigit?_eq_some_iff :
    withDigit? n c = some k ↔
      c.isDigit = true ∧ k.toNat = 10 * n.toNat + (c.toNat - '0'.toNat) := by
  unfold withDigit?
  by_cases isDigit : c.isDigit = true
  · have small := Numeral.toNat_lt_ten isDigit
    have word : (UInt64.ofNat (c.toNat - '0'.toNat)).toNat = c.toNat - '0'.toNat :=
      UInt64.toNat_ofNat_of_lt' (Nat.lt_trans small (by decide))
    have bound := k.toNat_lt
    rw [if_pos isDigit, Option.bind_eq_some_iff]
    simp only [times?_eq_some_iff, plus?_eq_some_iff, word, isDigit, true_and]
    have ten : (10 : UInt64).toNat = 10 := rfl
    rw [ten]
    constructor
    · rintro ⟨m, product, sum⟩
      omega
    · intro sum
      have product : (UInt64.ofNat (n.toNat * 10)).toNat = n.toNat * 10 :=
        UInt64.toNat_ofNat_of_lt' (show n.toNat * 10 < 2 ^ 64 by omega)
      exact ⟨_, product, by omega⟩
  · rw [if_neg isDigit]
    exact iff_of_false nofun fun h => isDigit h.1

end

/-- The word with more digits behind, one after the other, if every word on the way is one. -/
def withDigits? (n : UInt64) (s : List Char) : Option UInt64 := s.foldlM withDigit? n

theorem withDigits?_cons (n : UInt64) (c : Char) (s : List Char) :
    withDigits? n (c :: s) = (withDigit? n c).bind (withDigits? · s) := List.foldlM_cons

/-- **Nothing wraps on the way.**  Digits put behind a word one after the other give the word of all
of them, and they fail to only if there is none: what is too large for a word stays so, whatever
digits follow. -/
theorem withDigits?_eq_some_iff {n k : UInt64} {s : List Char} :
    withDigits? n s = some k ↔
      (∀ c ∈ s, c.isDigit = true) ∧ k.toNat = Nat.ofDigitChars 10 s n.toNat := by
  induction s generalizing n with
  | nil =>
    show some n = some k ↔ _
    rw [Option.some_inj, ← UInt64.toNat_inj, Nat.ofDigitChars_nil]
    simpa using eq_comm
  | cons c s ih =>
    rw [withDigits?_cons, Option.bind_eq_some_iff, List.forall_mem_cons, Nat.ofDigitChars_cons]
    constructor
    · rintro ⟨m, first, rest⟩
      obtain ⟨isDigit, same⟩ := withDigit?_eq_some_iff.mp first
      obtain ⟨digits, value⟩ := ih.mp rest
      rw [same] at value
      exact ⟨⟨isDigit, digits⟩, value⟩
    · rintro ⟨⟨isDigit, digits⟩, value⟩
      -- More digits never make a number less, so the number on the way is a word like the last one.
      have grows := Numeral.le_ofDigitChars s (10 * n.toNat + (c.toNat - '0'.toNat))
      have bound := k.toNat_lt
      have word : (UInt64.ofNat (10 * n.toNat + (c.toNat - '0'.toNat))).toNat
          = 10 * n.toNat + (c.toNat - '0'.toNat) :=
        UInt64.toNat_ofNat_of_lt' (show _ < 2 ^ 64 by omega)
      refine ⟨_, withDigit?_eq_some_iff.mpr ⟨isDigit, word⟩, ih.mpr ⟨digits, ?_⟩⟩
      rw [word]
      exact value

/-! ## the numerals of words -/

/-- A text without the plus sign that it may start with. -/
def unsigned (s : List Char) : List Char :=
  match s with
  | '+' :: r => r
  | _ => s

/-- A plus sign or nothing, and then digits that stand for `n`. -/
def Spells (s : List Char) (n : Nat) : Prop :=
  ∃ sign digits, (sign = [] ∨ sign = ['+']) ∧ s = sign ++ digits ∧ Numeral.Spells digits n

section
variable {s : List Char}

theorem unsigned_of_digits (h : ∀ c ∈ s, c.isDigit = true) : unsigned s = s := by
  unfold unsigned
  split
  · exact absurd (h '+' List.mem_cons_self) (by decide)
  · rfl

theorem spells_iff {n : Nat} : Spells s n ↔ Numeral.Spells (unsigned s) n := by
  constructor
  · rintro ⟨sign, digits, rfl | rfl, rfl, spells⟩
    · rwa [unsigned_of_digits (Numeral.spells_iff.mp spells).2.1]
    · exact spells
  · intro spells
    unfold unsigned at spells
    split at spells
    · exact ⟨['+'], _, .inr rfl, rfl, spells⟩
    · exact ⟨[], _, .inl rfl, rfl, spells⟩

theorem Spells.unique {m n : Nat} (hm : Spells s m) (hn : Spells s n) : m = n := by
  have first := (Numeral.spells_iff.mp (spells_iff.mp hm)).2.2
  have second := (Numeral.spells_iff.mp (spells_iff.mp hn)).2.2
  exact first.symm.trans second

theorem ofText?_eq (s : List Char) : ofText? s =
    if unsigned s ≠ [] ∧ (unsigned s).all Char.isDigit ∧ Numeral.value (unsigned s) ≤ greatest then
      some (UInt64.ofNat (Numeral.value (unsigned s)))
    else none := rfl

/-- **A word is read from its numerals**, and from nothing else. -/
theorem ofText?_eq_some_iff {n : UInt64} : ofText? s = some n ↔ Spells s n.toNat := by
  have bound := n.toNat_lt
  rw [spells_iff, Numeral.spells_iff, ofText?_eq]
  constructor
  · intro found
    split at found
    next fits =>
      obtain ⟨some, digits, small⟩ := fits
      obtain rfl := Option.some.inj found
      refine ⟨some, List.all_eq_true.mp digits, (UInt64.toNat_ofNat_of_lt' ?_).symm⟩
      exact Nat.lt_succ_of_le small
    next => cases found
  · rintro ⟨some, digits, value⟩
    have small : Numeral.value (unsigned s) ≤ greatest := by
      rw [value]
      exact Nat.le_of_lt_succ bound
    rw [if_pos ⟨some, List.all_eq_true.mpr digits, small⟩, value, UInt64.ofNat_toNat]

theorem ofText?_eq_none_iff : ofText? s = none ↔ ∀ n, Spells s n → greatest < n := by
  rw [Option.eq_none_iff_forall_ne_some]
  constructor
  · intro none n spells
    by_contra small
    have word : (UInt64.ofNat n).toNat = n :=
      UInt64.toNat_ofNat_of_lt' (Nat.lt_succ_of_le (Nat.not_lt.mp small))
    exact none (UInt64.ofNat n) (ofText?_eq_some_iff.mpr (word.symm ▸ spells))
  · intro large n found
    have beyond := large _ (ofText?_eq_some_iff.mp found)
    exact Nat.not_lt_of_ge (Nat.le_of_lt_succ n.toNat_lt) beyond

/-- The word of a numeral, digit by digit and in words. -/
def computed? (s : List Char) : Option UInt64 :=
  match unsigned s with
  | [] => none
  | c :: digits => withDigits? 0 (c :: digits)

/-- **A word is read as if it were computed in words.** -/
theorem ofText?_eq_computed? (s : List Char) : ofText? s = computed? s := by
  ext n
  rw [ofText?_eq_some_iff, spells_iff, Numeral.spells_iff]
  unfold computed?
  cases unsigned s with
  | nil => simp
  | cons c digits =>
    rw [withDigits?_eq_some_iff]
    exact ⟨fun h => ⟨h.2.1, h.2.2.symm⟩, fun h => ⟨List.cons_ne_nil _ _, h.1, h.2.symm⟩⟩

end

end Word

end HqlWhere

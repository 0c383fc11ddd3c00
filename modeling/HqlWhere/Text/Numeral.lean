import HqlWhere.Text.Blank

/-!
# Decimal numerals

* `Numeral.write`      the shortest numeral of a natural number, `Numeral.writeInt` of an integer;
* `Numeral.value`      the number that digits stand for, so `value (write n) = n`;
* `Numeral.padded`     a numeral with zeros in front up to a width;
* `Word.ofText?`       the 64-bit word of a numeral with leading zeros or a plus sign allowed.
-/

namespace HqlWhere

namespace Numeral

/-- The decimal digits of a number, without leading zeros. -/
def write (n : Nat) : List Char := Nat.toDigits 10 n

/-- The number that a list of decimal digits stands for. -/
def value (digits : List Char) : Nat := Nat.ofDigitChars 10 digits 0

/-- The digits of `n`, with zeros in front up to `width` characters. -/
def padded (width n : Nat) : List Char :=
  let digits := write n
  List.replicate (width - digits.length) '0' ++ digits

/-- The digits of an integer, after a minus sign if it is negative. -/
def writeInt : Int → List Char
  | .ofNat n => write n
  | .negSucc n => '-' :: write (n + 1)

theorem value_write (n : Nat) : value (write n) = n :=
  Nat.ofDigitChars_toDigits (by decide) (by decide)

theorem write_ne_nil (n : Nat) : write n ≠ [] := Nat.toDigits_ne_nil

theorem isDigit_of_mem_write {n : Nat} {c : Char} (h : c ∈ write n) : c.isDigit = true :=
  Nat.isDigit_of_mem_toDigits (by decide) (by decide) h

end Numeral

namespace Word

/-- The greatest number a 64-bit word holds. -/
def greatest : Nat := 0xFFFFFFFFFFFFFFFF

/-- Reads a word from a numeral: a plus sign or nothing, then one or more ASCII digits, leading
zeros allowed, whose value fits. -/
def ofText? (s : List Char) : Option UInt64 :=
  let digits := match s with
    | '+' :: r => r
    | _ => s
  if digits ≠ [] ∧ digits.all Char.isDigit ∧ Numeral.value digits ≤ greatest then
    some (UInt64.ofNat (Numeral.value digits))
  else none

end Word

end HqlWhere

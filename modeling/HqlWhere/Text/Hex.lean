/-!
# Hexadecimal numerals

`Hex.digits` writes a number with a fixed count of lower-case digits; `Hex.number?` reads digits in
either case.
-/

namespace HqlWhere

namespace Hex

/-- The last `count` hexadecimal digits of a number. -/
def digits : Nat → Nat → List Char
  | 0, _ => []
  | count + 1, n => digits count (n / 16) ++ [Nat.digitChar (n % 16)]

/-- The value of a hexadecimal digit in either case. -/
def value? (c : Char) : Option Nat :=
  if '0' ≤ c ∧ c ≤ '9' then some (c.toNat - '0'.toNat)
  else if 'a' ≤ c ∧ c ≤ 'f' then some (c.toNat - 'a'.toNat + 10)
  else if 'A' ≤ c ∧ c ≤ 'F' then some (c.toNat - 'A'.toNat + 10)
  else none

/-- The number that hexadecimal digits continue, `n` standing for those before them. -/
def continued? (n : Nat) : List Char → Option Nat
  | [] => some n
  | c :: s =>
    match value? c with
    | some d => continued? (16 * n + d) s
    | none => none

def number? (s : List Char) : Option Nat := continued? 0 s

def isDigit (c : Char) : Bool := (value? c).isSome

theorem length_digits (count n : Nat) : (digits count n).length = count := by
  induction count generalizing n with
  | zero => rfl
  | succ count ih => rw [digits, List.length_append, ih]; rfl

theorem value?_digitChar {d : Nat} (h : d < 16) : value? (Nat.digitChar d) = some d := by
  have all : ∀ d : Fin 16, value? (Nat.digitChar d) = some d.val := by decide
  exact all ⟨d, h⟩

theorem continued?_append (n : Nat) (s t : List Char) :
    continued? n (s ++ t) = (continued? n s).bind fun m => continued? m t := by
  induction s generalizing n with
  | nil => rfl
  | cons c s ih =>
    rw [List.cons_append, continued?, continued?]
    cases value? c with
    | none => rfl
    | some d => exact ih _

/-- What is written is read as the last digits of the number. -/
theorem number?_digits (count n : Nat) :
    number? (digits count n) = some (n % Nat.pow 16 count) := by
  induction count generalizing n with
  | zero => exact (congrArg some (Nat.mod_one n)).symm
  | succ count ih =>
    have low := value?_digitChar (Nat.mod_lt n (by decide : 0 < 16))
    unfold number? at ih ⊢
    rw [digits, continued?_append, ih, Option.bind_some, continued?, low]
    show some (16 * (n / 16 % Nat.pow 16 count) + n % 16) = some (n % (Nat.pow 16 count * 16))
    rw [Nat.mul_comm (Nat.pow 16 count), Nat.mod_mul, Nat.add_comm]

end Hex

/-- The number of UTF-8 bytes of a text. -/
def Text.byteCount (s : List Char) : Nat := s.foldr (fun c n => c.utf8Size + n) 0

end HqlWhere

import HqlWhere.Decimal.Binary64
import HqlWhere.Text.Numeral
import Mathlib.Algebra.Group.Nat.Defs

/-!
# Decimals of moderate size have a finite number nearest to them

Below `2 ^ 256` the exponent of a number's unit is at most 204 and its significand has at most
fifty-four binary digits, so its magnitude stays far below that of infinity.

* `roundToEven_of_lt`, `unitExponent_ge`, `unitExponent_le`   the significand and its unit;
* `nearest_lt`             the magnitude nearest to a ratio below `2 ^ 256`;
* `isSome_ofDecimal?`      decimals below `10 ^ 60`;
* `le_of_isSome`           no decimal with more than 310 digits before its point is finite.
-/

namespace HqlWhere.Binary64

variable {num den : Nat}

theorem roundToEven_le (num den : Nat) : roundToEven num den ≤ num / den + 1 := by
  unfold roundToEven
  dsimp only
  split
  · exact Nat.le_succ _
  · split
    · exact Nat.le_refl _
    · split
      · exact Nat.le_succ _
      · exact Nat.le_refl _

theorem roundToEven_of_lt {n : Nat} (h : num < den * n) : roundToEven num den ≤ n := by
  have quotient : num / den < n := Nat.div_lt_of_lt_mul h
  exact Nat.le_trans (roundToEven_le num den) quotient

theorem unitExponent_ge (num den : Nat) :
    (Nat.log2 num : Int) - Nat.log2 den - 53 ≤ unitExponent num den := by
  unfold unitExponent
  dsimp only
  split <;> split <;> omega

theorem unitExponent_le (num den : Nat) :
    unitExponent num den ≤ max ((Nat.log2 num : Int) - Nat.log2 den - 52) (-1074) := by
  unfold unitExponent
  dsimp only
  split <;> split <;> omega

/-- the significand: at most fifty-four binary digits -/
theorem significand_le (num : Nat) (hd : den ≠ 0) :
    (if 0 ≤ unitExponent num den then roundToEven num (den <<< (unitExponent num den).toNat)
      else roundToEven (num <<< (-unitExponent num den).toNat) den) ≤ 2 ^ 54 := by
  have above : num < 2 ^ (num.log2 + 1) := Nat.lt_log2_self
  have below : 2 ^ den.log2 ≤ den := Nat.log2_self_le hd
  have unit := unitExponent_ge num den
  generalize unitExponent num den = q at unit ⊢
  split
  · refine roundToEven_of_lt ?_
    have wide : num.log2 + 1 ≤ den.log2 + q.toNat + 54 := by omega
    rw [Nat.shiftLeft_eq]
    calc num < 2 ^ (num.log2 + 1) := above
      _ ≤ 2 ^ (den.log2 + q.toNat + 54) := Nat.pow_le_pow_right (by decide) wide
      _ = 2 ^ den.log2 * 2 ^ q.toNat * 2 ^ 54 := by rw [Nat.pow_add, Nat.pow_add]
      _ ≤ den * 2 ^ q.toNat * 2 ^ 54 := Nat.mul_le_mul_right _ (Nat.mul_le_mul_right _ below)
  · refine roundToEven_of_lt ?_
    have wide : num.log2 + 1 + (-q).toNat ≤ den.log2 + 54 := by omega
    rw [Nat.shiftLeft_eq]
    calc num * 2 ^ (-q).toNat < 2 ^ (num.log2 + 1) * 2 ^ (-q).toNat :=
          Nat.mul_lt_mul_of_pos_right above (Nat.two_pow_pos _)
      _ = 2 ^ (num.log2 + 1 + (-q).toNat) := (Nat.pow_add _ _ _).symm
      _ ≤ 2 ^ (den.log2 + 54) := Nat.pow_le_pow_right (by decide) wide
      _ = 2 ^ den.log2 * 2 ^ 54 := Nat.pow_add _ _ _
      _ ≤ den * 2 ^ 54 := Nat.mul_le_mul_right _ below

theorem nearest_lt (hn : num ≠ 0) (hd : den ≠ 0) (h : num < den * 2 ^ 256) :
    nearest num den < infinityBits := by
  have digits := significand_le num hd
  have lengths : num.log2 ≤ den.log2 + 256 := by
    have wide : 2 ^ num.log2 < 2 ^ (den.log2 + 1 + 256) := calc
      2 ^ num.log2 ≤ num := Nat.log2_self_le hn
      _ < den * 2 ^ 256 := h
      _ < 2 ^ (den.log2 + 1) * 2 ^ 256 :=
        Nat.mul_lt_mul_of_pos_right Nat.lt_log2_self (Nat.two_pow_pos _)
      _ = 2 ^ (den.log2 + 1 + 256) := (Nat.pow_add _ _ _).symm
    have less := (Nat.pow_lt_pow_iff_right (by decide : 1 < 2)).mp wide
    omega
  have unit : (unitExponent num den + 1074).toNat ≤ 1278 := by
    have most := unitExponent_le num den
    omega
  have carried := Nat.mul_le_mul_right unitBit unit
  unfold nearest
  dsimp only
  unfold infinityBits unitBit at *
  omega

theorem isSome_of_nearest {negative : Bool} {b : Nat} (h : b < infinityBits) :
    (if b < infinityBits then some (ofMagnitude negative b) else none).isSome = true := by
  rw [if_pos h]
  rfl

/-- **A decimal with at most sixty digits before its point has a finite number nearest to it.** -/
theorem isSome_ofDecimal? (negative : Bool) {m : Nat} {e : Int}
    (h : e + (Nat.toDigits 10 m).length ≤ 60) : (ofDecimal? negative m e).isSome = true := by
  unfold ofDecimal?
  dsimp only
  split
  · rfl
  · rename_i large
    have hm : m ≠ 0 := fun zero => large (.inl zero)
    have value : m < 10 ^ (Nat.toDigits 10 m).length :=
      (Nat.length_toDigits_le_iff (by decide) Nat.length_toDigits_pos).mp (Nat.le_refl _)
    have sixty : (10 : Nat) ^ 60 ≤ 2 ^ 256 := by decide
    rw [if_neg (by omega)]
    refine isSome_of_nearest ?_
    split
    · have ten : Nat.pow 10 e.toNat ≠ 0 := Nat.ne_of_gt (Nat.pow_pos (by decide))
      refine nearest_lt (Nat.mul_ne_zero hm ten) Nat.one_ne_zero ?_
      rw [Nat.one_mul]
      calc m * 10 ^ e.toNat < 10 ^ (Nat.toDigits 10 m).length * 10 ^ e.toNat :=
            Nat.mul_lt_mul_of_pos_right value (Nat.pow_pos (by decide))
        _ = 10 ^ ((Nat.toDigits 10 m).length + e.toNat) := (Nat.pow_add _ _ _).symm
        _ ≤ 10 ^ 60 := Nat.pow_le_pow_right (by decide) (by omega)
        _ ≤ 2 ^ 256 := sixty
    · have ten : Nat.pow 10 (-e).toNat ≠ 0 := Nat.ne_of_gt (Nat.pow_pos (by decide))
      refine nearest_lt hm ten ?_
      calc m < 10 ^ (Nat.toDigits 10 m).length := value
        _ ≤ 10 ^ ((-e).toNat + 60) := Nat.pow_le_pow_right (by decide) (by omega)
        _ = 10 ^ (-e).toNat * 10 ^ 60 := Nat.pow_add _ _ _
        _ ≤ 10 ^ (-e).toNat * 2 ^ 256 := Nat.mul_le_mul_left _ sixty

theorem isSome_ofDecimal?_zero (negative : Bool) (e : Int) :
    (ofDecimal? negative 0 e).isSome = true := by
  unfold ofDecimal?
  dsimp only
  rw [if_pos (.inl rfl)]
  rfl

theorem le_of_isSome {negative : Bool} {m : Nat} {e : Int}
    (h : (ofDecimal? negative m e).isSome = true) (hm : m ≠ 0) :
    e + (Nat.toDigits 10 m).length ≤ 310 := by
  unfold ofDecimal? at h
  dsimp only at h
  split at h
  · rename_i small
    rcases small with zero | small
    · exact absurd zero hm
    · omega
  · split at h
    · cases h
    · omega

end HqlWhere.Binary64

import HqlWhere.Decimal.Shortest
import HqlWhere.Text.Numeral

/-!
# Writing floating point numbers

A finite number is written with the shortest digits that read back.  Positional notation, always
with a fraction, serves when the first digit stands between the fifth place after the point and the
sixteenth before it; otherwise one digit, the rest as a fraction, and a signed exponent.  The sign
of zero is kept.
-/

namespace HqlWhere

namespace Decimal

/-- The place of the first digit: `0` for the units, `-1` for the tenths. -/
def leading (d : Decimal) : Int := d.exponent + (Numeral.write d.digits).length - 1

/-- Positional notation with at least one digit on either side of the point. -/
def positional (d : Decimal) : List Char :=
  let digits := Numeral.write d.digits
  if d.leading < 0 then
    '0' :: '.' :: List.replicate (-d.leading - 1).toNat '0' ++ digits
  else
    let whole := (d.leading + 1).toNat
    if digits.length ≤ whole then
      digits ++ List.replicate (whole - digits.length) '0' ++ ['.', '0']
    else digits.take whole ++ '.' :: digits.drop whole

/-- One digit, the others as a fraction, and the place of the first. -/
def scientific (d : Decimal) : List Char :=
  let digits := Numeral.write d.digits
  let fraction := if digits.length ≤ 1 then [] else '.' :: digits.drop 1
  let sign := if d.leading < 0 then '-' else '+'
  digits.take 1 ++ fraction ++ 'e' :: sign :: Numeral.write d.leading.natAbs

def write (d : Decimal) : List Char :=
  if -5 ≤ d.leading ∧ d.leading ≤ 15 then d.positional else d.scientific

end Decimal

def Binary64.write (x : Binary64) : List Char :=
  let digits := (Shortest.decimal x).write
  if x.isNegative then '-' :: digits else digits

end HqlWhere

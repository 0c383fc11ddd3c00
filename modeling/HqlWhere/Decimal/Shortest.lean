import HqlWhere.Decimal.Binary64

/-!
# The shortest decimal that reads back

A finite number `m * 2 ^ q` is the nearest one to every real in an interval around it, ends included
when `m` is even.

* `Interval.of`   that interval, in units of `2 ^ (q - 2)`;
* `onGrid`        the multiple of a power of ten inside the interval, of two the nearer, of two
                  equally near the even one;
* `decimal`       the multiple of the coarsest power of ten that has one inside.  It has as few
                  digits as a decimal that reads back can have.
-/

namespace HqlWhere

/-- The decimal `digits * 10 ^ exponent`. -/
structure Decimal where
  digits : Nat
  exponent : Int
deriving DecidableEq

namespace Shortest

/-- A number and the two ends of its interval, as multiples of one common unit, and whether the ends
belong to the interval. -/
structure Interval where
  low : Nat
  value : Nat
  high : Nat
  closed : Bool

/-- The interval of `m * 2 ^ q` in units of `2 ^ (q - 2)`.  Below a power of two the numbers lie
twice as dense, except at the bottom of the range. -/
def Interval.of (m : Nat) (q : Int) : Interval :=
  { low := if m = Binary64.unitBit ∧ -1074 < q then 4 * m - 1 else 4 * m - 2
    value := 4 * m
    high := 4 * m + 2
    closed := m % 2 = 0 }

def Interval.contains (i : Interval) (x : Nat) : Bool :=
  if i.closed then i.low ≤ x && x ≤ i.high else i.low < x && x < i.high

/-- The interval in a unit that is `k` times smaller. -/
def Interval.scale (i : Interval) (k : Nat) : Interval :=
  { low := i.low * k, value := i.value * k, high := i.high * k, closed := i.closed }

/-- The multiple of `10 ^ e` nearest to the value, if one lies in the interval of `m * 2 ^ q`. -/
def onGrid (m : Nat) (q : Int) (e : Int) : Option Nat :=
  -- Both the unit of the interval and the step of the grid are made whole.
  let i := (Interval.of m q).scale (Nat.pow 10 (-e).toNat <<< (q - 2).toNat)
  let step := Nat.pow 10 e.toNat <<< (2 - q).toNat
  let d := i.value / step
  match i.contains (d * step), i.contains ((d + 1) * step) with
  | false, false => none
  | true, false => some d
  | false, true => some (d + 1)
  | true, true =>
    let below := i.value - d * step
    let above := (d + 1) * step - i.value
    if below < above then some d
    else if above < below then some (d + 1)
    else if d % 2 = 0 then some d else some (d + 1)

/-- The greatest decimal exponent that is tried. -/
def top : Nat := 310

/-- The number of decimal exponents that are tried, downward from `top`. -/
def tries : Nat := 640

/-- The shortest decimal that reads back as the magnitude of a finite number. -/
def decimal (x : Binary64) : Decimal :=
  let found := (List.range tries).findSome? fun i : Nat =>
    let e := (top : Int) - (i : Int)
    (onGrid x.significand x.exponent e).map fun d => Decimal.mk d e
  if x.significand = 0 then ⟨0, 0⟩ else found.getD ⟨0, 0⟩

end Shortest

end HqlWhere

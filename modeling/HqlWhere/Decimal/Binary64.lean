/-!
# Binary floating point numbers of 64 bits

A `Binary64` is its bit pattern: a sign bit, eleven bits of exponent and fifty-two of significand.
Two of them are equal exactly when their patterns are, so a not-a-number equals itself and the two
zeros differ.

* `significand`, `exponent`   a finite number is `± significand * 2 ^ exponent`;
* `nearest`                   the magnitude nearest to a ratio of naturals, of two equally near the
                              one with the even significand;
* `ofDecimal?`, `ofInt`       the number nearest to a decimal or an integer.
-/

namespace HqlWhere

/-- A floating point number, as its bit pattern. -/
structure Binary64 where
  bits : UInt64
deriving DecidableEq

namespace Binary64

theorem bits_inj {x y : Binary64} : x.bits = y.bits ↔ x = y := by
  cases x
  cases y
  exact (mk.injEq _ _).symm.to_iff

def signBit : Nat := 0x8000000000000000

/-- The lowest bit of the exponent, just above the significand. -/
def unitBit : Nat := 0x10000000000000

/-- The bit pattern of positive infinity; the finite magnitudes lie below it. -/
def infinityBits : Nat := 0x7FF * unitBit

def isNegative (x : Binary64) : Bool := signBit ≤ x.bits.toNat

def magnitude (x : Binary64) : Nat := x.bits.toNat % signBit

/-- Whether a number is neither an infinity nor a not-a-number. -/
def isFinite (x : Binary64) : Bool := x.magnitude < infinityBits

/-- The natural `m` of a finite number `± m * 2 ^ q`. -/
def significand (x : Binary64) : Nat :=
  if x.magnitude / unitBit = 0 then x.magnitude else unitBit + x.magnitude % unitBit

/-- The integer `q` of a finite number `± m * 2 ^ q`. -/
def exponent (x : Binary64) : Int :=
  if x.magnitude / unitBit = 0 then -1074 else (x.magnitude / unitBit : Nat) - 1075

/-- The number with the given sign and magnitude. -/
def ofMagnitude (negative : Bool) (magnitude : Nat) : Binary64 :=
  ⟨UInt64.ofNat (if negative then signBit + magnitude else magnitude)⟩

/-- The natural nearest to `num / den`, of two equally near the even one. -/
def roundToEven (num den : Nat) : Nat :=
  let n := num / den
  let twice := 2 * (num % den)
  if twice < den then n
  else if den < twice then n + 1
  else if n % 2 = 0 then n else n + 1

/-- The exponent `q` at which `num / den`, counted in units of `2 ^ q`, has fifty-three binary
digits, but never below the exponent of the smallest numbers. -/
def unitExponent (num den : Nat) : Int :=
  let guess : Int := (Nat.log2 num : Int) - Nat.log2 den
  -- `2 ^ guess` is either at most the ratio or at most twice the ratio.
  let fits : Bool :=
    if 0 ≤ guess then den <<< guess.toNat ≤ num else den ≤ num <<< (-guess).toNat
  max ((if fits then guess else guess - 1) - 52) (-1074)

/-- The magnitude nearest to the positive ratio `num / den`.  From `infinityBits` on the ratio is
too large for a finite number.  A significand that rounds up to `2 ^ 53` carries into the exponent.
-/
def nearest (num den : Nat) : Nat :=
  let q := unitExponent num den
  let n := if 0 ≤ q then roundToEven num (den <<< q.toNat)
    else roundToEven (num <<< (-q).toNat) den
  (q + 1074).toNat * unitBit + n

/-- The number nearest to `± m * 10 ^ e`, if it is finite.  Outside the tested range of decimal
exponents the answer is known without computing the power.

It is rounded once.  A reader that keeps as many digits as a 64-bit word holds and scales them by a
power of ten in floating point rounds up to three times, and may find a neighbour of this number
where there are more than fifteen digits or the exponent is beyond 22.  Such neighbours are not
followed. -/
def ofDecimal? (negative : Bool) (m : Nat) (e : Int) : Option Binary64 :=
  let size := e + (Nat.toDigits 10 m).length
  if m = 0 ∨ size < -330 then some (ofMagnitude negative 0)
  else if 310 < size then none
  else
    let b := if 0 ≤ e then nearest (m * Nat.pow 10 e.toNat) 1 else nearest m (Nat.pow 10 (-e).toNat)
    if b < infinityBits then some (ofMagnitude negative b) else none

/-- The number nearest to an integer of moderate size. -/
def ofInt (n : Int) : Binary64 :=
  if n = 0 then ofMagnitude false 0 else ofMagnitude (n < 0) (nearest n.natAbs 1)

end Binary64

end HqlWhere

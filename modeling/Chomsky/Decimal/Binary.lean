/-!
# Binary floating point, exactly

A finite double is `m * 2 ^ q` for a natural `m` and an integer `q`. `Magnitude.ofBits` takes a
double apart into that form, and everything that the library prints or rounds is computed from it in
exact integer arithmetic.
-/

namespace Chomsky.Decimal

/-- The absolute value of a finite double: `significand * 2 ^ exponent`. -/
structure Magnitude where
  significand : Nat
  exponent : Int
  /-- The next smaller double is half as far away as the next larger one. -/
  narrowBelow : Bool
deriving DecidableEq

/-- The magnitude that the bits of a finite double stand for. -/
def Magnitude.ofBits (bits : UInt64) : Magnitude :=
  let biased : Nat := bits.toNat / Nat.pow 2 52 % Nat.pow 2 11
  let fraction : Nat := bits.toNat % Nat.pow 2 52
  if biased = 0 then ⟨fraction, -1074, false⟩
  else ⟨Nat.pow 2 52 + fraction, biased - 1075, fraction = 0 && 1 < biased⟩

/-- The numerator of the magnitude over `denominator`. -/
def Magnitude.numerator (x : Magnitude) : Nat := x.significand * Nat.pow 2 x.exponent.toNat

def Magnitude.denominator (x : Magnitude) : Nat := Nat.pow 2 (-x.exponent).toNat

/-- The sign bit of a double. -/
def isNegative (x : Float) : Bool := Nat.pow 2 63 ≤ x.toBits.toNat

/-- The natural nearest to `num / den`; halfway goes to the even neighbour. -/
def roundHalfEven (num den : Nat) : Nat :=
  let q := num / den
  let twice := 2 * (num % den)
  if twice < den || (twice = den && q % 2 = 0) then q else q + 1

/-- A decimal number `± mantissa * 10 ^ exponent` as a double, correctly rounded. Exponents beyond
the range of doubles are answered without computing their powers. -/
def toFloat (negative : Bool) (mantissa : Nat) (exponent : Int) : Float :=
  let scale : Int := exponent + (Nat.toDigits 10 mantissa).length
  let magnitude :=
    if mantissa = 0 || scale < -400 then 0.0
    else if 400 < scale then 1.0 / 0.0
    else Float.ofScientific mantissa (exponent < 0) exponent.natAbs
  if negative then -magnitude else magnitude

end Chomsky.Decimal

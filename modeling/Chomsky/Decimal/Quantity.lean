import Chomsky.Decimal.Binary

/-!
# Numbers by value

A whole number and a double are different values of a document, but they may be the same number. A
quantity is what either stands for, without rounding, so that quantities are equal exactly when the
numbers are.
-/

namespace Chomsky.Decimal

inductive Quantity where
  /-- A fraction in lowest terms. -/
  | fraction (numerator : Int) (denominator : Nat)
  | infinite (negative : Bool)
  | notANumber
deriving DecidableEq, Hashable, Repr

namespace Quantity

def ofInt (n : Int) : Quantity := fraction n 1

/-- The fraction `num / den`, or its negative. -/
def ofFraction (negative : Bool) (num den : Nat) : Quantity :=
  let divisor := Nat.gcd num den
  let numerator : Int := (num / divisor : Nat)
  fraction (if negative then -numerator else numerator) (den / divisor)

def ofFloat (x : Float) : Quantity :=
  if x.isNaN then notANumber
  else if x.isInf then infinite (isNegative x)
  else
    let magnitude := Magnitude.ofBits x.toBits
    ofFraction (isNegative x) magnitude.numerator magnitude.denominator

/-- Whether the first quantity is less than the second. -/
def before : Quantity → Quantity → Bool
  | fraction a b, fraction c d => a * d < c * b
  | fraction _ _, infinite negative => !negative
  | infinite negative, fraction _ _ => negative
  | infinite negative, infinite negative' => negative && !negative'
  | _, _ => false

end Quantity

end Chomsky.Decimal

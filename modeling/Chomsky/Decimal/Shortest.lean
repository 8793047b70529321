import Chomsky.Decimal.Binary

/-!
# Shortest decimals

Every double has decimals that read back to it: those in the interval that rounds to it. `shortest`
finds one with the fewest digits, of two such the one nearer to the double, of two equally near the
even one.
-/

namespace Chomsky.Decimal

/-- A decimal number `digits * 10 ^ exponent`. -/
structure Scaled where
  digits : Nat
  exponent : Int
deriving DecidableEq

namespace Magnitude

/-- Compares `d * 10 ^ e` with `n` quarters of a unit in the last binary place. -/
def compareQuarters (x : Magnitude) (d : Scaled) (n : Nat) : Ordering :=
  let place := x.exponent - 2
  compare (d.digits * Nat.pow 10 d.exponent.toNat * Nat.pow 2 (-place).toNat)
    (n * Nat.pow 2 place.toNat * Nat.pow 10 (-d.exponent).toNat)

/-- Whether `d` rounds to `x`. The ends of the interval count exactly if the significand is even. -/
def reads (x : Magnitude) (d : Scaled) : Bool :=
  let low := x.compareQuarters d (4 * x.significand - if x.narrowBelow then 1 else 2)
  let high := x.compareQuarters d (4 * x.significand + 2)
  if x.significand % 2 = 0 then low != .lt && high != .gt else low == .gt && high == .lt

/-- The exponent of the leading decimal digit, plus one: the least `k` with `x < 10 ^ k`. -/
def decimalPlace (x : Magnitude) : Int :=
  if x.denominator ≤ x.numerator then (Nat.toDigits 10 (x.numerator / x.denominator)).length
  else 1 - (Nat.toDigits 10 ((x.denominator - 1) / x.numerator)).length

/-- The largest multiple of `10 ^ e` that is at most `x`, in units of `10 ^ e`. -/
def floorAt (x : Magnitude) (e : Int) : Nat :=
  (x.numerator * Nat.pow 10 (-e).toNat) / (x.denominator * Nat.pow 10 e.toNat)

/-- Compares twice `x` with the sum of two neighbours `n` and `n + 1` on the grid of `10 ^ e`. -/
def compareMiddle (x : Magnitude) (n : Nat) (e : Int) : Ordering :=
  x.compareQuarters ⟨2 * n + 1, e⟩ (8 * x.significand)

/-- The decimal with `n` digits that reads back to `x` and is nearest to it, if there is one. -/
def atLength? (x : Magnitude) (n : Nat) : Option Scaled :=
  let e := x.decimalPlace - n
  let below := x.floorAt e
  let candidates := [below, below + 1].filter fun d => x.reads ⟨d, e⟩
  match candidates with
  | [] => none
  | [d] => some ⟨d, e⟩
  | _ =>
    match x.compareMiddle below e with
    | .lt => some ⟨below + 1, e⟩
    | .gt => some ⟨below, e⟩
    | .eq => some ⟨below + below % 2, e⟩

/-- Seventeen digits tell any two doubles apart, so the exact value is never needed. -/
def shortest (x : Magnitude) : Scaled :=
  ((List.range' 1 17).findSome? x.atLength?).getD
    ⟨x.numerator * Nat.pow 5 (-x.exponent).toNat, min x.exponent 0⟩

end Magnitude

/-- Moves trailing zeros of the digits into the exponent. -/
def Scaled.strip (d : Scaled) : Scaled :=
  if h : d.digits ≠ 0 ∧ d.digits % 10 = 0 then Scaled.strip ⟨d.digits / 10, d.exponent + 1⟩ else d
termination_by d.digits
decreasing_by omega

end Chomsky.Decimal

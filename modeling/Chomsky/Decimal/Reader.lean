import Chomsky.Decimal.Binary
import Chomsky.Text.Numeral

/-!
# Reading doubles

The texts that stand for a double: blanks, a sign, then digits with at most one point and an
optional exponent, or one of the words for infinity and not-a-number in any case, then blanks.
-/

namespace Chomsky.Decimal

open Chomsky.Text

/-- Splits at the first character that satisfies `p`, which is dropped. -/
def splitFirst (p : Char → Bool) (cs : List Char) : List Char × Option (List Char) :=
  match cs.dropWhile (!p ·) with
  | [] => (cs, none)
  | _ :: rest => (cs.takeWhile (!p ·), some rest)

/-- A group of digits, or nothing at all. -/
def optionalGroup? (cs : List Char) : Option (List Nat) :=
  if cs.isEmpty then some [] else digitGroup? cs

/-- The digits of a number without exponent, and how many of them follow the point. -/
def fraction? (cs : List Char) : Option (List Nat × Nat) := do
  let (whole, part) := splitFirst (· = '.') cs
  match part with
  | none => return (← digitGroup? whole, 0)
  | some part =>
    let whole ← optionalGroup? whole
    let part ← optionalGroup? part
    if whole.isEmpty && part.isEmpty then none else return (whole ++ part, part.length)

def exponent? (cs : List Char) : Option Int := do
  let (negative, digits) := splitSign cs
  let n : Int := ofDigits (← digitGroup? digits)
  return if negative then -n else n

/-- The double that a text stands for. -/
def read? (s : String) : Option Float := do
  let (negative, cs) := splitSign (trimBlanks s.toList)
  let word := String.ofList (cs.map Char.toLower)
  if word = "inf" || word = "infinity" then
    return if negative then -1.0 / 0.0 else 1.0 / 0.0
  else if word = "nan" then return 0.0 / 0.0
  else
    let (number, power) := splitFirst (fun c => c = 'e' || c = 'E') cs
    let (digits, places) ← fraction? number
    let exponent ← match power with
      | none => some 0
      | some p => exponent? p
    return toFloat negative (ofDigits digits) (exponent - places)

end Chomsky.Decimal

import Chomsky.Decimal.Shortest

/-!
# Writing doubles

A double is written with its shortest digits: positionally, with a digit on each side of the point,
when the exponent of the leading digit lies between -4 and 15, and otherwise with a signed exponent
of at least two digits. How infinity and not-a-number are spelt is up to the document.
-/

namespace Chomsky.Decimal

/-- The spellings of the doubles that are not finite. -/
structure Spelling where
  infinity : String
  notANumber : String

/-- The point goes after `place` of the digits; a `place` outside them is reached with zeros. -/
def positional (digits : List Char) (place : Int) : List Char :=
  if place ≤ 0 then '0' :: '.' :: List.replicate (-place).toNat '0' ++ digits
  else if digits.length ≤ place.toNat then
    digits ++ List.replicate (place.toNat - digits.length) '0' ++ ['.', '0']
  else digits.take place.toNat ++ '.' :: digits.drop place.toNat

def exponential (digits : List Char) (exponent : Int) : List Char :=
  let size := Nat.toDigits 10 exponent.natAbs
  digits.take 1 ++ (if digits.length = 1 then [] else '.' :: digits.drop 1)
    ++ 'e' :: (if exponent < 0 then '-' else '+') :: List.replicate (2 - size.length) '0' ++ size

/-- A decimal number in the form that its leading exponent asks for. -/
def Scaled.text (d : Scaled) : List Char :=
  let digits := Nat.toDigits 10 d.digits
  let leading : Int := d.exponent + digits.length - 1
  if d.digits = 0 then ['0', '.', '0']
  else if -4 ≤ leading && leading < 16 then positional digits (leading + 1)
  else exponential digits leading

def write (spelling : Spelling) (x : Float) : String :=
  if x.isNaN then spelling.notANumber
  else
    let sign := if isNegative x then "-" else ""
    if x.isInf then sign ++ spelling.infinity
    else
      let m := Magnitude.ofBits x.toBits
      let d := if m.significand = 0 then ⟨0, 0⟩ else m.shortest.strip
      sign ++ String.ofList d.text

end Chomsky.Decimal

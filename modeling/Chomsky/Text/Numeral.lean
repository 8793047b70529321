/-!
# Numerals in text

Numbers that people type may stand between blanks, may use the decimal digits of any script, and may
group their digits with single underscores. A blank is a character with the Unicode property
White_Space; a digit is one of general category Nd (Unicode 14.0).
-/

namespace Chomsky.Text

/-- The code points with the property White_Space: closed ranges, ascending and apart. -/
def blankRanges : List (Nat × Nat) :=
  [(0x09, 0x0d), (0x20, 0x20), (0x85, 0x85), (0xa0, 0xa0), (0x1680, 0x1680), (0x2000, 0x200a),
   (0x2028, 0x2029), (0x202f, 0x202f), (0x205f, 0x205f), (0x3000, 0x3000)]

def isBlank (c : Char) : Bool :=
  blankRanges.any fun r => r.1 ≤ c.toNat && c.toNat ≤ r.2

/-- Drops the blanks at both ends. -/
def trimBlanks (cs : List Char) : List Char :=
  ((cs.dropWhile isBlank).reverse.dropWhile isBlank).reverse

/-- The code points of the digit zero in each script; the nine other digits follow in order. -/
def zeros : List Nat :=
  [0x30, 0x660, 0x6f0, 0x7c0, 0x966, 0x9e6, 0xa66, 0xae6, 0xb66, 0xbe6, 0xc66, 0xce6, 0xd66, 0xde6,
   0xe50, 0xed0, 0xf20, 0x1040, 0x1090, 0x17e0, 0x1810, 0x1946, 0x19d0, 0x1a80, 0x1a90, 0x1b50,
   0x1bb0, 0x1c40, 0x1c50, 0xa620, 0xa8d0, 0xa900, 0xa9d0, 0xa9f0, 0xaa50, 0xabf0, 0xff10, 0x104a0,
   0x10d30, 0x11066, 0x110f0, 0x11136, 0x111d0, 0x112f0, 0x11450, 0x114d0, 0x11650, 0x116c0,
   0x11730, 0x118e0, 0x11950, 0x11c50, 0x11d50, 0x11da0, 0x16a60, 0x16ac0, 0x16b50, 0x1d7ce,
   0x1d7d8, 0x1d7e2, 0x1d7ec, 0x1d7f6, 0x1e140, 0x1e2f0, 0x1e950, 0x1fbf0]

/-- The value of a decimal digit of any script. -/
def digit? (c : Char) : Option Nat :=
  (zeros.find? fun z => z ≤ c.toNat && c.toNat < z + 10).map (c.toNat - ·)

/-- The number that a list of decimal digits writes. -/
def ofDigits (digits : List Nat) : Nat :=
  digits.foldl (10 * · + ·) 0

/-- One or more digits, with at most one underscore between two of them. -/
def digitGroup? : List Char → Option (List Nat)
  | [] => none
  | [c] => (digit? c).map ([·])
  | c :: '_' :: d :: cs => do return (← digit? c) :: (← digitGroup? (d :: cs))
  | c :: d :: cs => do return (← digit? c) :: (← digitGroup? (d :: cs))

/-- Splits off a leading sign; true stands for minus. -/
def splitSign : List Char → Bool × List Char
  | '-' :: cs => (true, cs)
  | '+' :: cs => (false, cs)
  | cs => (false, cs)

/-- The longest decimal numeral that is read as an integer. -/
def maxIntegerDigits : Nat := 4300

/-- An integer: blanks, a sign, digits, blanks. -/
def integer? (s : String) : Option Int := do
  let (negative, cs) := splitSign (trimBlanks s.toList)
  let digits ← digitGroup? cs
  if maxIntegerDigits < digits.length then none
  else
    let n : Int := ofDigits digits
    return if negative then -n else n

end Chomsky.Text

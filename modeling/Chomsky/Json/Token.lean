import Chomsky.Json.Basic
import Chomsky.Decimal.Binary
import Chomsky.Text.Numeral

/-!
# JSON tokens

A document is cut into tokens from left to right, and every token knows its position, counted in
characters. Blanks between tokens are the space, tab, carriage return and line feed. Where no token
can be cut, the last token of the list says what was found instead; whether that matters, and which
error it is, depends on what may stand there.
-/

namespace Chomsky.Json

/-- What is wrong with a document. -/
inductive Cause where
  | valueExpected
  | keyExpected
  | colonExpected
  | commaExpected
  | extraData
  | unterminatedString
  | controlCharacter
  | unknownEscape
  | badCodePoint
  | byteOrderMark
  /-- An integer has more digits than are read. -/
  | longInteger (digits : Nat)
deriving DecidableEq, Repr

/-- What is wrong, and where. -/
structure Flaw where
  cause : Cause
  position : Nat
deriving DecidableEq, Repr

inductive Token where
  | openArray
  | closeArray
  | openObject
  | closeObject
  | comma
  | colon
  | text (s : String)
  /-- A number or one of the words for a value. -/
  | scalar (value : Json)
  /-- A string or number that cannot be read. -/
  | broken (flaw : Flaw)
  | unknown

def hexDigit? (c : Char) : Option Nat :=
  if '0' ≤ c ∧ c ≤ '9' then some (c.toNat - '0'.toNat)
  else if 'a' ≤ c ∧ c ≤ 'f' then some (c.toNat - 'a'.toNat + 10)
  else if 'A' ≤ c ∧ c ≤ 'F' then some (c.toNat - 'A'.toNat + 10)
  else none

/-- The 16-bit unit that four hexadecimal digits write. -/
def unit? (a b c d : Char) : Option Nat := do
  return (((← hexDigit? a) * 16 + (← hexDigit? b)) * 16 + (← hexDigit? c)) * 16 + (← hexDigit? d)

/-- The character of a 16-bit unit; a surrogate that is not part of a pair has none. -/
def unitChar (n : Nat) : Char :=
  if n.isValidChar then Char.ofNat n else '\ufffd'

/-- The character that a letter after a backslash stands for. -/
def letterEscape? : Char → Option Char
  | '\x22' => some '\x22'
  | '\\' => some '\\'
  | '/' => some '/'
  | 'b' => some '\x08'
  | 'f' => some '\x0c'
  | 'n' => some '\n'
  | 'r' => some '\r'
  | 't' => some '\t'
  | _ => none

/-- Reads a string from behind its opening quote at `start`; `here` is the position of the first of
the characters. Answers its text and the position behind its closing quote. -/
def readText (start here : Nat) : List Char → Except Flaw (List Char × Nat)
  | [] => .error ⟨.unterminatedString, start⟩
  | '\x22' :: _ => .ok ([], here + 1)
  | ['\\'] => .error ⟨.unterminatedString, start⟩
  | '\\' :: 'u' :: a :: b :: c :: d :: e :: rest =>
    match unit? a b c d with
    | none => .error ⟨.badCodePoint, here + 1⟩
    | some high =>
      let single := do
        let (text, stop) ← readText start (here + 6) (e :: rest)
        return (unitChar high :: text, stop)
      if 0xd800 ≤ high && high < 0xdc00 && e = '\\' then
        match rest with
        | 'u' :: f :: g :: h :: i :: j :: rest =>
          match unit? f g h i with
          | none => .error ⟨.badCodePoint, here + 7⟩
          | some low =>
            if 0xdc00 ≤ low && low < 0xe000 then do
              let (text, stop) ← readText start (here + 12) (j :: rest)
              return (Char.ofNat (0x10000 + (high - 0xd800) * 0x400 + (low - 0xdc00)) :: text, stop)
            else single
        | _ => single
      else single
  | '\\' :: 'u' :: _ => .error ⟨.badCodePoint, here + 1⟩
  | '\\' :: c :: rest =>
    match letterEscape? c with
    | none => .error ⟨.unknownEscape, here⟩
    | some c => do
      let (text, stop) ← readText start (here + 2) rest
      return (c :: text, stop)
  | c :: rest =>
    if c.toNat < 0x20 then .error ⟨.controlCharacter, here⟩
    else do
      let (text, stop) ← readText start (here + 1) rest
      return (c :: text, stop)

/-- The number that a list of the digits 0 to 9 writes. -/
def natOfDigits (digits : List Char) : Nat :=
  Text.ofDigits (digits.map fun c => c.toNat - '0'.toNat)

/-- The digits after a point, if the characters begin with a point and a digit. -/
def fractionDigits : List Char → List Char
  | '.' :: rest => rest.takeWhile Char.isDigit
  | _ => []

/-- The length and value of an exponent, if the characters begin with one. -/
def exponentPart? : List Char → Option (Nat × Int)
  | mark :: rest =>
    if mark = 'e' || mark = 'E' then
      let (negative, signed, unsigned) := match rest with
        | '-' :: r => (true, 1, r)
        | '+' :: r => (false, 1, r)
        | r => (false, 0, r)
      let digits := unsigned.takeWhile Char.isDigit
      let n : Int := natOfDigits digits
      if digits.isEmpty then none
      else some (1 + signed + digits.length, if negative then -n else n)
    else none
  | [] => none

/-- Reads a number behind its sign at `here`: its length and value. A leading zero stands alone. -/
def readNumber? (here : Nat) (negative : Bool) (cs : List Char) : Option (Token × Nat) :=
  let digits := cs.takeWhile Char.isDigit
  let whole := if digits.head? = some '0' then ['0'] else digits
  if whole.isEmpty then none
  else
    let rest := cs.drop whole.length
    let fraction := fractionDigits rest
    let fractionLength := if fraction.isEmpty then 0 else fraction.length + 1
    let exponent := exponentPart? (rest.drop fractionLength)
    if fraction.isEmpty && exponent.isNone then
      if Text.maxIntegerDigits < whole.length then
        some (.broken ⟨.longInteger whole.length, here⟩, whole.length)
      else
        let n : Int := natOfDigits whole
        some (.scalar (.int (if negative then -n else n)), whole.length)
    else
      let (exponentLength, power) := exponent.getD (0, 0)
      let x := Decimal.toFloat negative (natOfDigits (whole ++ fraction)) (power - fraction.length)
      some (.scalar (.float x), whole.length + fractionLength + exponentLength)

/-- The words that stand for values. -/
def words : List (String × Json) :=
  [("null", .null), ("true", .bool true), ("false", .bool false), ("NaN", .float (0.0 / 0.0)),
   ("Infinity", .float (1.0 / 0.0)), ("-Infinity", .float (-1.0 / 0.0))]

/-- The token at the head of the characters, and its length. -/
def token (here : Nat) (cs : List Char) : Token × Nat :=
  match cs with
  | '[' :: _ => (.openArray, 1)
  | ']' :: _ => (.closeArray, 1)
  | '\x7b' :: _ => (.openObject, 1)
  | '\x7d' :: _ => (.closeObject, 1)
  | ',' :: _ => (.comma, 1)
  | ':' :: _ => (.colon, 1)
  | '\x22' :: rest =>
    match readText here (here + 1) rest with
    | .ok (text, stop) => (.text (String.ofList text), stop - here)
    | .error flaw => (.broken flaw, 1)
  | _ =>
    match words.find? fun w => w.1.toList.isPrefixOf cs with
    | some (word, value) => (.scalar value, word.length)
    | none =>
      match cs with
      | '-' :: rest =>
        match readNumber? here true rest with
        | some (t, length) => (t, length + 1)
        | none => (.unknown, 1)
      | _ => (readNumber? here false cs).getD (.unknown, 1)

/-- Whether cutting stops at this token. -/
def Token.isLast : Token → Bool
  | broken _ => true
  | unknown => true
  | _ => false

def isSpace (c : Char) : Bool := c = ' ' || c = '\t' || c = '\n' || c = '\r'

/-- The tokens of the characters with their positions. The first character stands at `here`, and the
first `skip` characters belong to a token that has been cut already. -/
def tokensFrom (skip here : Nat) : List Char → List (Nat × Token)
  | [] => []
  | c :: rest =>
    match skip with
    | skip + 1 => tokensFrom skip (here + 1) rest
    | 0 =>
      if isSpace c then tokensFrom 0 (here + 1) rest
      else
        let (t, length) := token here (c :: rest)
        if t.isLast then [(here, t)]
        else (here, t) :: tokensFrom (length - 1) (here + 1) rest

def tokens (cs : List Char) : List (Nat × Token) := tokensFrom 0 0 cs

end Chomsky.Json

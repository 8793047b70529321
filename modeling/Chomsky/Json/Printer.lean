import Chomsky.Json.Basic
import Chomsky.Decimal.Layout
import Chomsky.Text.Numeral
import Chomsky.Text.Quoted

/-!
# Writing JSON

A document is written in one of two layouts: compact, on one line and with the fields of every
object in the order of their keys, or indented, with one space a level and the fields in their own
order. Only the quote, the backslash and the control characters are escaped. A file is given an
indented document in `pieces`. A third form, `describe`, is the one in which messages show values; a
value of too many levels, or with an integer of too many digits, cannot be shown (`showFault?`).
-/

namespace Chomsky.Json

/-- How documents spell the doubles that are not finite. -/
def documentSpelling : Decimal.Spelling := ⟨"Infinity", "NaN"⟩

/-- How messages spell them. -/
def messageSpelling : Decimal.Spelling := ⟨"inf", "nan"⟩

def escapedChar (c : Char) : List Char :=
  match c with
  | '\x22' => ['\\', '\x22']
  | '\\' => ['\\', '\\']
  | '\n' => ['\\', 'n']
  | '\r' => ['\\', 'r']
  | '\t' => ['\\', 't']
  | '\x08' => ['\\', 'b']
  | '\x0c' => ['\\', 'f']
  | c => if c.toNat < 0x20 then '\\' :: 'u' :: Text.hex 4 c.toNat else [c]

def writeText (s : String) : String :=
  String.ofList ('\x22' :: s.toList.flatMap escapedChar ++ ['\x22'])

def separated (parts : List String) : String := ",".intercalate parts

mutual

/-- The value on one line, without blanks, the fields of objects in the order of their keys. -/
def compact : Json → String
  | null => "null"
  | bool b => if b then "true" else "false"
  | int n => toString n
  | float x => Decimal.write documentSpelling x
  | string s => writeText s
  | array items => "[" ++ separated (compactItems items) ++ "]"
  | object fields =>
    let written := (compactFields fields).mergeSort fun f g => !decide (g.1 < f.1)
    "\x7b" ++ separated (written.map fun f => writeText f.1 ++ ":" ++ f.2) ++ "\x7d"

def compactItems : List Json → List String
  | [] => []
  | v :: rest => compact v :: compactItems rest

def compactFields : List (String × Json) → List (String × String)
  | [] => []
  | (key, v) :: rest => (key, compact v) :: compactFields rest

end

mutual

/-- Whether an integer in the value has more digits than are ever written or read. -/
def hasLongInteger : Json → Bool
  | null => false
  | bool _ => false
  | int n => Text.maxIntegerDigits < (Nat.toDigits 10 n.natAbs).length
  | float _ => false
  | string _ => false
  | array items => itemsHaveLongInteger items
  | object fields => fieldsHaveLongInteger fields

def itemsHaveLongInteger : List Json → Bool
  | [] => false
  | v :: rest => hasLongInteger v || itemsHaveLongInteger rest

def fieldsHaveLongInteger : List (String × Json) → Bool
  | [] => false
  | (_, v) :: rest => hasLongInteger v || fieldsHaveLongInteger rest

end

/-- A line feed, and the spaces in front of a line at this level. -/
def newline (level : Nat) : String := String.ofList ('\n' :: List.replicate level ' ')

/-- The parts of an array or object on lines of their own, between two brackets. -/
def block (level : Nat) (opening closing : String) (parts : List String) : String :=
  if parts.isEmpty then opening ++ closing
  else
    opening ++ newline (level + 1) ++ ("," ++ newline (level + 1)).intercalate parts
      ++ newline level ++ closing

mutual

/-- The value with every item and field on its own line. -/
def indented (level : Nat) : Json → String
  | array items => block level "[" "]" (indentedItems (level + 1) items)
  | object fields => block level "\x7b" "\x7d" (indentedFields (level + 1) fields)
  | null => compact null
  | bool b => compact (bool b)
  | int n => compact (int n)
  | float x => compact (float x)
  | string s => compact (string s)

def indentedItems (level : Nat) : List Json → List String
  | [] => []
  | v :: rest => indented level v :: indentedItems level rest

def indentedFields (level : Nat) : List (String × Json) → List String
  | [] => []
  | (key, v) :: rest => (writeText key ++ ": " ++ indented level v) :: indentedFields level rest

end

/-- Whether the value is neither an array nor an object. -/
def isScalar : Json → Bool
  | array _ => false
  | object _ => false
  | _ => true

/-- The pieces of an item behind what stands in front of it; a scalar is one piece with that. -/
def leadItem (lead : String) (v : Json) (parts : List String) : List String :=
  if v.isScalar then [lead ++ String.join parts] else lead :: parts

mutual

/-- The pieces in which the indented value is written to a file, one after the other. -/
def pieces (level : Nat) : Json → List String
  | array items =>
    if items.isEmpty then ["[]"]
    else itemPieces (level + 1) ("[" ++ newline (level + 1)) items ++ [newline level, "]"]
  | object fields =>
    if fields.isEmpty then ["\x7b\x7d"]
    else
      "\x7b" :: fieldPieces (level + 1) (newline (level + 1)) fields ++ [newline level, "\x7d"]
  | null => [compact null]
  | bool b => [compact (bool b)]
  | int n => [compact (int n)]
  | float x => [compact (float x)]
  | string s => [compact (string s)]

def itemPieces (level : Nat) (lead : String) : List Json → List String
  | [] => []
  | v :: rest => leadItem lead v (pieces level v) ++ itemPieces level ("," ++ newline level) rest

def fieldPieces (level : Nat) (lead : String) : List (String × Json) → List String
  | [] => []
  | (key, v) :: rest =>
    lead :: writeText key :: ": " :: pieces level v ++
      fieldPieces level ("," ++ newline level) rest

end

mutual

/-- How messages show a value. -/
def describe : Json → String
  | null => "None"
  | bool b => if b then "True" else "False"
  | int n => toString n
  | float x => Decimal.write messageSpelling x
  | string s => Text.quoted s
  | array items => Text.bracketed (describeItems items)
  | object fields => "\x7b" ++ ", ".intercalate (describeFields fields) ++ "\x7d"

def describeItems : List Json → List String
  | [] => []
  | v :: rest => describe v :: describeItems rest

def describeFields : List (String × Json) → List String
  | [] => []
  | (key, v) :: rest => (Text.quoted key ++ ": " ++ describe v) :: describeFields rest

end

/-- Why a value cannot be shown. -/
inductive ShowFault where
  /-- An integer has too many digits. -/
  | longInteger
  /-- There are more levels than there is room for. -/
  | tooDeep
deriving DecidableEq, Repr

mutual

/-- What keeps messages from showing the value where there is room for so many levels, if anything
does. A value is a level of its own, and what it holds is shown in order. -/
def showFault? : Nat → Json → Option ShowFault
  | 0, _ => some .tooDeep
  | _ + 1, null => none
  | _ + 1, bool _ => none
  | _ + 1, int n => if hasLongInteger (int n) then some .longInteger else none
  | _ + 1, float _ => none
  | _ + 1, string _ => none
  | room + 1, array items => itemsShowFault? room items
  | room + 1, object fields => fieldsShowFault? room fields

def itemsShowFault? (room : Nat) : List Json → Option ShowFault
  | [] => none
  | v :: rest => (showFault? room v).or (itemsShowFault? room rest)

def fieldsShowFault? (room : Nat) : List (String × Json) → Option ShowFault
  | [] => none
  | (_, v) :: rest => (showFault? room v).or (fieldsShowFault? room rest)

end

end Chomsky.Json

import Chomsky.Decimal.Quantity
import Chomsky.Json.Printer

/-!
# Foreign values

Where a rule or a symbol should stand, there may be any other value of a document. It is kept with
all that an answer can show of it: its text, the name of its type, and what it is when values are
compared. Texts are compared as such and numbers as quantities, so that different values may count
as the same.
-/

namespace Chomsky

/-- What a value is when it is compared. -/
inductive Content where
  | text (s : String)
  | number (q : Decimal.Quantity)
  /-- Any other value, as it is shown. -/
  | other (shown : String)
deriving DecidableEq, Hashable, Repr

/-- The truth values are numbers. -/
def Content.ofJson : Json → Content
  | .string s => text s
  | .int n => number (.ofInt n)
  | .float x => number (.ofFloat x)
  | .bool b => number (.ofInt (if b then 1 else 0))
  | value => other value.describe

/-- A value of another sort than the one that is wanted. -/
structure Foreign where
  content : Content
  /-- The value as messages show it. -/
  shown : String
  typeName : String
deriving DecidableEq, Hashable, Repr

namespace Foreign

def ofJson (value : Json) : Foreign := ⟨.ofJson value, value.describe, value.typeName⟩

def toText (value : Foreign) : String :=
  match value.content with
  | .text s => s
  | _ => value.shown

/-- Whether the value may be in a set. -/
def isHashable (value : Foreign) : Bool :=
  value.typeName ≠ (Json.array []).typeName && value.typeName ≠ (Json.object []).typeName

end Foreign

/-- Something that stands where an `α` should. -/
inductive Item (α : Type) where
  | fitting (a : α)
  | foreign (value : Foreign)
deriving DecidableEq, Hashable, Repr

namespace Item

variable {α : Type}

def fitting? : Item α → Option α
  | fitting a => some a
  | foreign _ => none

def foreign? : Item α → Option Foreign
  | fitting _ => none
  | foreign value => some value

/-- The text of an item, if `textOf` gives that of an `α`. -/
def text (textOf : α → String) : Item α → String
  | fitting a => textOf a
  | foreign value => value.toText

/-- How messages show an item, if `describe` shows an `α`. -/
def describe (describe : α → String) : Item α → String
  | fitting a => describe a
  | foreign value => value.shown

/-- What an item is when it is compared. -/
def content : Item α → α ⊕ Content
  | fitting a => .inl a
  | foreign value => .inr value.content

/-- Whether two items count as the same. -/
def same [DecidableEq α] (x y : Item α) : Bool := x.content = y.content

end Item

end Chomsky

import Chomsky.Outline.Fault

/-!
# Comparison of items

Symbols have an order if their kinds are known, and of the other values texts have one and numbers
have one. A list of items is sorted by asking for the order of two items after the other, and the
first two that have none are the fault. Two outlines can be compared unless one holds a value that
cannot be in a set.
-/

namespace Chomsky

open Outline (Fault)

/-- Whether one symbol comes before another. -/
def LooseSymbol.before : LooseSymbol → LooseSymbol → Except Fault Bool
  | symbol X, symbol Y => .ok (X.before Y)
  | _, _ => .error .kindUnknown

/-- Whether one value comes before another. -/
def Foreign.before (x y : Foreign) : Except Fault Bool :=
  match x.content, y.content with
  | .text s, .text t => .ok (s < t)
  | .number p, .number q => .ok (p.before q)
  | _, _ => .error (.noOrder x.typeName y.typeName)

namespace Outline

/-! ## Order -/

/-- Whether one item comes before another. -/
def before : Item LooseSymbol → Item LooseSymbol → Except Fault Bool
  | .fitting x, .fitting y => x.before y
  | .fitting _, .foreign _ => .error .notComparable
  | .foreign x, .fitting y => .error (.noOrder x.typeName y.typeName)
  | .foreign x, .foreign y => x.before y

/-- How many items at the front are in descending order, each before the one in front of it, or how
many are in order. -/
def runLength (descending : Bool) : List (Item LooseSymbol) → Except Fault Nat
  | x :: y :: items => do
    if (← before y x) = descending then return (← runLength descending (y :: items)) + 1
    else return 1
  | items => .ok items.length

/-- The place of an item among sorted items, behind all that it is not before. It lies between the
bounds, and the item in the middle tells in which half. -/
def place (x : Item LooseSymbol) (items : List (Item LooseSymbol)) (low high : Nat) :
    Except Fault Nat :=
  if _ : low < high then
    let middle := (low + high) / 2
    match items[middle]? with
    | none => .ok high
    | some y => do
      if ← before x y then place x items low middle else place x items (middle + 1) high
  else .ok low
termination_by high - low

def insert (items : List (Item LooseSymbol)) (x : Item LooseSymbol) :
    Except Fault (List (Item LooseSymbol)) := do
  return items.insertIdx (← place x items 0 items.length) x

/-- The items in order. The items at the front are taken as they stand as long as they are in order
or in descending order; then one is inserted after the other. -/
def sort : List (Item LooseSymbol) → Except Fault (List (Item LooseSymbol))
  | x :: y :: items => do
    let descending ← before y x
    let n ← runLength descending (x :: y :: items)
    let run := (x :: y :: items).take n
    ((x :: y :: items).drop n).foldlM insert (if descending then run.reverse else run)
  | items => .ok items

/-! ## Equality -/

/-- The first item that cannot be in a set is a fault. -/
def requireHashable {α : Type} (items : List (Item α)) : Except Fault Unit :=
  match (items.filterMap Item.foreign?).find? fun value => !value.isHashable with
  | some value => .error (.notHashable value)
  | none => .ok ()

/-- Whether two items are the same, if both can be in a set. -/
def compareItems {α : Type} [DecidableEq α] (x y : Item α) : Except Fault Bool := do
  requireHashable [x, y]
  return x.same y

/-- Whether two outlines are the same, if all in them can be in a set. -/
def compare (o p : Outline) : Except Fault Bool := do
  requireHashable (o.rules ++ p.rules)
  return o.same p

end Outline

end Chomsky

import Chomsky.Transformation

/-!
# Sessions

A session applies transformations to its current grammar. A failed one leaves the current grammar as
it was, though not the allocator of the session. Rules, and anything else, may also be put among the
rules of the current grammar and taken out again without any check, so what is current is an
outline.
-/

namespace Chomsky

structure Session where
  current : Outline
  allocator : Allocator
  /-- Outlines that were set aside under a name. -/
  saved : List (String × Outline) := []

namespace Session

/-- Why a step of a session has no effect. -/
inductive Fault where
  | unknownSlot (name : String)
  | noRules
  | noSuchRule
  /-- The index does not fit into 64 bits. -/
  | indexTooLarge
deriving DecidableEq, Repr

def Fault.message : Fault → String
  | unknownSlot name => Text.quoted name
  | noRules => "pop from empty list"
  | noSuchRule => "pop index out of range"
  | indexTooLarge => "pop index too large"

/-- Applies a transformation. The current grammar changes only if it succeeds. -/
def transform (s : Session) (t : Transformation) : Session × Report Outline.Fault Grammar :=
  let (a, report) := t.apply s.current s.allocator
  match report.result with
  | .ok g => ({ s with current := .ofGrammar g, allocator := a }, report)
  | .error _ => ({ s with allocator := a }, report)

/-- Replaces parts of the current grammar, if that gives a grammar. -/
def replace (s : Session) (changes : Outline.Changes) :
    Except Outline.Fault (Session × Grammar) := do
  let g ← changes.apply s.current
  return ({ s with current := .ofGrammar g }, g)

/-- Adds an item at the end of the rules. -/
def pushRule (s : Session) (item : Item LooseRule) : Session :=
  { s with current := { s.current with rules := s.current.rules ++ [item] } }

/-- The first number that does not fit into 64 bits with a sign. -/
def indexLimit : Int := 9223372036854775808

/-- Takes out the item at an index; a negative index counts from the end. -/
def popRule (s : Session) (index : Int) : Except Fault (Session × Item LooseRule) :=
  let rules := s.current.rules
  let place := if index < 0 then index + rules.length else index
  if index < -indexLimit || indexLimit ≤ index then .error .indexTooLarge
  else if rules.isEmpty then .error .noRules
  else if place < 0 then .error .noSuchRule
  else
    match rules[place.toNat]? with
    | none => .error .noSuchRule
    | some item =>
      .ok ({ s with current := { s.current with rules := rules.eraseIdx place.toNat } }, item)

def save (s : Session) (slot : String) : Session :=
  { s with saved := (slot, s.current) :: s.saved }

def slot (s : Session) (name : String) : Except Fault Outline :=
  match s.saved.lookup name with
  | some o => .ok o
  | none => .error (.unknownSlot name)

def load (s : Session) (name : String) : Except Fault Session := do
  return { s with current := ← s.slot name }

end Session

end Chomsky

import Chomsky.Allocator
import Chomsky.Closure
import Chomsky.Report

/-!
# Nullable nonterminals and epsilon rules

A nonterminal is nullable when it derives the empty string. `Grammar.withoutEpsilon` drops the
epsilon rules and gives every other rule a copy for each way of leaving out some of the nullable
symbols on its right side, as long as something is left there. The empty string is lost, unless it
is asked for: then the start symbol keeps an epsilon rule, or, if it occurs on a right side, a new
start symbol gets one.
-/

namespace Chomsky

/-- The lists of `k` elements of `l`, in the order of `l`, the ones with early elements first. -/
def choose {α : Type} : Nat → List α → List (List α)
  | 0, _ => [[]]
  | _ + 1, [] => []
  | k + 1, a :: l => (choose k l).map (a :: ·) ++ choose (k + 1) l

/-- All selections from `l`, small ones first. -/
def selections {α : Type} (l : List α) : List (List α) :=
  (List.range (l.length + 1)).flatMap (choose · l)

/-- The positions of a right side at which a nullable symbol stands. -/
def nullablePositions {α : Type} [BEq α] (nullable right : List α) : List Nat :=
  (right.zipIdx.filter fun p => nullable.contains p.1).map Prod.snd

/-- A right side without the symbols at these positions. -/
def dropPositions {α : Type} (positions : List Nat) (right : List α) : List α :=
  (right.zipIdx.filter fun p => !positions.contains p.2).map Prod.fst

/-- A right side after its copies that leave out some nullable symbols, but not all symbols. -/
def expansions {α : Type} [BEq α] (nullable right : List α) : List (List α) :=
  let left := (selections (nullablePositions nullable right)).filter fun J => !J.isEmpty
  (left.map (dropPositions · right)).filter (fun copy => !copy.isEmpty) ++ [right]

/-- The rule after its copies. -/
def Rule.expansions (nullable : List Symbol) (r : Rule) : List Rule :=
  (Chomsky.expansions nullable r.right).map fun right => { r with right }

/-- What becomes of the empty string, and how many copies a rule may get. -/
structure EpsilonOptions where
  /-- Keep the empty string in the language. -/
  augmentStart : Bool := false
  /-- The greatest number of nullable positions that a rule may have. -/
  maxNullablePositions : Option Int := none
deriving DecidableEq, Repr

/-- What keeps the empty string in the language: a start symbol, and what it needs in front of the
rules and the nonterminals. -/
structure Augmentation where
  start : Nonterminal
  rules : List Rule
  nonterminals : List Nonterminal
deriving DecidableEq, Repr

/-- The augmentation for a start symbol that occurs on some right side or on none. A new start
symbol is named after the old one, with a zero behind it. -/
def Augmentation.make (start : Nonterminal) (occurs : Bool) (taken : List String) (a : Allocator) :
    Allocator × Except Failure Augmentation :=
  if occurs then
    match a.named (start.name ++ "0") taken with
    | (a, .error failure) => (a, .error failure)
    | (a, .ok new) => (a, .ok ⟨new, [⟨new, [.nonterminal start]⟩, ⟨new, []⟩], [new]⟩)
  else (a, .ok ⟨start, [⟨start, []⟩], []⟩)

/-- The report of the removal of epsilon rules that took the allocator from `a` to `later`. -/
def epsilonReport {ε : Type} (names : List String) (a later : Allocator)
    (result : Except ε Grammar) : Report ε Grammar :=
  ⟨result, .nullable names :: (a.mintedSince later).map .introduced, []⟩

namespace Grammar

/-- The nonterminals that derive the empty string. -/
def nullable (g : Grammar) : List Symbol :=
  Clause.closure [] (g.rules.map fun r => ⟨r.right, .nonterminal r.left⟩)

/-- The first rule with more nullable positions than are allowed. -/
def overLimit? (g : Grammar) (nullable : List Symbol) (limit : Option Int) : Option Failure := do
  let limit ← limit
  let r ← g.rules.find? fun r =>
    !r.isEpsilon && decide (limit < (nullablePositions nullable r.right).length)
  return .expansionLimit r (nullablePositions nullable r.right).length limit

/-- The expansions of all rules but the epsilon rules. -/
def expandedRules (g : Grammar) (nullable : List Symbol) : List Rule :=
  (g.rules.filter fun r => !r.isEpsilon).flatMap (Rule.expansions nullable)

/-- Removes the epsilon rules. -/
def withoutEpsilon (g : Grammar) (nullable : List Symbol) (options : EpsilonOptions)
    (a : Allocator) : Allocator × Except Failure Grammar :=
  match g.overLimit? nullable options.maxNullablePositions with
  | some failure => (a, .error failure)
  | none =>
    let rules := g.expandedRules nullable
    if !options.augmentStart || !nullable.contains (.nonterminal g.start) then
      (a, { g with rules }.checked)
    else
      match Augmentation.make g.start (occursOnRight g.start rules) g.symbolNames a with
      | (a, .error failure) => (a, .error failure)
      | (a, .ok new) =>
        (a, { g with
          start := new.start
          rules := new.rules ++ rules
          nonterminals := new.nonterminals ++ g.nonterminals }.checked)

/-- Removes the epsilon rules and reports. -/
def removeEpsilon (g : Grammar) (nullable : List Symbol) (options : EpsilonOptions)
    (a : Allocator) : Allocator × Report Failure Grammar :=
  let (later, result) := g.withoutEpsilon nullable options a
  (later, epsilonReport ((Symbol.sort nullable.eraseDups).map Symbol.name) a later result)

end Grammar

end Chomsky

import Chomsky.Failure
import Chomsky.Outline.Basic

/-!
# Questions about outlines

What a grammar is asked, an outline may be asked too, and gives the same answer as long as it can.
It cannot when the answer depends on the kind of a symbol without a kind, or on a part of a value
that is no rule. Questions are put in a fixed order, and the first one without an answer is the
fault.
-/

namespace Chomsky

namespace Outline

/-- What may be asked of an item. -/
inductive Question where
  | left
  | isEpsilon
  | isUnary
  | isLexical
  | isTerminal
  | replaced
deriving DecidableEq, Repr

/-- How messages name a question. -/
def Question.name : Question → String
  | left => "left"
  | isEpsilon => "is_epsilon"
  | isUnary => "is_unary"
  | isLexical => "is_lexical"
  | isTerminal => "is_terminal"
  | replaced => "replaced"

/-- Why an operation on an outline, or on something to make one of, gives no result. -/
inductive Fault where
  | leftNotNonterminal
  | rightNotSymbols
  | startNotNonterminal
  | notRules
  | notNonterminals
  | notTerminals
  /-- The kind of a symbol without a kind is needed. -/
  | kindUnknown
  /-- A symbol is compared with a value that is none. -/
  | notComparable
  /-- Things of these sorts have no order. -/
  | noOrder (left right : String)
  /-- A value is asked what only a rule or a symbol can answer. -/
  | noAnswer (value : Foreign) (question : Question)
  /-- A value stands where a list should. -/
  | notIterable (value : Foreign)
  /-- A value stands in a set that cannot be there. -/
  | notHashable (value : Foreign)
  | undeclaredLeft (r : LooseRule)
  | undeclaredSymbol (X : Symbol) (r : LooseRule)
  /-- A rule has more nullable positions than are allowed. -/
  | expansionLimit (r : LooseRule) (positions : Nat) (limit : Int)
  /-- The operation fails as it does on a grammar. -/
  | failure (f : Failure)
deriving DecidableEq, Repr

def Fault.message : Fault → String
  | leftNotNonterminal => "left side must be a nonterminal"
  | rightNotSymbols => "right side must be a sequence of symbols"
  | startNotNonterminal => "start symbol must be a nonterminal"
  | notRules => "rules must be instances of <class 'cnf.formal_models.cfg.Rule'>"
  | notNonterminals => "nonterminals must be instances of Nonterminal"
  | notTerminals => "terminals must be instances of Terminal"
  | kindUnknown => ""
  | notComparable => ""
  | noOrder left right =>
    s!"'<' not supported between instances of {Text.quoted left} and {Text.quoted right}"
  | noAnswer value question =>
    s!"{Text.quoted value.typeName} object has no attribute {Text.quoted question.name}"
  | notIterable value => s!"{Text.quoted value.typeName} object is not iterable"
  | notHashable value => s!"unhashable type: {Text.quoted value.typeName}"
  | undeclaredLeft r => s!"left side of rule {r.text} is not a declared nonterminal"
  | undeclaredSymbol X r => s!"symbol {X.name} in rule {r.text} is not declared"
  | expansionLimit r positions limit =>
    s!"rule {r.text} has {positions} nullable positions, more than the limit of {limit}"
  | failure f => f.message

end Outline

open Outline (Fault Question)

/-- What an item is, for the answer to a question. -/
def Item.ask {α : Type} (question : Question) : Item α → Except Fault α
  | fitting a => .ok a
  | foreign value => .error (.noAnswer value question)

namespace LooseSymbol

def isTerminal : LooseSymbol → Except Fault Bool
  | symbol X => .ok X.isTerminal
  | kindless _ => .error .kindUnknown

def isNonterminal : LooseSymbol → Except Fault Bool
  | symbol X => .ok X.isNonterminal
  | kindless _ => .error .kindUnknown

end LooseSymbol

namespace LooseRule

/-- A rule from its sides. -/
def make (left : Item LooseSymbol) (right : List (Item LooseSymbol)) : Except Fault LooseRule :=
  match left with
  | .fitting (.symbol (.nonterminal A)) =>
    match right.mapM Item.fitting? with
    | some right => .ok ⟨A, right⟩
    | none => .error .rightNotSymbols
  | _ => .error .leftNotNonterminal

def isEpsilon (r : LooseRule) : Bool := r.right.isEmpty

/-- The right side is a single nonterminal. -/
def isUnary (r : LooseRule) : Except Fault Bool :=
  match r.right with
  | [x] => x.isNonterminal
  | _ => .ok false

/-- The right side is a single terminal. -/
def isLexical (r : LooseRule) : Except Fault Bool :=
  match r.right with
  | [x] => x.isTerminal
  | _ => .ok false

/-- The right side is two nonterminals. The second symbol is not asked if the first is no
nonterminal. -/
def isBinary (r : LooseRule) : Except Fault Bool :=
  match r.right with
  | [x, y] => do if ← x.isNonterminal then y.isNonterminal else return false
  | _ => .ok false

/-- The answers to all questions about the form of a rule. -/
structure Shape where
  isEpsilon : Bool
  isUnary : Bool
  isLexical : Bool
  isBinary : Bool
deriving DecidableEq, Repr

def shape (r : LooseRule) : Except Fault Shape := do
  return ⟨r.isEpsilon, ← r.isUnary, ← r.isLexical, ← r.isBinary⟩

end LooseRule

end Chomsky

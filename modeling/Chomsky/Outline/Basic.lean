import Chomsky.Grammar.Basic
import Chomsky.Outline.Foreign

/-!
# Outlines of grammars

An outline has the parts of a grammar, but its rules have not been checked. A rule may hold symbols
without a kind, of which nobody can tell whether they are nonterminals or terminals, and among the
rules there may be values that are no rules at all. An outline without either is a grammar.
-/

namespace Chomsky

/-- A symbol that may lack a kind. -/
inductive LooseSymbol where
  | symbol (X : Symbol)
  /-- A name without a kind. -/
  | kindless (name : String)
deriving DecidableEq, Hashable, Repr

namespace LooseSymbol

def name : LooseSymbol → String
  | symbol X => X.name
  | kindless name => name

def describe : LooseSymbol → String
  | symbol X => X.describe
  | kindless name => s!"Symbol({Text.quoted name})"

/-- What messages call the sort of the symbol. -/
def typeName : LooseSymbol → String
  | symbol (.nonterminal _) => "Nonterminal"
  | symbol (.terminal _) => "Terminal"
  | kindless _ => "Symbol"

def symbol? : LooseSymbol → Option Symbol
  | symbol X => some X
  | kindless _ => none

end LooseSymbol

/-- A rule whose right side may hold symbols without a kind. -/
structure LooseRule where
  left : Nonterminal
  right : List LooseSymbol
deriving DecidableEq, Hashable, Repr

namespace LooseRule

def ofRule (r : Rule) : LooseRule := ⟨r.left, r.right.map .symbol⟩

/-- The rule, if all symbols have a kind. -/
def toRule? (r : LooseRule) : Option Rule := do
  return ⟨r.left, ← r.right.mapM LooseSymbol.symbol?⟩

def text (r : LooseRule) : String :=
  s!"{r.left.name} -> " ++
    if r.right.isEmpty then epsilon else " ".intercalate (r.right.map LooseSymbol.name)

def describe (r : LooseRule) : String :=
  "Rule" ++ Text.tuple [r.left.describe, Text.tuple (r.right.map LooseSymbol.describe)]

end LooseRule

/-- A grammar whose rules have not been checked. -/
structure Outline where
  start : Nonterminal
  rules : List (Item LooseRule)
  nonterminals : List Nonterminal
  terminals : List Terminal
deriving DecidableEq, Hashable, Repr

namespace Outline

def ofGrammar (g : Grammar) : Outline where
  start := g.start
  rules := g.rules.map fun r => .fitting (.ofRule r)
  nonterminals := g.nonterminals
  terminals := g.terminals

/-- The rule that an item is, if it is one and all its symbols have a kind. -/
def rule? (item : Item LooseRule) : Option Rule := item.fitting?.bind LooseRule.toRule?

/-- The grammar with those rules that have a kind for every symbol. -/
def properPart (o : Outline) : Grammar where
  start := o.start
  rules := o.rules.filterMap rule?
  nonterminals := o.nonterminals
  terminals := o.terminals

/-- The grammar that the outline is, if nothing in it lacks a kind or is no rule. -/
def grammar? (o : Outline) : Option Grammar :=
  if o.rules.all fun item => (rule? item).isSome then some o.properPart else none

/-- Whether two outlines have the same parts. -/
def same (o p : Outline) : Bool :=
  o.start = p.start && o.rules.map Item.content = p.rules.map Item.content &&
    o.nonterminals = p.nonterminals && o.terminals = p.terminals

def isEmpty (o : Outline) : Bool := o.nonterminals.isEmpty && o.rules.isEmpty

/-- One rule a line. -/
def text (o : Outline) : String := "\n".intercalate (o.rules.map (Item.text LooseRule.text))

def describe (o : Outline) : String :=
  "Grammar" ++ Text.tuple
    [o.start.describe, Text.bracketed (o.rules.map (Item.describe LooseRule.describe)),
      Text.bracketed (o.nonterminals.map Nonterminal.describe),
      Text.bracketed (o.terminals.map Terminal.describe)]

end Outline

end Chomsky

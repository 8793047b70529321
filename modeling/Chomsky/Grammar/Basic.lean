import Chomsky.Rule

/-!
# Grammars

A context-free grammar declares its nonterminals and terminals in order, and has a start symbol and
a list of rules. The type holds any such data; which grammars are well formed is the subject of
`Chomsky.Grammar.Validity`. The grammar without nonterminals and rules is empty and generates
nothing.
-/

namespace Chomsky

structure Grammar where
  start : Nonterminal
  rules : List Rule
  nonterminals : List Nonterminal
  terminals : List Terminal
deriving DecidableEq, Hashable, Repr

/-- The size of a grammar, as the event log reports it. -/
structure Summary where
  nonterminals : Nat
  terminals : Nat
  rules : Nat
  epsilonRules : Nat
  unaryRules : Nat
deriving DecidableEq, Repr

namespace Grammar

def isEmpty (g : Grammar) : Bool := g.nonterminals.isEmpty && g.rules.isEmpty

/-- The names of the declared symbols, nonterminals first. -/
def symbolNames (g : Grammar) : List String :=
  g.nonterminals.map Nonterminal.name ++ g.terminals.map Terminal.name

def hasEpsilonRules (g : Grammar) : Bool := g.rules.any Rule.isEpsilon

def hasUnaryRules (g : Grammar) : Bool := g.rules.any Rule.isUnary

/-- Whether the nonterminal occurs on the right side of a rule. -/
def occursOnRight (A : Nonterminal) (rules : List Rule) : Bool :=
  rules.any fun r => r.right.contains (.nonterminal A)

/-- Chomsky normal form: every rule is lexical or binary, or it is an epsilon rule of a start symbol
that occurs on no right side. -/
def isInNormalForm (g : Grammar) : Bool :=
  g.rules.all fun r =>
    r.isLexical || r.isBinary || (r.isEpsilon && r.left = g.start && !occursOnRight g.start g.rules)

def summary (g : Grammar) : Summary where
  nonterminals := g.nonterminals.length
  terminals := g.terminals.length
  rules := g.rules.length
  epsilonRules := g.rules.countP Rule.isEpsilon
  unaryRules := g.rules.countP Rule.isUnary

/-- One rule a line. -/
def text (g : Grammar) : String := "\n".intercalate (g.rules.map Rule.text)

def describe (g : Grammar) : String :=
  "Grammar" ++ Text.tuple
    [g.start.describe, Text.bracketed (g.rules.map Rule.describe),
      Text.bracketed (g.nonterminals.map Nonterminal.describe),
      Text.bracketed (g.terminals.map Terminal.describe)]

end Grammar

end Chomsky

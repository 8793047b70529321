import Chomsky.Symbol

/-!
# Rules

A rule replaces the nonterminal on its left by the symbols on its right. A rule with nothing on its
right is an epsilon rule.
-/

namespace Chomsky

/-- The mark of an empty right side, in the text of a rule and in grammar literals. -/
def epsilon : String := "ε"

structure Rule where
  left : Nonterminal
  right : List Symbol
deriving DecidableEq, Hashable, Repr

namespace Rule

def isEpsilon (r : Rule) : Bool := r.right.isEmpty

/-- The right side is a single nonterminal. -/
def isUnary (r : Rule) : Bool :=
  match r.right with
  | [.nonterminal _] => true
  | _ => false

/-- The right side is a single terminal. -/
def isLexical (r : Rule) : Bool :=
  match r.right with
  | [.terminal _] => true
  | _ => false

/-- The right side is two nonterminals. -/
def isBinary (r : Rule) : Bool :=
  match r.right with
  | [.nonterminal _, .nonterminal _] => true
  | _ => false

def text (r : Rule) : String :=
  s!"{r.left.name} -> " ++
    if r.right.isEmpty then epsilon else " ".intercalate (r.right.map Symbol.name)

def describe (r : Rule) : String :=
  "Rule" ++ Text.tuple [r.left.describe, Text.tuple (r.right.map Symbol.describe)]

end Rule

end Chomsky

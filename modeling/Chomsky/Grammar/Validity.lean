import Chomsky.Grammar.Basic

/-!
# Well-formed grammars

A grammar is valid when no symbol is declared twice, no name is declared both as a nonterminal and
as a terminal, and the start symbol and all symbols of its rules are declared; the empty grammar
need not declare its start symbol. `Grammar.defect?` names the first thing that is wrong.
-/

namespace Chomsky

/-- What keeps a grammar from being well formed. -/
inductive Malformed where
  | repeatedNonterminal (A : Nonterminal)
  | repeatedTerminal (a : Terminal)
  | sharedNames (names : List String)
  | undeclaredStart (A : Nonterminal)
  | undeclaredLeft (r : Rule)
  | undeclaredSymbol (X : Symbol) (r : Rule)
deriving DecidableEq, Repr

def Malformed.message : Malformed → String
  | repeatedNonterminal A => s!"nonterminals contain {A.name} more than once"
  | repeatedTerminal a => s!"terminals contain {a.name} more than once"
  | sharedNames names =>
    "symbols declared as both nonterminal and terminal: " ++ ", ".intercalate names
  | undeclaredStart A => s!"start symbol {A.name} is not a declared nonterminal"
  | undeclaredLeft r => s!"left side of rule {r.text} is not a declared nonterminal"
  | undeclaredSymbol X r => s!"symbol {X.name} in rule {r.text} is not declared"

/-- The first element that also stands earlier in the list. -/
def firstRepeated? {α : Type} [BEq α] (l : List α) : Option α :=
  go [] l
where
  go (seen : List α) : List α → Option α
    | [] => none
    | a :: rest => if seen.contains a then some a else go (a :: seen) rest

namespace Grammar

def declares (g : Grammar) : Symbol → Bool
  | .nonterminal A => g.nonterminals.contains A
  | .terminal a => g.terminals.contains a

/-- The names that are declared for both kinds, each once and in order. -/
def sharedNames (g : Grammar) : List String :=
  let names := (g.nonterminals.map Nonterminal.name).eraseDups
  (names.filter fun n => g.terminals.contains ⟨n⟩).mergeSort fun m n => !decide (n < m)

def ruleDefect? (g : Grammar) (r : Rule) : Option Malformed :=
  if g.nonterminals.contains r.left then
    (r.right.find? fun X => !g.declares X).map (.undeclaredSymbol · r)
  else some (.undeclaredLeft r)

/-- The first defect in the start symbol or a rule, unless there is nothing to declare. -/
def referenceDefect? (g : Grammar) : Option Malformed :=
  if g.isEmpty then none
  else if g.nonterminals.contains g.start then g.rules.findSome? g.ruleDefect?
  else some (.undeclaredStart g.start)

/-- The first thing wrong with a grammar. -/
def defect? (g : Grammar) : Option Malformed :=
  ((firstRepeated? g.nonterminals).map .repeatedNonterminal)
    <|> ((firstRepeated? g.terminals).map .repeatedTerminal)
    <|> (if g.sharedNames.isEmpty then none else some (.sharedNames g.sharedNames))
    <|> g.referenceDefect?

/-- The grammar itself, if nothing is wrong with it. -/
def validated (g : Grammar) : Except Malformed Grammar :=
  match g.defect? with
  | none => .ok g
  | some defect => .error defect

/-- The nonterminals of the rules in the order in which they appear, after the start symbol. -/
def inferredNonterminals (start : Nonterminal) (rules : List Rule) : List Nonterminal :=
  (start :: rules.flatMap fun r => r.left :: r.right.filterMap Symbol.nonterminal?).eraseDups

/-- The terminals of the rules in the order in which they appear. -/
def inferredTerminals (rules : List Rule) : List Terminal :=
  (rules.flatMap fun r => r.right.filterMap Symbol.terminal?).eraseDups

end Grammar

end Chomsky

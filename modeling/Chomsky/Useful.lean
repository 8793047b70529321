import Chomsky.Closure
import Chomsky.Report

/-!
# Useful nonterminals

A nonterminal is productive when it derives a string of terminals, and accessible when it occurs in
something that the start symbol derives. The others are useless, and so is every rule with one of
them. Accessibility is judged after the nonproductive nonterminals are gone. Terminals are never
removed; a grammar whose start symbol is useless becomes the empty grammar.
-/

namespace Chomsky

def Rule.rightNonterminals (r : Rule) : List Nonterminal := r.right.filterMap Symbol.nonterminal?

namespace Grammar

def productive (g : Grammar) : List Nonterminal :=
  Clause.closure [] (g.rules.map fun r => ⟨r.rightNonterminals, r.left⟩)

def accessible (g : Grammar) : List Nonterminal :=
  if g.isEmpty then []
  else
    Clause.closure [g.start]
      (g.rules.flatMap fun r => r.rightNonterminals.map fun B => ⟨[r.left], B⟩)

/-- The grammar with only these nonterminals and rules; empty if the start symbol is not one. -/
def restrict (g : Grammar) (kept : List Nonterminal) (rules : List Rule) : Except Failure Grammar :=
  if kept.contains g.start then
    { g with rules, nonterminals := g.nonterminals.filter kept.contains }.checked
  else { g with rules := [], nonterminals := [] }.checked

def onlyProductive (g : Grammar) : Except Failure Grammar :=
  let kept := g.productive
  g.restrict kept
    (g.rules.filter fun r => kept.contains r.left && r.rightNonterminals.all kept.contains)

def onlyAccessible (g : Grammar) : Except Failure Grammar :=
  let kept := g.accessible
  g.restrict kept (g.rules.filter fun r => kept.contains r.left)

def onlyUseful (g : Grammar) : Except Failure Grammar := do (← g.onlyProductive).onlyAccessible

def removalDiagnostics (g : Grammar) (reason : Uselessness) (kept : List Nonterminal) :
    List Diagnostic :=
  let removed := g.nonterminals.filter fun A => !kept.contains A
  if removed.isEmpty then [] else [.removing reason removed]

/-- Removes the nonterminals that are not productive and reports. -/
def removeNonproductive (g : Grammar) : Report Failure Grammar :=
  ⟨g.onlyProductive, g.removalDiagnostics .nonproductive g.productive, []⟩

/-- Removes the nonterminals that are not accessible and reports. -/
def removeInaccessible (g : Grammar) : Report Failure Grammar :=
  ⟨g.onlyAccessible, g.removalDiagnostics .inaccessible g.accessible, []⟩

def removeUseless (g : Grammar) : Report Failure Grammar := do
  (← g.removeNonproductive).removeInaccessible

end Grammar

end Chomsky

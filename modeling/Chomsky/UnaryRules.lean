import Chomsky.Graph
import Chomsky.Report

/-!
# Unary rules

A unary rule `A -> B` lets `A` do whatever `B` can do. `Grammar.withoutUnary` drops the unary rules
and gives every nonterminal a copy of each other rule of the nonterminals that it reaches through
them.
-/

namespace Chomsky

def Rule.unaryTarget? (r : Rule) : Option Nonterminal :=
  match r.right with
  | [.nonterminal B] => some B
  | _ => none

namespace Grammar

/-- The right sides of the unary rules of `A`, in the order of the rules. -/
def unarySuccessors (g : Grammar) (A : Nonterminal) : List Nonterminal :=
  ((g.rules.filter fun r => r.left = A).filterMap Rule.unaryTarget?).eraseDups

/-- The declared nonterminals with the nonterminals that a unary rule leads to. -/
def unaryGraph (g : Grammar) : Except Failure (Graph Nonterminal) :=
  match g.rules.find? fun r => r.isUnary && !g.nonterminals.contains r.left with
  | some r => .error (.undeclared r.left)
  | none => .ok (g.nonterminals.map fun A => (A, g.unarySuccessors A))

/-- The nonterminals that can be reached from one of `roots`, in the order in which walks from each
of the roots meet them. -/
def reachedFrom (graph : Graph Nonterminal) (roots : List Nonterminal) :
    Except Failure (List Nonterminal) := do
  let walks ← roots.mapM fun B => (graph.preorder B).mapError .undeclared
  return walks.flatten.eraseDups

/-- The declared nonterminals with those that one or more unary rules lead to. A nonterminal is
among its own only if it lies on a cycle. -/
def unaryClosure (g : Grammar) : Except Failure (Graph Nonterminal) := do
  let graph ← g.unaryGraph
  graph.mapM fun (A, successors) => return (A, ← reachedFrom graph successors)

/-- The copies that each nonterminal gets from the nonterminals that it reaches. -/
def unaryCopies (rules : List Rule) (closure : Graph Nonterminal) : List Rule :=
  let byLeft := groupBy Rule.left rules
  closure.flatMap fun (A, reached) =>
    reached.flatMap fun B =>
      ((byLeft.lookup B).getD []).map fun r => { r with left := A }

/-- Adds a rule behind the others, unless it is there already. -/
def addNew (rules : List Rule) (r : Rule) : List Rule :=
  if rules.contains r then rules else rules ++ [r]

/-- Removes the unary rules. -/
def withoutUnary (g : Grammar) : Except Failure Grammar := do
  let closure ← g.unaryClosure
  let rules := g.rules.filter fun r => !r.isUnary
  { g with rules := (unaryCopies rules closure).foldl addNew rules }.checked

def unaryDiagnostics (g : Grammar) : List Diagnostic :=
  match g.unaryClosure with
  | .error _ => []
  | .ok closure =>
    (closure.filter fun entry => !entry.2.isEmpty).map fun (A, reached) => .unaryClosure A reached

/-- Removes the unary rules and reports. -/
def removeUnary (g : Grammar) : Report Failure Grammar := ⟨g.withoutUnary, g.unaryDiagnostics, []⟩

end Grammar

end Chomsky

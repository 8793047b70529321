import Chomsky.Grammar.Literal
import Chomsky.Grammar.Words
import Chomsky.Nullable
import Chomsky.Outline.Fault
import Chomsky.UnaryRules
import Chomsky.Useful

/-!
# Analyses of outlines

The analyses of a grammar, for outlines. A grammar is analysed as such. Otherwise an analysis passes
over the rules until a pass finds nothing new, and looks at the symbols of a right side one after
the other and no further than it has to: a symbol without a kind stops it only when its turn comes.
-/

namespace Chomsky

namespace Outline

/-- The literal of an outline, in which symbols of all sorts are but names. -/
def toLiteral (o : Outline) : Except Fault Json := do
  let rules ← o.rules.mapM (Item.ask .left)
  let productions := rules.map fun r => productionLiteral r.left (r.right.map LooseSymbol.name)
  return grammarLiteral o.start productions o.nonterminals o.terminals

def summary (o : Outline) : Except Fault Summary := do
  let rules ← o.rules.mapM (Item.ask .isEpsilon)
  let unary ← rules.filterM LooseRule.isUnary
  return ⟨o.nonterminals.length, o.terminals.length, rules.length, rules.countP LooseRule.isEpsilon,
    unary.length⟩

def hasEpsilonRules (o : Outline) : Except Fault Bool :=
  o.rules.anyM fun item => return (← item.ask .isEpsilon).isEpsilon

def hasUnaryRules (o : Outline) : Except Fault Bool :=
  o.rules.anyM fun item => do (← item.ask .isUnary).isUnary

/-- Chomsky normal form. No rule with a symbol without a kind has a form that it allows. -/
def isInNormalForm (o : Outline) : Bool := (o.grammar?.map Grammar.isInNormalForm).getD false

/-- Passes of a step over the rules until one learns nothing, but at most `passes` of them. -/
def settle (step : List Nonterminal → LooseRule → Except Fault (List Nonterminal))
    (rules : List (Item LooseRule)) : Nat → List Nonterminal → Except Fault (List Nonterminal)
  | 0, known => .ok known
  | passes + 1, known => do
    let later ← rules.foldlM (fun known item => do step known (← item.ask .left)) known
    if later.length = known.length then return later else settle step rules passes later

/-- Enough passes: each but the last learns a nonterminal that occurs in the rules. -/
def enoughPasses (o : Outline) : Nat :=
  (o.rules.filterMap Item.fitting?).foldl (fun n r => n + r.right.length + 1) 1

/-- The symbols that derive the empty string. A symbol without a kind derives nothing but itself. -/
def nullable (o : Outline) : Except Fault (List Symbol) :=
  match o.grammar? with
  | some g => .ok g.nullable
  | none => do
    let rules ← o.rules.mapM (Item.ask .left)
    let closure := Clause.closure [] (rules.map fun r => ⟨r.right, .symbol (.nonterminal r.left)⟩)
    return closure.filterMap LooseSymbol.symbol?

/-- Whether all symbols are terminals or known nonterminals. The first that is not settles it. -/
def allProductive (known : List Nonterminal) : List LooseSymbol → Except Fault Bool
  | [] => .ok true
  | .symbol (.terminal _) :: right => allProductive known right
  | .symbol (.nonterminal A) :: right =>
    if known.contains A then allProductive known right else .ok false
  | .kindless _ :: _ => .error .kindUnknown

/-- Learns the left side of a rule that is productive by what is known. -/
def learnProductive (known : List Nonterminal) (r : LooseRule) :
    Except Fault (List Nonterminal) := do
  if known.contains r.left then return known
  if ← allProductive known r.right then return known ++ [r.left] else return known

def productive (o : Outline) : Except Fault (List Nonterminal) :=
  match o.grammar? with
  | some g => .ok g.productive
  | none => settle learnProductive o.rules o.enoughPasses []

/-- The nonterminals among the symbols. -/
def nonterminalsOf (right : List LooseSymbol) : Except Fault (List Nonterminal) := do
  let symbols ← right.filterM LooseSymbol.isNonterminal
  return symbols.filterMap fun x => x.symbol?.bind Symbol.nonterminal?

/-- Learns the nonterminals that a rule of a known one leads to. -/
def learnAccessible (known : List Nonterminal) (r : LooseRule) :
    Except Fault (List Nonterminal) := do
  if known.contains r.left then return (known ++ (← nonterminalsOf r.right)).eraseDups
  else return known

def accessible (o : Outline) : Except Fault (List Nonterminal) :=
  match o.grammar? with
  | some g => .ok g.accessible
  | none => settle learnAccessible o.rules o.enoughPasses [o.start]

/-- Whether a rule is unary and so belongs into the graph of unary rules, which has a node for every
declared nonterminal only. -/
def checkUnary (o : Outline) (item : Item LooseRule) : Except Fault Unit := do
  let r ← item.ask .isUnary
  if (← r.isUnary) && !o.nonterminals.contains r.left then throw (.failure (.undeclared r.left))

def unaryGraph (o : Outline) : Except Fault (Graph Nonterminal) := do
  o.rules.forM o.checkUnary
  o.properPart.unaryGraph.mapError .failure

def unaryClosure (o : Outline) : Except Fault (Graph Nonterminal) := do
  o.rules.forM o.checkUnary
  o.properPart.unaryClosure.mapError .failure

/-- The words that a symbol derives by the table. -/
def looseWords (table : WordTable) : LooseSymbol → Except Fault WordSet
  | .symbol X => (table.symbolWords X).mapError .failure
  | .kindless _ => .error .kindUnknown

/-- Adds the words that a rule gives by the table. -/
def applyRule (limit : Nat) (table : WordTable) (item : Item LooseRule) :
    Except Fault WordTable := do
  let r ← item.ask .left
  if !table.contains r.left then throw (.failure (.undeclared r.left))
  let words ← WordTable.extend (looseWords table) limit {[]} r.right
  return table.add r.left words

/-- The words that the start symbol derives and that are not longer than the limit, in order. -/
def wordsUpTo (o : Outline) (maxLength : Int) : Except Fault (List Word) :=
  match o.grammar? with
  | some g => (g.wordsUpTo maxLength).mapError .failure
  | none => do
    if maxLength < 0 then throw (.failure .negativeLength)
    let limit := maxLength.toNat
    let table ← WordTable.saturate (o.rules.foldlM (applyRule limit)) o.nonterminals limit
    (table.wordsOf o.start).mapError .failure

end Outline

end Chomsky

import Chomsky.Outline.Fault

/-!
# From outlines to grammars

A grammar may be put together from parts that have not been checked. Each check names the first part
that is wrong; what passes all of them becomes a grammar. No grammar holds a symbol without a kind,
but a defect in front of the first such symbol is named instead.
-/

namespace Chomsky

namespace Outline

/-- The rules, if every one is a rule. -/
def looseRules (rules : List (Item LooseRule)) : Except Fault (List LooseRule) :=
  rules.mapM fun
    | .fitting r => .ok r
    | .foreign _ => .error .notRules

/-- The rules in front of the first one that is not proper, and the rules from there on. -/
def splitProper (rules : List LooseRule) : List Rule × List LooseRule :=
  let proper := (rules.takeWhile fun r => r.toRule?.isSome).filterMap LooseRule.toRule?
  (proper, rules.drop proper.length)

/-- Why the first rule with a kindless symbol cannot be part of a grammar. -/
def kindlessDefect (g : Grammar) (r : LooseRule) : Fault :=
  if !g.nonterminals.contains r.left then .undeclaredLeft r
  else
    let checked := (r.right.takeWhile fun x => x.symbol?.isSome).filterMap LooseSymbol.symbol?
    match checked.find? fun X => !g.declares X with
    | some X => .undeclaredSymbol X r
    | none => .kindUnknown

/-- The grammar that the outline is, if it is well formed. -/
def checked (o : Outline) : Except Fault Grammar := do
  let (proper, rest) := splitProper (← looseRules o.rules)
  let g ← (Grammar.checked ⟨o.start, proper, o.nonterminals, o.terminals⟩).mapError .failure
  match rest with
  | [] => return g
  | r :: _ =>
    if g.nonterminals.contains g.start then throw (kindlessDefect g r)
    else throw (.failure (.malformed (.undeclaredStart g.start)))

/-- The items that are of the wanted kind, if all are and none is repeated. -/
def declared {α : Type} [BEq α] (wanted : Item LooseSymbol → Option α) (repeated : α → Malformed)
    (mismatch : Fault) (items : List (Item LooseSymbol)) : Except Fault (List α) :=
  let good := (items.takeWhile fun x => (wanted x).isSome).filterMap wanted
  match firstRepeated? good with
  | some a => .error (.failure (.malformed (repeated a)))
  | none => if good.length < items.length then .error mismatch else .ok good

def symbol? (x : Item LooseSymbol) : Option Symbol := x.fitting?.bind LooseSymbol.symbol?

def nonterminal? (x : Item LooseSymbol) : Option Nonterminal := (symbol? x).bind Symbol.nonterminal?

def terminal? (x : Item LooseSymbol) : Option Terminal := (symbol? x).bind Symbol.terminal?

/-- The parts of a grammar. A list of symbols that is left out is inferred. -/
structure Parts where
  start : Item LooseSymbol
  rules : List (Item LooseRule)
  nonterminals : Option (List (Item LooseSymbol))
  terminals : Option (List (Item LooseSymbol))

/-- The grammar that the parts make up. No list can be inferred from symbols without a kind. -/
def Parts.grammar (p : Parts) : Except Fault Grammar := do
  let some start := nonterminal? p.start | throw .startNotNonterminal
  let (proper, rest) := splitProper (← looseRules p.rules)
  if !rest.isEmpty && (p.nonterminals.isNone || p.terminals.isNone) then throw .kindUnknown
  let nonterminals ← match p.nonterminals with
    | some items => declared nonterminal? .repeatedNonterminal .notNonterminals items
    | none => .ok (Grammar.inferredNonterminals start proper)
  let terminals ← match p.terminals with
    | some items => declared terminal? .repeatedTerminal .notTerminals items
    | none => .ok (Grammar.inferredTerminals proper)
  checked ⟨start, p.rules, nonterminals, terminals⟩

/-- Parts that replace parts of an outline. -/
structure Changes where
  start : Option (Item LooseSymbol) := none
  rules : Option (List (Item LooseRule)) := none
  /-- The inner option is none when the list is to be inferred. -/
  nonterminals : Option (Option (List (Item LooseSymbol))) := none
  terminals : Option (Option (List (Item LooseSymbol))) := none

/-- The grammar that an outline becomes with some parts replaced. -/
def Changes.apply (c : Changes) (o : Outline) : Except Fault Grammar :=
  Parts.grammar
    { start := c.start.getD (.fitting (.symbol (.nonterminal o.start)))
      rules := c.rules.getD o.rules
      nonterminals :=
        c.nonterminals.getD (some (o.nonterminals.map fun A => .fitting (.symbol (.nonterminal A))))
      terminals :=
        c.terminals.getD (some (o.terminals.map fun a => .fitting (.symbol (.terminal a)))) }

end Outline

end Chomsky

import Chomsky.NormalForm
import Chomsky.Outline.Analysis
import Chomsky.Outline.Check
import Chomsky.Outline.Comparison

/-!
# Phases on outlines

The phases of normalization, for outlines. A grammar is transformed as such, and other outlines too
have to become grammars. The phases for useless nonterminals may drop all that keeps an outline from
being one; the others keep it, so they fail, if not on the way then in the check of their result.
What they did to the allocator and reported before that stays.
-/

namespace Chomsky

namespace Outline

def symbolNames (o : Outline) : List String := o.properPart.symbolNames

/-! ## Epsilon rules -/

/-- The names of the items of a set in the order of the items. -/
def namesInOrder (items : List (Item LooseSymbol)) : Except Fault (List String) := do
  return (← sort (items.eraseDupsBy Item.same)).map (Item.text LooseSymbol.name)

/-- The expansions of an item, unless it is an epsilon rule. -/
def expandItem (nullable : List LooseSymbol) (limit : Option Int) (item : Item LooseRule) :
    Except Fault (List LooseRule) := do
  let r ← item.ask .isEpsilon
  if r.isEpsilon then return []
  let positions := (nullablePositions nullable r.right).length
  if let some limit := limit then
    if limit < positions then throw (.expansionLimit r positions limit)
  return (expansions nullable r.right).map fun right => { r with right }

/-- Makes a grammar of the expansions of all rules but the epsilon rules. -/
def withoutEpsilon (o : Outline) (nullable : List LooseSymbol) (options : EpsilonOptions)
    (a : Allocator) : Allocator × Except Fault Grammar :=
  match o.rules.mapM (expandItem nullable options.maxNullablePositions) with
  | .error fault => (a, .error fault)
  | .ok expanded =>
    let rules := expanded.flatten
    let start : LooseSymbol := .symbol (.nonterminal o.start)
    if !options.augmentStart || !nullable.contains start then
      (a, { o with rules := rules.map .fitting }.checked)
    else
      let occurs := rules.any fun r => r.right.contains start
      match Augmentation.make o.start occurs o.symbolNames a with
      | (a, .error failure) => (a, .error (.failure failure))
      | (a, .ok new) =>
        (a, { o with
          start := new.start
          rules := (new.rules.map LooseRule.ofRule ++ rules).map .fitting
          nonterminals := new.nonterminals ++ o.nonterminals }.checked)

/-- The nullable symbols with their names in order; they are computed unless they are given. -/
def nullableItems (o : Outline) (given : Option (List (Item LooseSymbol))) :
    Except Fault (List LooseSymbol × List String) := do
  let items ← match given with
    | some items =>
      requireHashable items
      pure items
    | none => pure ((← o.nullable).map fun X => .fitting (.symbol X))
  return (items.filterMap Item.fitting?, ← namesInOrder items)

/-- Removes the epsilon rules and reports. Nullable symbols are computed unless they are given. -/
def removeEpsilon (o : Outline) (given : Option (List (Item LooseSymbol)))
    (options : EpsilonOptions) (a : Allocator) : Allocator × Report Fault Grammar :=
  match o.grammar?, given with
  | some g, none =>
    let (later, report) := g.removeEpsilon g.nullable options a
    (later, report.mapError .failure)
  | _, _ =>
    match o.nullableItems given with
    | .error fault => (a, .ofResult (.error fault))
    | .ok (nullable, names) =>
      let (later, result) := o.withoutEpsilon nullable options a
      (later, epsilonReport names a later result)

/-! ## Unary rules -/

/-- Removes the unary rules and reports. The copies of rules stand behind the rules that are kept,
so they do not matter for the first thing that is wrong. -/
def removeUnary (o : Outline) : Report Fault Grammar :=
  match o.grammar? with
  | some g => g.removeUnary.mapError .failure
  | none =>
    match o.unaryClosure with
    | .error fault => .ofResult (.error fault)
    | .ok _ =>
      let kept := o.rules.filter fun item => !(rule? item).any Rule.isUnary
      ⟨{ o with rules := kept }.checked, o.properPart.unaryDiagnostics, []⟩

/-! ## Useless nonterminals -/

/-- Whether a rule stays when only these nonterminals are productive. -/
def keepProductive (kept : List Nonterminal) (item : Item LooseRule) : Except Fault Bool := do
  let r ← item.ask .left
  if kept.contains r.left then allProductive kept r.right else return false

/-- Whether a rule stays when only these nonterminals are accessible. -/
def keepAccessible (kept : List Nonterminal) (item : Item LooseRule) : Except Fault Bool := do
  return kept.contains (← item.ask .left).left

/-- Restricts an outline to some nonterminals and to the rules that are kept with them, which have
to be proper, and reports. -/
def restrictTo (o : Outline) (reason : Uselessness) (nonterminals : Except Fault (List Nonterminal))
    (keep : List Nonterminal → Item LooseRule → Except Fault Bool) : Report Fault Grammar :=
  match nonterminals with
  | .error fault => .ofResult (.error fault)
  | .ok kept =>
    let result : Except Fault Grammar := do
      let rules ← o.rules.filterM (keep kept)
      (o.properPart.restrict kept (rules.filterMap rule?)).mapError .failure
    ⟨result, o.properPart.removalDiagnostics reason kept, []⟩

/-- Removes the nonterminals that are not productive and reports. -/
def removeNonproductive (o : Outline) : Report Fault Grammar :=
  match o.grammar? with
  | some g => g.removeNonproductive.mapError .failure
  | none => o.restrictTo .nonproductive o.productive keepProductive

/-- Removes the nonterminals that are not accessible and reports. -/
def removeInaccessible (o : Outline) : Report Fault Grammar :=
  match o.grammar? with
  | some g => g.removeInaccessible.mapError .failure
  | none => o.restrictTo .inaccessible o.accessible keepAccessible

def removeUseless (o : Outline) : Report Fault Grammar := do
  let g ← o.removeNonproductive
  g.removeInaccessible.mapError .failure

/-! ## Binarization -/

/-- The symbols of an item that are looked at before its first symbol without a kind. A right side
of one symbol is asked for its kind at once. -/
def symbolsInFront (item : Item LooseRule) : List Symbol :=
  match item.fitting?.map LooseRule.right with
  | some (x :: y :: right) =>
    ((x :: y :: right).takeWhile fun x => x.symbol?.isSome).filterMap LooseSymbol.symbol?
  | _ => []

/-- Why an item that is no proper rule cannot be binarized. -/
def binarizationFault : Item LooseRule → Fault
  | .fitting _ => .kindUnknown
  | .foreign value => .noAnswer value .isLexical

/-- Binarizes the rules up to the first item that is no proper rule, and reports. The terminals that
are looked at before the fault get their nonterminals all the same. -/
def binarizeUntil (o : Outline) (front : List Rule) (stop : Item LooseRule) (a : Allocator) :
    Allocator × Report Fault Grammar :=
  let g : Grammar := { o.properPart with rules := front }
  let b := g.partlyBinarized a
  let refused := front.find? fun r => !Binarization.accepts o.start r
  let b := if refused.isSome then b else (b.isolateAll a.numbered (symbolsInFront stop)).1
  let (later, result) := a.freshList o.symbolNames (b.counter - a.counter)
  let fault : Fault := match result, refused with
    | .error failure, _ => .failure failure
    | .ok _, some r => .failure (.notReduced r)
    | .ok _, none => binarizationFault stop
  (later, ⟨.error fault, (a.mintedSince later).map .introduced, []⟩)

/-- Binarizes the rules and reports. -/
def binarize (o : Outline) (a : Allocator) : Allocator × Report Fault Grammar :=
  match o.rules.find? fun item => (rule? item).isNone with
  | none =>
    let (later, report) := o.properPart.binarize a
    (later, report.mapError .failure)
  | some stop =>
    let front := o.rules.takeWhile fun item => (rule? item).isSome
    o.binarizeUntil (front.filterMap rule?) stop a

/-! ## Repeated rules and normalization -/

def removeDuplicates (o : Outline) : Report Fault Grammar :=
  match o.grammar? with
  | some g => g.removeDuplicates.mapError .failure
  | none => .ofResult do
    requireHashable o.rules
    checked { o with rules := o.rules.eraseDupsBy Item.same }

/-- Brings an outline into Chomsky normal form. -/
def normalize (o : Outline) (config : Config) : Report Fault Grammar :=
  match o.grammar? with
  | some g => (g.normalize config).mapError .failure
  | none => .ofResult o.checked

end Outline

end Chomsky

import Chomsky.Allocator
import Chomsky.Report

/-!
# Binarization

Right sides of two symbols or more become pairs of nonterminals. A terminal is replaced by a new
nonterminal that derives it, the same one for every occurrence. Then, while more than two symbols
are left, the first two are replaced by a new nonterminal that derives them. The new nonterminals
are numbered in the order in which they are needed.
-/

namespace Chomsky

/-- Binarization under way: the last number in use, the nonterminals that stand for terminals, and
the rules so far. -/
structure Binarization where
  counter : Nat
  preterminals : List (Terminal × Nonterminal) := []
  rules : List Rule := []

namespace Binarization

variable (name : Nat → Nonterminal)

def emit (b : Binarization) (r : Rule) : Binarization := { b with rules := b.rules ++ [r] }

/-- Uses the next number for a nonterminal that derives these symbols. -/
def introduce (b : Binarization) (right : List Symbol) : Binarization :=
  { b with counter := b.counter + 1 }.emit ⟨name (b.counter + 1), right⟩

/-- The nonterminal that stands for a symbol. -/
def isolate (b : Binarization) : Symbol → Binarization × Nonterminal
  | .nonterminal A => (b, A)
  | .terminal a =>
    match b.preterminals.lookup a with
    | some X => (b, X)
    | none =>
      let X := name (b.counter + 1)
      ({ b.introduce name [.terminal a] with preterminals := b.preterminals ++ [(a, X)] }, X)

/-- The nonterminals that stand for the symbols of a right side. -/
def isolateAll (b : Binarization) : List Symbol → Binarization × List Nonterminal
  | [] => (b, [])
  | X :: right =>
    let (b, A) := b.isolate name X
    let (b, rest) := isolateAll b right
    (b, A :: rest)

/-- Adds the rules that derive `first` and the nonterminals behind it, in pairs from the left. -/
def split (b : Binarization) (left first : Nonterminal) : List Nonterminal → Binarization
  | [] => b.emit ⟨left, [.nonterminal first]⟩
  | [second] => b.emit ⟨left, [.nonterminal first, .nonterminal second]⟩
  | second :: third :: rest =>
    (b.introduce name [.nonterminal first, .nonterminal second]).split left (name (b.counter + 1))
      (third :: rest)

/-- A rule that needs no change: a lexical rule, or an epsilon rule of the start symbol. -/
def keeps (start : Nonterminal) (r : Rule) : Bool :=
  r.isLexical || (r.isEpsilon && r.left = start)

/-- Whether a rule can be binarized: it is kept, or has two symbols or more on its right side. -/
def accepts (start : Nonterminal) (r : Rule) : Bool := keeps start r || decide (2 ≤ r.right.length)

def addRule (start : Nonterminal) (b : Binarization) (r : Rule) : Binarization :=
  if keeps start r then b.emit r
  else
    match b.isolateAll name r.right with
    | (b, []) => b.emit ⟨r.left, []⟩
    | (b, first :: rest) => b.split name r.left first rest

def addRules (start : Nonterminal) (b : Binarization) (rules : List Rule) : Binarization :=
  rules.foldl (addRule name start) b

end Binarization

namespace Grammar

/-- The rules in front of the first one that cannot be binarized, binarized. -/
def partlyBinarized (g : Grammar) (a : Allocator) : Binarization :=
  Binarization.addRules a.numbered g.start { counter := a.counter }
    (g.rules.takeWhile (Binarization.accepts g.start))

/-- Binarizes the rules. It stops at the first rule that cannot be binarized, and before that at the
first new nonterminal whose name is taken. -/
def binarized (g : Grammar) (a : Allocator) : Allocator × Except Failure Grammar :=
  let b := g.partlyBinarized a
  match a.freshList g.symbolNames (b.counter - a.counter) with
  | (later, .error failure) => (later, .error failure)
  | (later, .ok _) =>
    match g.rules.find? fun r => !Binarization.accepts g.start r with
    | some r => (later, .error (.notReduced r))
    | none =>
      (later, { g with
        rules := b.rules
        nonterminals := g.nonterminals ++ a.mintedSince later }.checked)

/-- Binarizes the rules and reports. -/
def binarize (g : Grammar) (a : Allocator) : Allocator × Report Failure Grammar :=
  let (later, result) := g.binarized a
  let introduced := a.mintedSince later
  let complete : List Diagnostic :=
    match result with
    | .ok _ => [.binarized introduced.length]
    | .error (.malformed _) => [.binarized introduced.length]
    | .error _ => []
  (later, ⟨result, introduced.map .introduced ++ complete, []⟩)

end Grammar

end Chomsky

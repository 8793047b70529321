import Chomsky.Binarization
import Chomsky.Nullable
import Chomsky.UnaryRules
import Chomsky.Useful

/-!
# Normalization

`Grammar.normalize` brings a grammar into Chomsky normal form in four phases that always run in the
same order: epsilon rules, unary rules, useless nonterminals, binarization. The result generates the
same strings as the grammar, but for the empty string, which stays only if that is asked for.
-/

namespace Chomsky

structure Config where
  epsilon : EpsilonOptions := {}
  /-- Drop repeated rules after the epsilon phase and in the result. -/
  deduplicate : Bool := true
  /-- What the names of numbered nonterminals begin with. -/
  stem : String := "X"
  /-- Answer the empty grammar for an empty language; otherwise that is a failure. -/
  allowEmpty : Bool := true
deriving DecidableEq, Repr

namespace Grammar

/-- The grammar with the first occurrence of each rule only. -/
def withoutDuplicates (g : Grammar) : Except Failure Grammar :=
  { g with rules := g.rules.eraseDups }.checked

def removeDuplicates (g : Grammar) : Report Failure Grammar := .ofResult g.withoutDuplicates

/-- The grammar itself, or without repeated rules if they are not wanted. -/
def deduplicateIf (g : Grammar) (wanted : Bool) : Report Failure Grammar :=
  if wanted then g.removeDuplicates else pure g

/-- What there is to say about a grammar whose start symbol generates nothing. -/
def reportEmpty (g : Grammar) (allowEmpty : Bool) : Report Failure Unit := do
  if g.isEmpty then
    .note (.emptyLanguage g.start)
    .mark (.emptyLanguage g.start)
    if !allowEmpty then .ofResult (.error (.emptyLanguage g.start))

/-- Brings a grammar into Chomsky normal form. -/
def normalize (g : Grammar) (config : Config) : Report Failure Grammar := do
  let g ← .ofResult g.checked
  let a ← .ofResult (Allocator.ofStem config.stem)
  .mark (.start g.summary)
  let nullable := g.nullable
  let (a, step) := g.removeEpsilon nullable config.epsilon a
  let g ← (← step).deduplicateIf config.deduplicate
  .mark (.phase g.summary (.epsilon (Symbol.sort nullable)))
  let g ← g.removeUnary
  .mark (.phase g.summary .unary)
  let g ← g.removeUseless
  .mark (.phase g.summary .useless)
  g.reportEmpty config.allowEmpty
  let (a, step) := g.binarize a
  let g ← (← step).deduplicateIf config.deduplicate
  .mark (.phase g.summary (.binarize a.minted))
  .mark (.done g.summary)
  return g

end Grammar

end Chomsky

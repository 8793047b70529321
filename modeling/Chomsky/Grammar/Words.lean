import Std.Data.HashMap
import Std.Data.HashSet
import Chomsky.Failure

/-!
# The words of a grammar

`Grammar.wordsUpTo` lists the strings of terminals, up to a length, that a grammar generates. The
sets of words of all nonterminals are grown together, rule by rule, until a pass over the rules adds
nothing. Words that are too long are dropped at once, so this ends for every grammar.
-/

namespace Chomsky

abbrev Word := List Terminal

abbrev WordSet := Std.HashSet Word

/-- The words found so far, for each declared nonterminal. -/
abbrev WordTable := Std.HashMap Nonterminal WordSet

namespace Word

/-- Whether the first word comes before the second: at the first difference, or because it ends. -/
def before : Word → Word → Bool
  | [], [] => false
  | [], _ :: _ => true
  | _ :: _, [] => false
  | a :: v, b :: w => a.name < b.name || (a = b && before v w)

def sort (words : List Word) : List Word := words.mergeSort fun v w => !before w v

end Word

namespace WordTable

/-- The concatenations that are not longer than `limit`. -/
def concatenations (limit : Nat) (heads tails : WordSet) : WordSet :=
  heads.fold (fun found v =>
    let room := limit - v.length
    tails.fold (fun found w => if w.length ≤ room then found.insert (v ++ w) else found) found) ∅

/-- The words that a symbol derives by the table. -/
def symbolWords (table : WordTable) : Symbol → Except Failure WordSet
  | .terminal a => .ok {[a]}
  | .nonterminal A =>
    match table[A]? with
    | some words => .ok words
    | none => .error (.undeclared A)

/-- The words that begin with one of `heads` and go on with words of the symbols, which `tailsOf`
tells. Without any head no symbol is looked at. -/
def extend {ε α : Type} (tailsOf : α → Except ε WordSet) (limit : Nat) (heads : WordSet) :
    List α → Except ε WordSet
  | [] => .ok heads
  | X :: right =>
    if heads.isEmpty then .ok heads
    else do
      let tails ← tailsOf X
      extend tailsOf limit (concatenations limit heads tails) right

/-- Adds words to the words of a nonterminal. -/
def add (table : WordTable) (A : Nonterminal) (words : WordSet) : WordTable :=
  table.modify A fun known => words.fold (fun known w => known.insert w) known

/-- Adds the words that a rule gives by the table. -/
def applyRule (limit : Nat) (table : WordTable) (r : Rule) : Except Failure WordTable := do
  if !table.contains r.left then throw (.undeclared r.left)
  let words ← extend table.symbolWords limit {[]} r.right
  return table.add r.left words

/-- The number of words of each nonterminal. -/
def sizes (table : WordTable) (nonterminals : List Nonterminal) : List Nat :=
  nonterminals.map fun A => (table[A]?.map (·.size)).getD 0

/-- Passes over the rules until one adds nothing, but at most `passes` of them. -/
def grow {ε : Type} (pass : WordTable → Except ε WordTable) (nonterminals : List Nonterminal) :
    Nat → WordTable → Except ε WordTable
  | 0, table => .ok table
  | passes + 1, table => do
    let before := table.sizes nonterminals
    let table ← pass table
    if table.sizes nonterminals = before then return table else grow pass nonterminals passes table

/-- Enough passes: until every part of a word is known for every nonterminal that derives it, each
pass adds such a part, and a word of length `n` has at most `(n + 1) * (n + 2)` parts. -/
def enoughPasses (nonterminals : List Nonterminal) (limit : Nat) : Nat :=
  nonterminals.length * (limit + 1) * (limit + 2) + 1

/-- What passes over the rules find, from no words at all. -/
def saturate {ε : Type} (pass : WordTable → Except ε WordTable) (nonterminals : List Nonterminal)
    (limit : Nat) : Except ε WordTable :=
  grow pass nonterminals (enoughPasses nonterminals limit)
    (.ofList (nonterminals.map fun A => (A, ∅)))

/-- The words of a nonterminal in order. -/
def wordsOf (table : WordTable) (A : Nonterminal) : Except Failure (List Word) :=
  match table[A]? with
  | some words => .ok (Word.sort words.toList)
  | none => .error (.undeclared A)

end WordTable

namespace Grammar

/-- The words that the start symbol derives and that are not longer than the limit, in order. -/
def wordsUpTo (g : Grammar) (maxLength : Int) : Except Failure (List Word) := do
  if maxLength < 0 then throw .negativeLength
  if g.isEmpty then return []
  let limit := maxLength.toNat
  let table ← WordTable.saturate (g.rules.foldlM (WordTable.applyRule limit)) g.nonterminals limit
  table.wordsOf g.start

end Grammar

end Chomsky

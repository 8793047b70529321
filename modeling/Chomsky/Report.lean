import Chomsky.Failure
import Chomsky.Json.Basic

/-!
# Reports

An operation on grammars answers a report: its result or failure, together with what it had to say
on the way. Diagnostics are remarks for a reader of a debug log. Milestones are the events of a
normalization; each carries the size of the grammar at that point. A failed operation keeps what was
reported before it failed.
-/

namespace Chomsky

/-- Why a nonterminal is useless. -/
inductive Uselessness where
  | nonproductive
  | inaccessible
deriving DecidableEq, Repr

def Uselessness.text : Uselessness → String
  | nonproductive => "nonproductive"
  | inaccessible => "inaccessible"

inductive Diagnostic where
  /-- The names of the symbols that are taken to be nullable. -/
  | nullable (names : List String)
  | unaryClosure (A : Nonterminal) (reached : List Nonterminal)
  | removing (reason : Uselessness) (removed : List Nonterminal)
  | introduced (A : Nonterminal)
  | binarized (count : Nat)
  | emptyLanguage (A : Nonterminal)
deriving DecidableEq, Repr

def namesText (names : List String) : String := " ".intercalate names

def Diagnostic.text : Diagnostic → String
  | nullable names => "nullable nonterminals: " ++ namesText names
  | unaryClosure A reached =>
    s!"unary closure of {A.name}: " ++ namesText (reached.map Nonterminal.name)
  | removing reason removed =>
    s!"removing {reason.text} nonterminals: " ++ namesText (removed.map Nonterminal.name)
  | introduced A => s!"introduced nonterminal {A.name}"
  | binarized count => s!"binarization introduced {count} nonterminals"
  | emptyLanguage A =>
    s!"the start symbol {A.name} does not generate any strings; the language is empty"

/-- A phase of normalization, with what its event tells beside the size of the grammar. -/
inductive Phase where
  | epsilon (nullable : List Symbol)
  | unary
  | useless
  | binarize (introduced : List Nonterminal)
deriving DecidableEq, Repr

inductive Milestone where
  | start (size : Summary)
  | phase (size : Summary) (phase : Phase)
  | emptyLanguage (A : Nonterminal)
  | done (size : Summary)
deriving DecidableEq, Repr

def Summary.fields (s : Summary) : List (String × Json) :=
  [("nonterminals", .int s.nonterminals),
   ("terminals", .int s.terminals),
   ("rules", .int s.rules),
   ("epsilon_rules", .int s.epsilonRules),
   ("unary_rules", .int s.unaryRules)]

def Phase.fields : Phase → List (String × Json)
  | epsilon nullable =>
    [("phase", .string "epsilon"), ("nullable", .ofStrings (nullable.map Symbol.name))]
  | unary => [("phase", .string "unary")]
  | useless => [("phase", .string "useless")]
  | binarize introduced =>
    [("phase", .string "binarize"),
     ("new_nonterminals", .ofStrings (introduced.map Nonterminal.name))]

/-- The type of the event that records a milestone. -/
def Milestone.kind : Milestone → String
  | start _ => "start"
  | phase _ _ => "phase"
  | emptyLanguage _ => "empty_language"
  | done _ => "done"

/-- What the event tells. -/
def Milestone.data : Milestone → Json
  | start size => .object size.fields
  | phase size p => .object (size.fields ++ p.fields)
  | emptyLanguage A => .object [("start", .string A.name)]
  | done size => .object size.fields

/-- The report of an operation that answers an `α`, or an `ε` that says why it does not. -/
structure Report (ε α : Type) where
  result : Except ε α
  diagnostics : List Diagnostic := []
  milestones : List Milestone := []

namespace Report

variable {ε ε' α β : Type}

def ofResult (result : Except ε α) : Report ε α := { result }

/-- What the second operation reports follows what the first one reported. -/
def bind (x : Report ε α) (f : α → Report ε β) : Report ε β :=
  match x.result with
  | .error failure => ⟨.error failure, x.diagnostics, x.milestones⟩
  | .ok a =>
    ⟨(f a).result, x.diagnostics ++ (f a).diagnostics, x.milestones ++ (f a).milestones⟩

instance : Monad (Report ε) where
  pure a := ofResult (.ok a)
  bind := bind

def note (d : Diagnostic) : Report ε Unit := ⟨.ok (), [d], []⟩

def mark (m : Milestone) : Report ε Unit := ⟨.ok (), [], [m]⟩

/-- The report with its failure told in other terms. -/
def mapError (f : ε → ε') (x : Report ε α) : Report ε' α := { x with result := x.result.mapError f }

end Report

end Chomsky

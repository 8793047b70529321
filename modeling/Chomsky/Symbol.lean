import Chomsky.Text.Quoted

/-!
# Symbols

A symbol is a nonterminal or a terminal, and has a name; names are arbitrary text. Two symbols of
different kinds are different whatever their names. Nonterminals come before terminals, and symbols
of one kind are ordered by name.
-/

namespace Chomsky

structure Nonterminal where
  name : String
deriving DecidableEq, Hashable, Repr

structure Terminal where
  name : String
deriving DecidableEq, Hashable, Repr

inductive Symbol where
  | nonterminal (A : Nonterminal)
  | terminal (a : Terminal)
deriving DecidableEq, Hashable, Repr

instance : Coe Nonterminal Symbol := ⟨.nonterminal⟩

instance : Coe Terminal Symbol := ⟨.terminal⟩

/-- How messages show the nonterminal. -/
def Nonterminal.describe (A : Nonterminal) : String := s!"Nonterminal({Text.quoted A.name})"

def Terminal.describe (a : Terminal) : String := s!"Terminal({Text.quoted a.name})"

namespace Symbol

def name : Symbol → String
  | nonterminal A => A.name
  | terminal a => a.name

def isTerminal : Symbol → Bool
  | nonterminal _ => false
  | terminal _ => true

def isNonterminal : Symbol → Bool
  | nonterminal _ => true
  | terminal _ => false

def nonterminal? : Symbol → Option Nonterminal
  | nonterminal A => some A
  | terminal _ => none

def terminal? : Symbol → Option Terminal
  | nonterminal _ => none
  | terminal a => some a

/-- Whether the first symbol comes before the second. -/
def before : Symbol → Symbol → Bool
  | nonterminal A, nonterminal B => A.name < B.name
  | nonterminal _, terminal _ => true
  | terminal _, nonterminal _ => false
  | terminal a, terminal b => a.name < b.name

/-- The symbols in order, as often as they are given. -/
def sort (symbols : List Symbol) : List Symbol := symbols.mergeSort fun X Y => !Y.before X

def describe : Symbol → String
  | nonterminal A => A.describe
  | terminal a => a.describe

end Symbol

end Chomsky

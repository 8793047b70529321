import Chomsky.Failure

/-!
# New nonterminals

An allocator introduces nonterminals and never the same one twice. Numbered ones are named by a stem
and a counter: `X1`, `X2` and so on. The counter goes on even when a name turns out to be taken, so
a second try asks for another name.
-/

namespace Chomsky

structure Allocator where
  stem : String
  counter : Nat := 0
  /-- The nonterminals introduced so far, first one first. -/
  minted : List Nonterminal := []
  stem_ne : stem ≠ "" := by decide
deriving DecidableEq

namespace Allocator

/-- The allocator that nobody asked for by name: its stem is `X`. -/
def standard : Allocator := { stem := "X" }

def ofStem (stem : String) : Except Failure Allocator :=
  if h : stem = "" then .error .emptyStem else .ok { stem, stem_ne := h }

/-- The nonterminal with the given number. -/
def numbered (a : Allocator) (n : Nat) : Nonterminal := ⟨a.stem ++ toString n⟩

/-- Introduces a nonterminal of this name, unless the name is taken or was introduced before. -/
def named (a : Allocator) (name : String) (taken : List String) :
    Allocator × Except Failure Nonterminal :=
  if taken.contains name || a.minted.contains ⟨name⟩ then (a, .error (.nameTaken name))
  else ({ a with minted := a.minted ++ [⟨name⟩] }, .ok ⟨name⟩)

/-- Introduces the next numbered nonterminal. -/
def fresh (a : Allocator) (taken : List String) : Allocator × Except Failure Nonterminal :=
  let n := a.counter + 1
  { a with counter := n }.named (a.numbered n).name taken

/-- Introduces several numbered nonterminals, up to the first whose name is taken. -/
def freshList (a : Allocator) (taken : List String) : Nat → Allocator × Except Failure Unit
  | 0 => (a, .ok ())
  | n + 1 =>
    match a.fresh taken with
    | (a, .ok _) => a.freshList taken n
    | (a, .error failure) => (a, .error failure)

/-- The nonterminals that `later` introduced since it was `a`. -/
def mintedSince (a later : Allocator) : List Nonterminal := later.minted.drop a.minted.length

end Allocator

end Chomsky

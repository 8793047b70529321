import Chomsky.Grammar.Basic

/-!
# A worked example

A small grammar with something for each phase of normalization: an epsilon rule of `C`, the unary
rule `B -> A` and the rule `S -> B C` that loses its nullable `C`, long right sides that mix
terminals and nonterminals, and a nonterminal `D` that the start symbol does not reach.
-/

namespace Chomsky.Grammar

def workedExample : Grammar :=
  let S : Nonterminal := ⟨"S"⟩
  let A : Nonterminal := ⟨"A"⟩
  let B : Nonterminal := ⟨"B"⟩
  let C : Nonterminal := ⟨"C"⟩
  let D : Nonterminal := ⟨"D"⟩
  let a : Terminal := ⟨"a"⟩
  let b : Terminal := ⟨"b"⟩
  { start := S
    rules :=
      [⟨S, [b, A]⟩,
       ⟨S, [B, C]⟩,
       ⟨A, [a]⟩,
       ⟨A, [a, S]⟩,
       ⟨A, [b, C, a, C, a]⟩,
       ⟨B, [A]⟩,
       ⟨B, [b, S]⟩,
       ⟨B, [b, C, A, a]⟩,
       ⟨C, []⟩,
       ⟨C, [A, B]⟩,
       ⟨D, [A, B]⟩]
    nonterminals := [S, A, B, C, D]
    terminals := [a, b] }

end Chomsky.Grammar

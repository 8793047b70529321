import Chomsky.Grammar.Basic

/-!
# Forms of rules

What the tests on a rule say about its right side, and what normal form says about all rules.
-/

namespace Chomsky

namespace Rule

variable {r : Rule}

theorem isEpsilon_iff : r.isEpsilon = true ↔ r.right = [] := List.isEmpty_iff

theorem isUnary_iff : r.isUnary = true ↔ ∃ B, r.right = [.nonterminal B] := by
  obtain ⟨_, right⟩ := r
  rcases right with _ | ⟨⟨⟩ | ⟨⟩, _ | ⟨_, _⟩⟩ <;> simp [isUnary]

theorem isLexical_iff : r.isLexical = true ↔ ∃ a, r.right = [.terminal a] := by
  obtain ⟨_, right⟩ := r
  rcases right with _ | ⟨⟨⟩ | ⟨⟩, _ | ⟨_, _⟩⟩ <;> simp [isLexical]

theorem isBinary_iff : r.isBinary = true ↔ ∃ A B, r.right = [.nonterminal A, .nonterminal B] := by
  obtain ⟨_, right⟩ := r
  rcases right with _ | ⟨⟨⟩ | ⟨⟩, _ | ⟨⟨⟩ | ⟨⟩, _ | ⟨_, _⟩⟩⟩ <;> simp [isBinary]

theorem form_cases (r : Rule) :
    r.isEpsilon = true ∨ r.isUnary = true ∨ r.isLexical = true ∨ 2 ≤ r.right.length := by
  obtain ⟨_, right⟩ := r
  rcases right with _ | ⟨⟨⟩ | ⟨⟩, _ | ⟨_, _⟩⟩ <;> simp [isEpsilon, isUnary, isLexical]

end Rule

namespace Grammar

theorem isInNormalForm_iff {g : Grammar} :
    g.isInNormalForm = true ↔ ∀ r ∈ g.rules,
      r.isLexical = true ∨ r.isBinary = true ∨
        r.isEpsilon = true ∧ r.left = g.start ∧ ∀ s ∈ g.rules, .nonterminal g.start ∉ s.right := by
  simp [isInNormalForm, occursOnRight, or_assoc, and_assoc]

end Grammar

end Chomsky

import Chomsky.Proofs.Shape
import Chomsky.Proofs.UsefulPart

/-!
# The length of derivations in normal form

Let a nonterminal weigh one and a terminal two. In normal form a rule adds one to the weight of the
symbols it is applied to, unless it is the epsilon rule of the start symbol (`weight_right`). That one can
be applied to nothing but the start symbol alone, for the start symbol is then on no right side. So
everywhere else the weight counts the steps of a derivation (`weight_eq_of_derivation`), and it tells the
length of a word from the number of rules applied.
-/

namespace Chomsky

def Symbol.weight : Symbol → Nat
  | nonterminal _ => 1
  | terminal _ => 2

def weight (α : List Symbol) : Nat := (α.map Symbol.weight).sum

@[simp] theorem weight_nil : weight [] = 0 := rfl

@[simp] theorem weight_cons (X : Symbol) (α : List Symbol) :
    weight (X :: α) = X.weight + weight α := by
  simp [weight]

@[simp] theorem weight_append (α β : List Symbol) : weight (α ++ β) = weight α + weight β := by
  simp [weight]

theorem weight_terminals (w : Word) : weight (w.map .terminal) = 2 * w.length := by
  induction w with
  | nil => rfl
  | cons a w ih =>
    rw [List.map_cons, weight_cons, ih, List.length_cons, Symbol.weight]
    omega

namespace Grammar

variable {g : Grammar} {r : Rule} {A : Nonterminal} {α β : List Symbol} {applied : List Rule}

/-- No epsilon rule can be applied here. -/
def Lasting (g : Grammar) (α : List Symbol) : Prop :=
  ⟨g.start, []⟩ ∈ g.rules → .nonterminal g.start ∉ α

theorem lasting_of_ne (h : A ≠ g.start) : g.Lasting [.nonterminal A] := by
  intro _ hmem
  have heq : Symbol.nonterminal g.start = .nonterminal A := List.mem_singleton.mp hmem
  exact h (Symbol.nonterminal.inj heq).symm

section NormalForm

variable (h : g.isInNormalForm = true)

include h

theorem weight_right (hr : r ∈ g.rules) : r = ⟨g.start, []⟩ ∨ weight r.right = 2 := by
  rcases isInNormalForm_iff.mp h r hr with hlexical | hbinary | ⟨hepsilon, hleft, _⟩
  · obtain ⟨a, hright⟩ := Rule.isLexical_iff.mp hlexical
    rw [hright]
    exact .inr rfl
  · obtain ⟨B, C, hright⟩ := Rule.isBinary_iff.mp hbinary
    rw [hright]
    exact .inr rfl
  · obtain ⟨left, right⟩ := r
    obtain rfl : left = g.start := hleft
    obtain rfl : right = [] := Rule.isEpsilon_iff.mp hepsilon
    exact .inl rfl

theorem lasting_right (hr : r ∈ g.rules) : g.Lasting r.right := by
  intro hepsilon
  rcases isInNormalForm_iff.mp h _ hepsilon with hlexical | hbinary | ⟨_, _, hstart⟩
  · cases hlexical
  · cases hbinary
  · exact hstart r hr

/-- Every step adds one to the weight, and leaves no epsilon rule to apply. -/
theorem weight_eq_of_derivation (hα : g.Lasting α) (hd : Derivation g.rules α applied β) :
    weight β = weight α + applied.length := by
  induction hd with
  | done => rfl
  | @step r hr before after applied β _ ih =>
    have hright : weight r.right = 2 := by
      refine (weight_right h hr).resolve_left fun heq => ?_
      subst heq
      exact hα hr (List.mem_append_right _ List.mem_cons_self)
    have hnext : g.Lasting (before ++ r.right ++ after) := by
      intro hepsilon hmem
      have hold := hα hepsilon
      simp only [List.mem_append, List.mem_cons, not_or] at hmem hold
      obtain ⟨hbefore, _, hafter⟩ := hold
      rcases hmem with (hmem | hmem) | hmem
      · exact hbefore hmem
      · exact lasting_right h hr hepsilon hmem
      · exact hafter hmem
    rw [ih hnext, List.length_cons]
    simp only [weight_append, weight_cons, Symbol.weight]
    omega

/-- From the start symbol, either the epsilon rule is all that is applied, or the weight counts all
steps. -/
theorem derivation_cases {w : Word}
    (hd : Derivation g.rules [.nonterminal g.start] applied (w.map .terminal)) :
    w = [] ∧ ⟨g.start, []⟩ ∈ g.rules ∨ weight (w.map .terminal) = 1 + applied.length := by
  generalize hfirst : [Symbol.nonterminal g.start] = α at hd
  generalize hlast : w.map Symbol.terminal = β at hd
  cases hd with
  | done =>
    right
    rw [← hfirst]
    rfl
  | @step r hr before after rest _ hrest =>
    obtain ⟨rfl, hleft, rfl⟩ : before = [] ∧ g.start = r.left ∧ after = [] := by
      rcases before with _ | ⟨X, before⟩ <;> simp_all
    rw [List.nil_append, List.append_nil] at hrest
    have hweight := weight_eq_of_derivation h (lasting_right h hr) hrest
    rcases weight_right h hr with rfl | hright
    · -- nothing is left to which a rule could be applied
      left
      subst hlast
      have hword : w ∈ (words g.rules).form [] := mem_form_words_iff.mpr hrest.derives
      exact ⟨(Language.mem_one w).mp hword, hr⟩
    · right
      rw [hweight, hright, List.length_cons]
      omega

end NormalForm

/-- In normal form the number of rules applied is known from the length of the word, the start symbol
alone can derive the empty word, and it does just if it has an epsilon rule. -/
theorem normalForm_derivations (h : g.isInNormalForm = true) :
    (∀ (applied : List Rule) (w : Word), w ≠ [] →
      Derivation g.rules [.nonterminal g.start] applied (w.map .terminal) →
      applied.length = 2 * w.length - 1) ∧
    (∀ A, [] ∈ words g.rules A → A = g.start) ∧
    ([] ∈ g.language ↔ ⟨g.start, []⟩ ∈ g.rules) := by
  refine ⟨fun applied w hw hd => ?_, fun A hA => ?_, fun hempty => ?_, fun hepsilon => ?_⟩
  · rcases derivation_cases h hd with ⟨hnil, _⟩ | hweight
    · exact absurd hnil hw
    · rw [weight_terminals] at hweight
      omega
  · by_contra hne
    obtain ⟨applied, hd⟩ := Derives.exists_derivation hA
    have hweight : 0 = 1 + applied.length := weight_eq_of_derivation h (lasting_of_ne hne) hd
    omega
  · obtain ⟨applied, hd⟩ := Derives.exists_derivation hempty
    rcases derivation_cases h hd with ⟨_, hepsilon⟩ | hweight
    · exact hepsilon
    · rw [weight_terminals, List.length_nil] at hweight
      omega
  · exact Derives.of_rule hepsilon

/-- One word of two letters, and the empty word. -/
def pair : Grammar where
  start := ⟨"S"⟩
  rules := [⟨⟨"S"⟩, []⟩, ⟨⟨"S"⟩, [.nonterminal ⟨"A"⟩, .nonterminal ⟨"B"⟩]⟩,
    ⟨⟨"A"⟩, [.terminal ⟨"a"⟩]⟩, ⟨⟨"B"⟩, [.terminal ⟨"b"⟩]⟩]
  nonterminals := [⟨"S"⟩, ⟨"A"⟩, ⟨"B"⟩]
  terminals := [⟨"a"⟩, ⟨"b"⟩]

/-- Whatever the order in which the two letters are derived, it takes three rules. -/
theorem normalForm_derivations_pair :
    pair.isInNormalForm = true ∧
      (∃ applied, Derivation pair.rules [.nonterminal ⟨"S"⟩] applied
        [.terminal ⟨"a"⟩, .terminal ⟨"b"⟩]) ∧
      (∀ applied, Derivation pair.rules [.nonterminal ⟨"S"⟩] applied
        [.terminal ⟨"a"⟩, .terminal ⟨"b"⟩] → applied.length = 3) ∧
      [] ∈ pair.language ∧ [] ∉ words pair.rules ⟨"A"⟩ := by
  have hnormal : pair.isInNormalForm = true := by decide
  obtain ⟨hlength, hstart, hempty⟩ := normalForm_derivations hnormal
  have hS : ⟨⟨"S"⟩, [.nonterminal ⟨"A"⟩, .nonterminal ⟨"B"⟩]⟩ ∈ pair.rules := by decide
  have hA : ⟨⟨"A"⟩, [.terminal ⟨"a"⟩]⟩ ∈ pair.rules := by decide
  have hB : ⟨⟨"B"⟩, [.terminal ⟨"b"⟩]⟩ ∈ pair.rules := by decide
  have hword : ∃ applied, Derivation pair.rules [.nonterminal ⟨"S"⟩] applied
      [.terminal ⟨"a"⟩, .terminal ⟨"b"⟩] :=
    ⟨_, .step hS [] [] (.step hA [] [.nonterminal ⟨"B"⟩]
      (.step hB [.terminal ⟨"a"⟩] [] (.done _)))⟩
  exact ⟨hnormal, hword, fun applied => hlength applied [⟨"a"⟩, ⟨"b"⟩] (by decide),
    hempty.mpr (by decide), fun hA => absurd (hstart _ hA) (by decide)⟩

end Grammar

end Chomsky

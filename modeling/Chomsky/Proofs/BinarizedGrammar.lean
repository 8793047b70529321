import Chomsky.Proofs.Minting
import Chomsky.Proofs.Unfolding

/-!
# Binarized grammars

`Binarizes` collects what a grammar and its binarization have to do with each other. Binarization
either gives such a grammar, with as many new nonterminals as `mintCount` says, or meets a name that
is taken, or refuses a rule (`binarized_of_accepted`, `binarized_of_refused`); its result is always
well formed.
-/

namespace Chomsky

/-! ## Forms of the rules that come out -/

namespace Binarization

variable {name : Nat → Nonterminal} {b : Binarization} {start A : Nonterminal}
  {right : List Symbol} {r : Rule} {rules : List Rule}

/-- The forms that binarization leaves behind. -/
def Normal (start : Nonterminal) (r : Rule) : Prop :=
  r.isLexical = true ∨ r.isBinary = true ∨ r.isEpsilon = true ∧ r.left = start

theorem accepts_iff : accepts start r = true ↔ keeps start r = true ∨ 2 ≤ r.right.length := by
  rw [accepts, Bool.or_eq_true, decide_eq_true_eq]

/-- A rule that is no unary rule can be binarized, and so can an epsilon rule of the start symbol. -/
theorem accepts_of_form (hunary : r.isUnary = false) (hepsilon : r.right = [] → r.left = start) :
    accepts start r = true := by
  rw [accepts_iff]
  rcases r.form_cases with hform | hform | hlexical | hlen
  · left
    simp [keeps, hform, hepsilon (Rule.isEpsilon_iff.mp hform)]
  · rw [hunary] at hform
    cases hform
  · left
    rw [keeps, hlexical, Bool.true_or]
  · exact .inr hlen

theorem normal_of_keeps (h : keeps start r = true) : Normal start r := by
  rw [keeps, Bool.or_eq_true, Bool.and_eq_true, decide_eq_true_eq] at h
  exact h.imp_right .inr

theorem rules_isolateAll (name : Nat → Nonterminal) (b : Binarization) (right : List Symbol) :
    ∃ l, (b.isolateAll name right).1.rules = b.rules ++ l ∧ ∀ s ∈ l, s.isLexical = true := by
  induction right generalizing b with
  | nil => exact ⟨[], (List.append_nil _).symm, by simp⟩
  | cons X right ih =>
    obtain ⟨l, hl, hlexical⟩ := ih (b.isolate name X).1
    rw [isolateAll_cons, hl]
    have hX := isolates_isolate name b X
    generalize b.isolate name X = isolated at hX
    cases hX with
    | nonterminal => exact ⟨l, rfl, hlexical⟩
    | again => exact ⟨l, rfl, hlexical⟩
    | @first a =>
      refine ⟨⟨name (b.counter + 1), [.terminal a]⟩ :: l, ?_, ?_⟩
      · exact List.append_assoc b.rules _ l
      · exact List.forall_mem_cons.mpr ⟨rfl, hlexical⟩

theorem rules_split (name : Nat → Nonterminal) (b : Binarization) (left first second : Nonterminal)
    (rest : List Nonterminal) :
    ∃ l, (b.split name left first (second :: rest)).rules = b.rules ++ l ∧
      ∀ s ∈ l, s.isBinary = true := by
  induction rest generalizing b first second with
  | nil => exact ⟨[_], rfl, by simp [Rule.isBinary]⟩
  | cons third rest ih =>
    obtain ⟨l, hl, hbinary⟩ := ih (b.introduce name [.nonterminal first, .nonterminal second])
      (name (b.counter + 1)) third
    refine ⟨⟨name (b.counter + 1), [.nonterminal first, .nonterminal second]⟩ :: l, ?_, ?_⟩
    · rw [split, hl]
      exact List.append_assoc b.rules _ l
    · exact List.forall_mem_cons.mpr ⟨rfl, hbinary⟩

/-- What is added for an accepted rule has normal form, and an epsilon rule stands for itself. -/
theorem rules_addRule (name : Nat → Nonterminal) (b : Binarization) (h : accepts start r = true) :
    ∃ l, (b.addRule name start r).rules = b.rules ++ l ∧ (∀ s ∈ l, Normal start s) ∧
      l.filter Rule.isEpsilon = [r].filter Rule.isEpsilon := by
  cases hk : keeps start r with
  | true =>
    rw [addRule_of_keeps hk]
    exact ⟨[r], rfl, by simpa using normal_of_keeps hk, rfl⟩
  | false =>
    have hlen : 2 ≤ r.right.length := (accepts_iff.mp h).resolve_left (by simp [hk])
    have hsame : (b.isolateAll name r.right).2.length = r.right.length := length_isolateAll
    obtain ⟨l, hl, hlexical⟩ := rules_isolateAll name b r.right
    rw [addRule_of_not_keeps hk]
    generalize b.isolateAll name r.right = isolated at hsame hl ⊢
    obtain ⟨b', _ | ⟨first, _ | ⟨second, rest⟩⟩⟩ := isolated
    · rw [← hsame] at hlen; exact absurd hlen (by simp)
    · rw [← hsame] at hlen; exact absurd hlen (by simp)
    · obtain ⟨l', hl', hbinary⟩ := rules_split name b' r.left first second rest
      change b'.rules = _ at hl
      have hnormal : ∀ s ∈ l ++ l', s.isLexical = true ∨ s.isBinary = true := by
        intro s hs
        rcases List.mem_append.mp hs with hs | hs
        · exact .inl (hlexical s hs)
        · exact .inr (hbinary s hs)
      refine ⟨l ++ l', ?_, fun s hs => (hnormal s hs).imp_right .inl, ?_⟩
      · rw [← List.append_assoc, ← hl]
        exact hl'
      · have hright : r.isEpsilon = false := by
          rw [Bool.eq_false_iff, ne_eq, Rule.isEpsilon_iff]
          intro hnil
          rw [hnil] at hlen
          exact absurd hlen (by decide)
        rw [List.filter_singleton, hright, cond_false, List.filter_eq_nil_iff]
        intro s hs hepsilon
        have hnil := Rule.isEpsilon_iff.mp hepsilon
        rcases hnormal s hs with h | h
        · simp [Rule.isLexical, hnil] at h
        · simp [Rule.isBinary, hnil] at h

theorem rules_addRules (name : Nat → Nonterminal) (b : Binarization)
    (h : ∀ r ∈ rules, accepts start r = true) :
    ∃ l, (b.addRules name start rules).rules = b.rules ++ l ∧ (∀ s ∈ l, Normal start s) ∧
      l.filter Rule.isEpsilon = rules.filter Rule.isEpsilon := by
  induction rules generalizing b with
  | nil => exact ⟨[], (List.append_nil _).symm, by simp, rfl⟩
  | cons r rules ih =>
    obtain ⟨hr, hrules⟩ := List.forall_mem_cons.mp h
    obtain ⟨l, hl, hnormal, hepsilon⟩ := rules_addRule name b hr
    obtain ⟨l', hl', hnormal', hepsilon'⟩ := ih (b.addRule name start r) hrules
    refine ⟨l ++ l', ?_, List.forall_mem_append.mpr ⟨hnormal, hnormal'⟩, ?_⟩
    · rw [← List.append_assoc, ← hl]
      exact hl'
    · rw [List.filter_append, hepsilon, hepsilon', ← List.filter_append, List.singleton_append]

end Binarization

/-! ## What binarization answers -/

namespace Grammar

variable {g r : Grammar} {a : Allocator}

/-- The second grammar is the first one binarized, with these new nonterminals. -/
structure Binarizes (g : Grammar) (minted : List Nonterminal) (r : Grammar) : Prop where
  valid : r.Valid
  start_eq : r.start = g.start
  terminals_eq : r.terminals = g.terminals
  nonterminals_eq : r.nonterminals = g.nonterminals ++ minted
  language_eq : r.language = g.language
  normal : ∀ s ∈ r.rules, Binarization.Normal g.start s
  epsilon_eq : r.rules.filter Rule.isEpsilon = g.rules.filter Rule.isEpsilon
  /-- An old nonterminal is on a right side only if it was. -/
  right_old : ∀ A ∈ g.nonterminals, ∀ s ∈ r.rules, .nonterminal A ∈ s.right →
    ∃ s' ∈ g.rules, .nonterminal A ∈ s'.right

/-- All rules binarized. -/
def binarization (g : Grammar) (a : Allocator) : Binarization :=
  .addRules a.numbered g.start { counter := a.counter } g.rules

/-- The nonterminals that this takes. -/
def introduced (g : Grammar) (a : Allocator) : List Nonterminal :=
  a.mintedSince (a.after g.mintCount)

def binarizedWith (g : Grammar) (a : Allocator) : Grammar :=
  { g with
    rules := (g.binarization a).rules
    nonterminals := g.nonterminals ++ g.introduced a }

theorem fresh_of_freeNext (hg : g.Valid) {n : Nat} (h : a.FreeNext g.symbolNames n) :
    Binarization.Fresh g a.numbered a.counter (a.counter + n) where
  valid := hg
  injective := a.numbered_injective
  notMem i hi hn := notMem_of_fresh (h i hi hn).1

theorem counter_binarization : (g.binarization a).counter = a.counter + g.mintCount :=
  counter_addRules g a.numbered a.counter

theorem mem_introduced_iff {A : Nonterminal} :
    A ∈ g.introduced a ↔ Binarization.Minted a.numbered a.counter (g.binarization a) A := by
  rw [Binarization.Minted, counter_binarization, introduced, Allocator.mem_mintedSince_after]

theorem exists_unfolds (hg : g.Valid) (hfree : a.FreeNext g.symbolNames g.mintCount) :
    ∃ E, Binarization.Unfolds g a.numbered a.counter (g.binarization a) g.rules E := by
  have hinit : Binarization.Unfolds g a.numbered a.counter { counter := a.counter } []
      fun A => [.nonterminal A] := .initial rfl rfl rfl
  have hN : (g.binarization a).counter ≤ a.counter + g.mintCount := counter_binarization.le
  exact hinit.addRules (fresh_of_freeNext hg hfree) (fun r hr => hr) hN

/-- Every symbol on a right side is declared before or introduced. -/
theorem declares_binarizedWith (hg : g.Valid) {X : Symbol}
    (hX : Binarization.Known g a.numbered a.counter (g.binarization a) X) :
    (g.binarizedWith a).declares X = true := by
  rcases hX with ⟨s, hs, hX⟩ | ⟨A, hA, rfl⟩
  · have hdecl := hg.right_declared s hs X hX
    cases X with
    | terminal a => exact hdecl
    | nonterminal A =>
      exact declares_nonterminal.mpr (List.mem_append_left _ (declares_nonterminal.mp hdecl))
  · exact declares_nonterminal.mpr (List.mem_append_right _ (mem_introduced_iff.mpr hA))

theorem mintCount_of_isEmpty (h : g.isEmpty = true) : g.mintCount = 0 := by
  simp [mintCount, surplus, isolatedTerminals, (isEmpty_iff.mp h).2]

theorem introduced_of_isEmpty (h : g.isEmpty = true) : g.introduced a = [] := by
  rw [introduced, mintCount_of_isEmpty h, Allocator.mintedSince_after]
  rfl

theorem isEmpty_binarizedWith (h : g.isEmpty = true) : (g.binarizedWith a).isEmpty = true := by
  obtain ⟨hN, hrules⟩ := isEmpty_iff.mp h
  refine isEmpty_iff.mpr ⟨?_, ?_⟩
  · rw [binarizedWith, hN, introduced_of_isEmpty h]
    rfl
  · rw [binarizedWith, binarization, hrules]
    rfl

theorem valid_binarizedWith (hg : g.Valid) (hfree : a.FreeNext g.symbolNames g.mintCount) :
    (g.binarizedWith a).Valid := by
  obtain ⟨E, hE⟩ := exists_unfolds hg hfree
  refine hg.extend Allocator.nodup_mintedSince_after ?_ List.perm_append_comm rfl ?_ ?_ ?_
  · intro A hA
    obtain ⟨i, hi, hn, rfl⟩ := Allocator.mem_mintedSince_after.mp hA
    exact (hfree i hi hn).1
  · rcases hg.start_declared with hempty | hstart
    · exact .inl (isEmpty_binarizedWith hempty)
    · exact .inr (List.mem_append_left _ hstart)
  · intro s hs
    rcases hE.left_known s hs with hold | hnew
    · exact List.mem_append_left _ hold
    · exact List.mem_append_right _ (mem_introduced_iff.mpr hnew)
  · intro s hs X hX
    exact declares_binarizedWith hg (hE.right_known s hs X hX)

theorem language_binarizedWith (hg : g.Valid) (hfree : a.FreeNext g.symbolNames g.mintCount) :
    (g.binarizedWith a).language = g.language := by
  rcases hg.start_declared with hempty | hstart
  · ext w
    exact ⟨fun hw => absurd hw (notMem_language_of_isEmpty (isEmpty_binarizedWith hempty)),
      fun hw => absurd hw (notMem_language_of_isEmpty hempty)⟩
  · obtain ⟨E, hE⟩ := exists_unfolds hg hfree
    exact hE.words_eq hstart

theorem binarizedWith_binarizes (hg : g.Valid)
    (haccept : ∀ r ∈ g.rules, Binarization.accepts g.start r = true)
    (hfree : a.FreeNext g.symbolNames g.mintCount) :
    g.Binarizes (g.introduced a) (g.binarizedWith a) := by
  obtain ⟨l, hl, hnormal, hepsilon⟩ :=
    Binarization.rules_addRules a.numbered { counter := a.counter } haccept
  rw [List.nil_append] at hl
  obtain ⟨E, hE⟩ := exists_unfolds hg hfree
  refine ⟨valid_binarizedWith hg hfree, rfl, rfl, rfl, language_binarizedWith hg hfree,
    fun s hs => ?_, ?_, fun A hA s hs hright => ?_⟩
  · rw [binarizedWith, binarization, hl] at hs
    exact hnormal s hs
  · rw [binarizedWith, binarization, hl]
    exact hepsilon
  · rcases hE.right_known s hs _ hright with h | ⟨B, hB, heq⟩
    · exact h
    · obtain rfl := Symbol.nonterminal.inj heq
      obtain ⟨i, hi, hn, rfl⟩ := Allocator.mem_mintedSince_after.mp (mem_introduced_iff.mpr hB)
      exact absurd hA ((fresh_of_freeNext hg hfree).notMem i hi hn)

/-- If every rule can be binarized, nothing can stop binarization but a name. -/
theorem binarized_eq (haccept : ∀ r ∈ g.rules, Binarization.accepts g.start r = true) :
    g.binarized a = match a.freshList g.symbolNames g.mintCount with
      | (later, .error failure) => (later, .error failure)
      | (later, .ok _) => (later, { g with
          rules := (g.binarization a).rules
          nonterminals := g.nonterminals ++ a.mintedSince later }.checked) := by
  have hall : g.rules.takeWhile (Binarization.accepts g.start) = g.rules :=
    List.takeWhile_eq_self_iff.mpr haccept
  have hnone : (g.rules.find? fun r => !Binarization.accepts g.start r) = none := by
    rw [List.find?_eq_none]
    intro r hr
    simp [haccept r hr]
  have hpartly : g.partlyBinarized a = g.binarization a := by rw [partlyBinarized, hall, binarization]
  have hcount : (g.binarization a).counter - a.counter = g.mintCount := by
    rw [counter_binarization]
    omega
  rewrite [binarized, hpartly, hcount, hnone]
  rcases a.freshList g.symbolNames g.mintCount with ⟨later, _ | _⟩ <;> rfl

theorem binarized_of_free (hg : g.Valid)
    (haccept : ∀ r ∈ g.rules, Binarization.accepts g.start r = true)
    (hfree : a.FreeNext g.symbolNames g.mintCount) :
    g.binarized a = (a.after g.mintCount, .ok (g.binarizedWith a)) := by
  rw [binarized_eq haccept]
  rcases a.freshList_cases g.symbolNames g.mintCount with ⟨_, heq⟩ | ⟨k, hk, _, hnot, _⟩
  · rw [heq]
    exact congrArg (Prod.mk _) (valid_binarizedWith hg hfree).checked
  · exact absurd (hfree _ (by omega) (by omega)) hnot

/-- Binarization of rules that can be binarized fails only at a name. -/
theorem binarized_of_accepted (hg : g.Valid)
    (haccept : ∀ r ∈ g.rules, Binarization.accepts g.start r = true) :
    (a.FreeNext g.symbolNames g.mintCount ∧
      ∃ r, g.Binarizes (g.introduced a) r ∧ g.binarized a = (a.after g.mintCount, .ok r)) ∨
    ¬a.FreeNext g.symbolNames g.mintCount ∧
      ∃ later name, g.binarized a = (later, .error (.nameTaken name)) := by
  rcases a.freshList_cases g.symbolNames g.mintCount with ⟨hfree, _⟩ | ⟨k, hk, _, hnot, heq⟩
  · exact .inl ⟨hfree, _, binarizedWith_binarizes hg haccept hfree,
      binarized_of_free hg haccept hfree⟩
  · right
    rw [binarized_eq haccept, heq]
    exact ⟨fun h => hnot (h _ (by omega) (by omega)), _, _, rfl⟩

/-- Binarization stops at a rule that it does not accept, if it gets there. -/
theorem binarized_of_refused {r : Rule} (hr : r ∈ g.rules)
    (hrefused : Binarization.accepts g.start r = false) :
    ∃ later failure, g.binarized a = (later, .error failure) ∧
      ((∃ name, failure = .nameTaken name) ∨ ∃ r ∈ g.rules, failure = .notReduced r) := by
  rw [binarized]
  rcases a.freshList_cases g.symbolNames ((g.partlyBinarized a).counter - a.counter) with
    ⟨_, heq⟩ | ⟨k, _, _, _, heq⟩
  · rw [heq]
    cases hfind : g.rules.find? fun r => !Binarization.accepts g.start r with
    | none => exact absurd (List.find?_eq_none.mp hfind r hr) (by simp [hrefused])
    | some s => exact ⟨_, _, rfl, .inr ⟨s, List.mem_of_find?_eq_some hfind, rfl⟩⟩
  · rw [heq]
    exact ⟨_, _, rfl, .inl ⟨_, rfl⟩⟩

/-- What has happened if binarization answers a grammar. -/
theorem binarized_eq_ok (hg : g.Valid) (h : (g.binarized a).2 = .ok r) :
    a.FreeNext g.symbolNames g.mintCount ∧ (g.binarized a).1 = a.after g.mintCount ∧
      r = g.binarizedWith a ∧ g.Binarizes (g.introduced a) r := by
  have haccept : ∀ s ∈ g.rules, Binarization.accepts g.start s = true := by
    by_contra hnot
    push Not at hnot
    obtain ⟨s, hs, hrefused⟩ := hnot
    obtain ⟨later, failure, heq, _⟩ :=
      binarized_of_refused (a := a) hs (Bool.eq_false_iff.mpr hrefused)
    rw [heq] at h
    cases h
  rcases binarized_of_accepted (a := a) hg haccept with ⟨hfree, _⟩ | ⟨_, later, name, heq⟩
  · rw [binarized_of_free hg haccept hfree] at h ⊢
    obtain rfl := Except.ok.inj h
    exact ⟨hfree, rfl, rfl, binarizedWith_binarizes hg haccept hfree⟩
  · rw [heq] at h
    cases h

end Grammar

end Chomsky

import Chomsky.Proofs.Settled

/-!
# The useful part of a grammar

A derivation is complete if it leads from the start symbol to a word. What is left without the useless
nonterminals are just the rules that some complete derivation applies and the nonterminals that some
complete derivation goes through (`removeUseless_part`). A complete derivation applies productive rules
only (`derives_productiveRules`), so it is still there when accessibility is judged; and where all
nonterminals are useful, each of them and each rule is on the way to some word.
-/

namespace Chomsky

theorem filter_contains_filter {α : Type} [BEq α] [LawfulBEq α] (p : α → Bool) (l : List α) :
    l.filter (l.filter p).contains = l.filter p := by
  refine List.filter_congr fun a ha => ?_
  rw [Bool.eq_iff_iff, List.contains_iff_mem, List.mem_filter]
  exact and_iff_right ha

/-! ## Derivations with the rules that they apply -/

/-- Rewriting, together with the rules that are applied, first one first. -/
inductive Derivation (rules : List Rule) : List Symbol → List Rule → List Symbol → Prop
  | done (α : List Symbol) : Derivation rules α [] α
  | step {r : Rule} (hr : r ∈ rules) (before after : List Symbol) {applied : List Rule}
      {β : List Symbol} (h : Derivation rules (before ++ r.right ++ after) applied β) :
      Derivation rules (before ++ .nonterminal r.left :: after) (r :: applied) β

section Derivation

variable {rules applied applied' : List Rule} {α β γ : List Symbol} {s : Rule}

theorem Derivation.derives (h : Derivation rules α applied β) : Derives rules α β := by
  induction h with
  | done => exact .refl
  | step hr before after _ ih => exact .head (.step hr before after) ih

theorem Derivation.trans (h : Derivation rules α applied β) (h' : Derivation rules β applied' γ) :
    Derivation rules α (applied ++ applied') γ := by
  induction h with
  | done => exact h'
  | step hr before after _ ih => exact .step hr before after (ih h')

theorem Derives.exists_derivation (h : Derives rules α β) :
    ∃ applied, Derivation rules α applied β := by
  induction h using Relation.ReflTransGen.head_induction_on with
  | refl => exact ⟨[], .done β⟩
  | head hstep _ ih =>
    obtain ⟨hr, before, after⟩ := hstep
    obtain ⟨applied, h⟩ := ih
    exact ⟨_, .step hr before after h⟩

/-- A derivation that applies a rule can be cut where it does. -/
theorem exists_derivation_applies_iff :
    (∃ applied, Derivation rules α applied β ∧ s ∈ applied) ↔
      s ∈ rules ∧ ∃ before after, Derives rules α (before ++ .nonterminal s.left :: after) ∧
        Derives rules (before ++ s.right ++ after) β := by
  constructor
  · intro h
    obtain ⟨applied, h, hs⟩ := h
    induction h with
    | done => exact absurd hs List.not_mem_nil
    | step hr before after h ih =>
      rcases List.mem_cons.mp hs with rfl | hs
      · exact ⟨hr, before, after, .refl, h.derives⟩
      · obtain ⟨hmem, before', after', hfirst, hsecond⟩ := ih hs
        exact ⟨hmem, before', after', .head (.step hr before after) hfirst, hsecond⟩
  · intro h
    obtain ⟨hs, before, after, hfirst, hsecond⟩ := h
    obtain ⟨applied, hfirst⟩ := hfirst.exists_derivation
    obtain ⟨applied', hsecond⟩ := hsecond.exists_derivation
    refine ⟨_, hfirst.trans (.step hs before after hsecond), ?_⟩
    exact List.mem_append_right _ List.mem_cons_self

end Derivation

namespace Grammar

variable {g r : Grammar} {A : Nonterminal} {s : Rule} {α β : List Symbol}

/-- Some complete derivation applies the rule. -/
def Applies (g : Grammar) (s : Rule) : Prop :=
  ∃ (applied : List Rule) (w : Word),
    Derivation g.rules [.nonterminal g.start] applied (w.map .terminal) ∧ s ∈ applied

/-- Some complete derivation goes through something with the nonterminal in it. -/
def GoesThrough (g : Grammar) (A : Nonterminal) : Prop :=
  ∃ (α : List Symbol) (w : Word), Derives g.rules [.nonterminal g.start] α ∧ .nonterminal A ∈ α ∧
    Derives g.rules α (w.map .terminal)

theorem applies_iff :
    g.Applies s ↔ s ∈ g.rules ∧ ∃ (before after : List Symbol) (w : Word),
      Derives g.rules [.nonterminal g.start] (before ++ .nonterminal s.left :: after) ∧
        Derives g.rules (before ++ s.right ++ after) (w.map .terminal) := by
  constructor
  · intro h
    obtain ⟨applied, w, h, hs⟩ := h
    obtain ⟨hs, before, after, hcut⟩ := exists_derivation_applies_iff.mp ⟨applied, h, hs⟩
    exact ⟨hs, before, after, w, hcut⟩
  · intro h
    obtain ⟨hs, before, after, w, hcut⟩ := h
    obtain ⟨applied, h, hs⟩ := exists_derivation_applies_iff.mpr ⟨hs, before, after, hcut⟩
    exact ⟨applied, w, h, hs⟩

/-- A rule that is applied makes the derivation go through its left side. -/
theorem Applies.goesThrough (h : g.Applies s) : g.GoesThrough s.left := by
  obtain ⟨hs, before, after, w, hfirst, hsecond⟩ := applies_iff.mp h
  refine ⟨_, w, hfirst, List.mem_append_right _ List.mem_cons_self, ?_⟩
  exact .head (.step hs before after) hsecond

/-! ## A complete derivation stays inside the useful part -/

theorem exists_mem_form_middle {I : Reading} {before after : List Symbol}
    (h : ∃ w, w ∈ I.form (before ++ α ++ after)) : ∃ w, w ∈ I.form α := by
  refine Reading.exists_mem_form.mpr fun X hX => Reading.exists_mem_form.mp h X ?_
  exact List.mem_append_left _ (List.mem_append_right _ hX)

/-- On the way to a word every rule is productive. -/
theorem derives_productiveRules (h : Derives g.rules α β)
    (hw : ∃ w, w ∈ (words g.rules).form β) : Derives g.productiveRules α β := by
  induction h with
  | refl => exact .refl
  | tail _ hstep ih =>
    obtain ⟨w, hw⟩ := hw
    have hearlier := form_le_of_rewrites (closed_words g.rules) hstep hw
    obtain ⟨hs, before, after⟩ := hstep
    obtain ⟨v, hv⟩ := exists_mem_form_middle ⟨w, hw⟩
    exact (ih ⟨w, hearlier⟩).tail (.step (mem_productiveRules hs hv) before after)

theorem GoesThrough.useful (h : g.GoesThrough A) :
    A ∈ g.productive ∧ Leads g.productiveRules g.start A := by
  obtain ⟨α, w, hfirst, hA, hsecond⟩ := h
  have hw : w ∈ (words g.rules).form α := mem_form_words_iff.mpr hsecond
  refine ⟨mem_productive_iff.mpr (Reading.exists_mem_form.mp ⟨w, hw⟩ _ hA), ?_⟩
  exact leads_of_derives (derives_productiveRules hfirst ⟨w, hw⟩) hA

theorem GoesThrough.start_productive (h : g.GoesThrough A) : g.start ∈ g.productive := by
  obtain ⟨α, w, hfirst, _, hsecond⟩ := h
  exact start_mem_productive_iff.mpr ⟨w, hfirst.trans hsecond⟩

theorem Applies.productive (h : g.Applies s) : s ∈ g.productiveRules := by
  obtain ⟨hs, before, after, w, _, hsecond⟩ := applies_iff.mp h
  obtain ⟨v, hv⟩ := exists_mem_form_middle ⟨w, mem_form_words_iff.mpr hsecond⟩
  exact mem_productiveRules hs hv

/-! ## Everything useful is on the way to some word -/

namespace AllUseful

variable (h : g.AllUseful) (hg : g.Valid)

include h hg

/-- Whatever the start symbol derives can be derived further to a word. -/
theorem exists_completion (he : g.isEmpty = false)
    (hα : Derives g.rules [.nonterminal g.start] α) :
    ∃ w : Word, Derives g.rules α (w.map .terminal) := by
  suffices hwords : ∃ w, w ∈ (words g.rules).form α by
    obtain ⟨w, hw⟩ := hwords
    exact ⟨w, mem_form_words_iff.mp hw⟩
  refine Reading.exists_mem_form.mpr fun X hX => ?_
  cases X with
  | terminal a => exact ⟨[a], rfl⟩
  | nonterminal B =>
    have hB := (Grammar.mem_accessible_iff he).mpr (leads_of_derives hα hX)
    exact h.productive B ((h.mem_accessible_iff hg).mp hB)

theorem goesThrough (hA : A ∈ g.nonterminals) : g.GoesThrough A := by
  obtain ⟨α, hα, hmem⟩ := exists_derives_iff.mpr (h.accessible A hA)
  obtain ⟨w, hw⟩ := h.exists_completion hg (isEmpty_eq_false_of_mem hA) hα
  exact ⟨α, w, hα, hmem, hw⟩

theorem applies (hs : s ∈ g.rules) : g.Applies s := by
  have hleft := hg.left_declared s hs
  obtain ⟨α, hα, hmem⟩ := exists_derives_iff.mpr (h.accessible _ hleft)
  obtain ⟨before, after, rfl⟩ := List.append_of_mem hmem
  obtain ⟨w, hw⟩ := h.exists_completion hg (isEmpty_eq_false_of_mem hleft)
    (hα.tail (.step hs before after))
  exact applies_iff.mpr ⟨hs, before, after, w, hα, hw⟩

end AllUseful

theorem Applies.mono (h : r.Applies s) (hstart : r.start = g.start)
    (hsub : ∀ t ∈ r.rules, t ∈ g.rules) : g.Applies s := by
  obtain ⟨hs, before, after, w, hfirst, hsecond⟩ := applies_iff.mp h
  rw [hstart] at hfirst
  exact applies_iff.mpr ⟨hsub s hs, before, after, w, hfirst.mono hsub, hsecond.mono hsub⟩

theorem GoesThrough.mono (h : r.GoesThrough A) (hstart : r.start = g.start)
    (hsub : ∀ t ∈ r.rules, t ∈ g.rules) : g.GoesThrough A := by
  obtain ⟨α, w, hfirst, hA, hsecond⟩ := h
  rw [hstart] at hfirst
  exact ⟨α, w, hfirst.mono hsub, hA, hsecond.mono hsub⟩

/-! ## What the removal leaves -/

def productivePart (g : Grammar) : Grammar :=
  { g with rules := g.productiveRules, nonterminals := g.nonterminals.filter g.productive.contains }

def accessiblePart (g : Grammar) : Grammar :=
  { g with rules := g.accessibleRules, nonterminals := g.nonterminals.filter g.accessible.contains }

theorem Valid.productivePart_isEmpty (hg : g.Valid) (h : g.start ∈ g.productive) :
    g.productivePart.isEmpty = false := by
  obtain ⟨w, hw⟩ := mem_productive_iff.mp h
  obtain ⟨s, hs, hleft, _⟩ := mem_words_iff.mp hw
  have hdecl : g.start ∈ g.nonterminals := hleft ▸ hg.left_declared s hs
  have hmem : g.start ∈ g.productivePart.nonterminals :=
    List.mem_filter.mpr ⟨hdecl, List.contains_iff_mem.mpr h⟩
  exact isEmpty_eq_false_of_mem hmem

/-- The accessible part of the productive part, or nothing. -/
theorem eq_of_onlyUseful (hg : g.Valid) (h : g.onlyUseful = .ok r) :
    r = if g.start ∈ g.productive then g.productivePart.accessiblePart
      else { g with rules := [], nonterminals := [] } := by
  obtain ⟨p, hp, _, _⟩ := onlyProductive_prunes hg
  rw [onlyUseful, hp] at h
  have hp' : p = if g.start ∈ g.productive then g.productivePart
      else { g with rules := [], nonterminals := [] } := eq_of_restrict hp
  have hr : r = if p.start ∈ p.accessible then p.accessiblePart
      else { p with rules := [], nonterminals := [] } := eq_of_restrict h
  by_cases hstart : g.start ∈ g.productive
  · rw [if_pos hstart] at hp' ⊢
    subst hp'
    rw [hr, if_pos (start_mem_accessible (hg.productivePart_isEmpty hstart))]
  · rw [if_neg hstart] at hp' ⊢
    subst hp'
    rw [hr]
    split <;> rfl

theorem onlyUseful_filters (hg : g.Valid) (h : g.onlyUseful = .ok r) :
    r.rules = g.rules.filter r.rules.contains ∧
      r.nonterminals = g.nonterminals.filter r.nonterminals.contains := by
  rw [eq_of_onlyUseful hg h]
  split
  · simp only [accessiblePart, productivePart, accessibleRules, productiveRules, List.filter_filter,
      filter_contains_filter, and_self]
  · simp

theorem mem_of_applies (hg : g.Valid) (h : g.onlyUseful = .ok r) (hs : g.Applies s) :
    s ∈ r.rules := by
  have hstart := hs.goesThrough.start_productive
  have hleads : Leads g.productivePart.rules g.productivePart.start s.left := hs.goesThrough.useful.2
  rw [eq_of_onlyUseful hg h, if_pos hstart]
  refine mem_accessibleRules_iff.mpr ⟨hs.productive, ?_⟩
  exact (mem_accessible_iff (hg.productivePart_isEmpty hstart)).mpr hleads

theorem mem_of_goesThrough (hg : g.Valid) (h : g.onlyUseful = .ok r) (hA : g.GoesThrough A) :
    A ∈ r.nonterminals := by
  have hstart := hA.start_productive
  obtain ⟨hproductive, hleads⟩ := hA.useful
  obtain ⟨w, hw⟩ := mem_productive_iff.mp hproductive
  obtain ⟨s, hs, rfl, _⟩ := mem_words_iff.mp hw
  rw [eq_of_onlyUseful hg h, if_pos hstart]
  refine List.mem_filter.mpr ⟨List.mem_filter.mpr ⟨hg.left_declared s hs, ?_⟩, ?_⟩
  · exact List.contains_iff_mem.mpr hproductive
  · have hleads' : Leads g.productivePart.rules g.productivePart.start s.left := hleads
    exact List.contains_iff_mem.mpr
      ((mem_accessible_iff (hg.productivePart_isEmpty hstart)).mpr hleads')

/-- Which rules and nonterminals are left, and that they stay in order and as often as they were there.
The words stay, and removing anything useless once more changes nothing. -/
theorem removeUseless_part (hg : g.Valid) :
    ∃ r, g.removeUseless.result = .ok r ∧
      (∀ s, s ∈ r.rules ↔ g.Applies s) ∧ r.rules = g.rules.filter r.rules.contains ∧
      (∀ A, A ∈ r.nonterminals ↔ g.GoesThrough A) ∧
      r.nonterminals = g.nonterminals.filter r.nonterminals.contains ∧
      r.start = g.start ∧ r.terminals = g.terminals ∧
      (r.isEmpty = true ↔ ∀ w, w ∉ g.language) ∧ r.language = g.language ∧
      r.removeNonproductive.result = .ok r ∧ r.removeInaccessible.result = .ok r ∧
      r.removeUseless.result = .ok r := by
  obtain ⟨r, hr, hprunes, hempty⟩ := onlyUseful_prunes hg
  have huseful := onlyUseful_allUseful hg hr
  have hvalid := hprunes.valid
  have hsub : ∀ t ∈ r.rules, t ∈ g.rules := fun _ ht => hprunes.rules_sublist.subset ht
  obtain ⟨hrules, hnonterminals⟩ := onlyUseful_filters hg hr
  refine ⟨r, result_removeUseless.trans hr, fun s => ⟨fun hs => ?_, mem_of_applies hg hr⟩, hrules,
    fun A => ⟨fun hA => ?_, mem_of_goesThrough hg hr⟩, hnonterminals, hprunes.start_eq,
    hprunes.terminals_eq, hempty, hprunes.language_eq, huseful.onlyProductive_eq hvalid,
    huseful.onlyAccessible_eq hvalid, result_removeUseless.trans (huseful.onlyUseful_eq hvalid)⟩
  · exact (huseful.applies hvalid hs).mono hprunes.start_eq hsub
  · exact (huseful.goesThrough hvalid hA).mono hprunes.start_eq hsub

/-- `B` derives no word, and `A` is mentioned only where `B` is. -/
def detour : Grammar where
  start := ⟨"S"⟩
  rules := [
    ⟨⟨"S"⟩, [.nonterminal ⟨"A"⟩, .nonterminal ⟨"B"⟩]⟩, ⟨⟨"A"⟩, [.terminal ⟨"a"⟩]⟩,
    ⟨⟨"B"⟩, [.nonterminal ⟨"B"⟩, .nonterminal ⟨"S"⟩]⟩, ⟨⟨"S"⟩, [.terminal ⟨"a"⟩]⟩]
  nonterminals := [⟨"S"⟩, ⟨"A"⟩, ⟨"B"⟩]
  terminals := [⟨"a"⟩]

/-- `A` derives a word and is mentioned, but no complete derivation goes through it. -/
theorem removeUseless_part_detour :
    ∃ r, detour.removeUseless.result = .ok r ∧ r.nonterminals = [⟨"S"⟩] ∧
      detour.Applies ⟨⟨"S"⟩, [.terminal ⟨"a"⟩]⟩ ∧ ¬detour.Applies ⟨⟨"A"⟩, [.terminal ⟨"a"⟩]⟩ ∧
      ¬detour.GoesThrough ⟨"A"⟩ := by
  have hvalid : detour.Valid := defect?_eq_none_iff.mp (by cbv)
  obtain ⟨r, hr, hrules, _, hnonterminals, _⟩ := removeUseless_part hvalid
  have heq : detour.removeUseless.result = .ok
      { detour with rules := [⟨⟨"S"⟩, [.terminal ⟨"a"⟩]⟩], nonterminals := [⟨"S"⟩] } := by cbv
  obtain rfl := Except.ok.inj (hr.symm.trans heq)
  refine ⟨_, hr, rfl, (hrules _).mp List.mem_cons_self, ?_, ?_⟩
  · rw [← hrules]
    decide
  · rw [← hnonterminals]
    decide

end Grammar

end Chomsky

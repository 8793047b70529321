import Chomsky.Proofs.Accessibility
import Chomsky.Proofs.Stages

/-!
# Grammars that normalization leaves alone

A grammar is settled if it has nothing left to do for any of the phases, with this configuration. Then
each phase answers the grammar as it was given, with the rules in their order, and so does normalization
(`Settled.normalize_eq`). The epsilon rule has to stand in front, for that is where it is put back.
-/

namespace Chomsky

/-! ## The phases on rules with nothing to do -/

section Expansion

variable {α : Type} [BEq α] [LawfulBEq α] {nullable right : List α}

theorem nullablePositions_eq_nil (h : ∀ X ∈ right, X ∉ nullable) :
    nullablePositions nullable right = [] := by
  induction right with
  | nil => rfl
  | cons X right ih =>
    obtain ⟨hX, hright⟩ := List.forall_mem_cons.mp h
    rw [nullablePositions_cons, ih hright, if_neg (by simpa using hX)]
    rfl

theorem expansions_eq_singleton (h : ∀ X ∈ right, X ∉ nullable) :
    expansions nullable right = [right] := by
  rw [expansions, nullablePositions_eq_nil h]
  rfl

end Expansion

namespace Binarization

variable {name : Nat → Nonterminal} {b : Binarization} {start : Nonterminal} {r : Rule}
  {rules : List Rule}

theorem addRule_of_normal (h : Normal start r) : b.addRule name start r = b.emit r := by
  rcases h with hlexical | hbinary | ⟨hepsilon, hleft⟩
  · exact addRule_of_keeps (by rw [keeps, hlexical, Bool.true_or])
  · obtain ⟨A, B, hright⟩ := Rule.isBinary_iff.mp hbinary
    obtain ⟨left, right⟩ := r
    subst hright
    rfl
  · exact addRule_of_keeps (by simp [keeps, hepsilon, hleft])

theorem addRules_of_normal (h : ∀ s ∈ rules, Normal start s) :
    b.addRules name start rules = { b with rules := b.rules ++ rules } := by
  induction rules generalizing b with
  | nil =>
    rw [List.append_nil]
    rfl
  | cons r rules ih =>
    obtain ⟨hr, hrules⟩ := List.forall_mem_cons.mp h
    show (b.addRule name start r).addRules name start rules = _
    rw [addRule_of_normal hr, ih hrules, emit]
    simp only [List.append_assoc, List.singleton_append]

end Binarization

/-- Only unary rules stand in front of an epsilon rule. -/
def EpsilonFirst (rules : List Rule) : Prop :=
  rules.Pairwise fun s t => t.isEpsilon = true → s.isEpsilon = true ∨ s.isUnary = true

theorem EpsilonFirst.filter_append {rules : List Rule} (h : EpsilonFirst rules)
    (hunary : ∀ s ∈ rules, s.isUnary = false) :
    rules.filter Rule.isEpsilon ++ rules.filter (fun s => !s.isEpsilon) = rules := by
  induction rules with
  | nil => rfl
  | cons s rules ih =>
    obtain ⟨hs, hrules⟩ := List.forall_mem_cons.mp hunary
    obtain ⟨hfront, hrest⟩ := List.pairwise_cons.mp h
    cases hepsilon : s.isEpsilon with
    | true =>
      rw [List.filter_cons_of_pos hepsilon, List.filter_cons_of_neg (by simp [hepsilon]),
        List.cons_append, ih hrest hrules]
    | false =>
      -- nothing behind is an epsilon rule
      have hnone : ∀ t ∈ rules, t.isEpsilon = false := by
        intro t ht
        rw [Bool.eq_false_iff]
        intro htrue
        have hor := hfront t ht htrue
        simp [hepsilon, hs] at hor
      have hfirst : rules.filter Rule.isEpsilon = [] :=
        List.filter_eq_nil_iff.mpr fun t ht => by simp [hnone t ht]
      have hsecond : rules.filter (fun t => !t.isEpsilon) = rules :=
        List.filter_eq_self.mpr fun t ht => by simp [hnone t ht]
      rw [List.filter_cons_of_neg (by simp [hepsilon]), List.filter_cons_of_pos (by simp [hepsilon]),
        hfirst, hsecond, List.nil_append]

namespace Grammar

variable {g r : Grammar} {config : Config} {a : Allocator} {b : Prop}

theorem expandedRules_eq_filter {nullable : List Symbol}
    (h : ∀ s ∈ g.rules, ∀ X ∈ s.right, X ∉ nullable) :
    g.expandedRules nullable = g.rules.filter fun s => !s.isEpsilon := by
  rw [expandedRules]
  calc _ = (g.rules.filter fun s => !s.isEpsilon).flatMap fun s => [s] := by
        refine List.flatMap_congr fun s hs => ?_
        rw [Rule.expansions, expansions_eq_singleton (h s (List.mem_filter.mp hs).1)]
        rfl
    _ = _ := List.flatMap_singleton' _

theorem uniqueIf_eq (hg : g.Valid) {wanted : Bool} (h : wanted = true → g.rules.Nodup) :
    g.uniqueIf wanted = .ok g := by
  cases wanted with
  | false => rfl
  | true =>
    rw [uniqueIf, if_pos rfl, withoutDuplicates_eq hg, eraseDups_of_nodup (h rfl)]

theorem properRules_eq (h : ∀ s ∈ g.rules, s.isUnary = false) : g.properRules = g.rules :=
  List.filter_eq_self.mpr fun s hs => by simp [h s hs]

theorem withoutUnary_eq_self (hg : g.Valid) (h : ∀ s ∈ g.rules, s.isUnary = false) :
    g.withoutUnary = .ok g := by
  obtain ⟨copies, hcopies, heq⟩ := withoutUnary_eq hg
  have hnil : copies = [] := by
    refine List.eq_nil_iff_forall_not_mem.mpr fun s hs => hcopies.notMem s hs ?_
    obtain ⟨hproper, B, hreach, hB⟩ := (hcopies.mem_iff s).mp (List.mem_append_right _ hs)
    rcases hreach.cases_head with heq | ⟨C, hstep, _⟩
    · subst heq
      exact mem_properRules_iff.mpr ⟨hB, hproper⟩
    · have hnot := h _ hstep
      exact absurd hnot (by simp [Rule.isUnary])
  rw [heq, hnil, properRules_eq h, List.append_nil]

theorem restrict_eq_self (hg : g.Valid) {kept : List Nonterminal}
    (h : ∀ A, A ∈ kept ↔ A ∈ g.nonterminals) : g.restrict kept g.rules = .ok g := by
  have hall : g.nonterminals.filter kept.contains = g.nonterminals :=
    List.filter_eq_self.mpr fun A hA => by simpa using (h A).mpr hA
  rw [restrict, hall]
  split
  · exact hg.checked
  · next hstart =>
    have hnot : g.start ∉ g.nonterminals := fun hmem => hstart (by simpa using (h _).mpr hmem)
    obtain ⟨hN, hrules⟩ := isEmpty_iff.mp (hg.start_declared.resolve_right hnot)
    rw [← hN, ← hrules]
    exact hg.checked

theorem AllUseful.onlyProductive_eq (h : g.AllUseful) (hg : g.Valid) : g.onlyProductive = .ok g := by
  have hproductive : g.productiveRules = g.rules := by
    refine List.filter_eq_self.mpr fun s hs => ?_
    simp only [Bool.and_eq_true, List.all_eq_true, List.contains_iff_mem, h.mem_productive_iff hg]
    refine ⟨hg.left_declared s hs, fun B hB => ?_⟩
    exact declares_nonterminal.mp (hg.right_declared s hs _ (Rule.mem_rightNonterminals_iff.mp hB))
  show g.restrict g.productive g.productiveRules = _
  rw [hproductive]
  exact restrict_eq_self hg fun A => h.mem_productive_iff hg

theorem AllUseful.onlyAccessible_eq (h : g.AllUseful) (hg : g.Valid) : g.onlyAccessible = .ok g := by
  have haccessible : g.accessibleRules = g.rules := by
    refine List.filter_eq_self.mpr fun s hs => ?_
    simpa using (h.mem_accessible_iff hg).mpr (hg.left_declared s hs)
  show g.restrict g.accessible g.accessibleRules = _
  rw [haccessible]
  exact restrict_eq_self hg fun A => h.mem_accessible_iff hg

theorem AllUseful.onlyUseful_eq (h : g.AllUseful) (hg : g.Valid) : g.onlyUseful = .ok g := by
  rw [onlyUseful, h.onlyProductive_eq hg]
  exact h.onlyAccessible_eq hg

theorem mintCount_of_normal (h : ∀ s ∈ g.rules, Binarization.Normal g.start s) : g.mintCount = 0 := by
  have hcounter := counter_binarization (g := g) (a := .standard)
  rw [binarization, Binarization.addRules_of_normal h] at hcounter
  exact Nat.left_eq_add.mp hcounter

theorem introduced_of_normal (h : ∀ s ∈ g.rules, Binarization.Normal g.start s) :
    g.introduced a = [] := by
  rw [introduced, mintCount_of_normal h, Allocator.mintedSince_after]
  rfl

theorem binarizedWith_of_normal (h : ∀ s ∈ g.rules, Binarization.Normal g.start s) :
    g.binarizedWith a = g := by
  rw [binarizedWith, introduced_of_normal h, List.append_nil, binarization,
    Binarization.addRules_of_normal h, List.nil_append]

/-! ## The empty word -/

/-- Only the start symbol can derive the empty word. -/
theorem EmptyAtStart.start_of_nil_mem (h : g.EmptyAtStart b) {A : Nonterminal}
    (hA : [] ∈ words g.rules A) : b ∧ A = g.start := by
  refine words_le (I := fun A => {w | w = [] → b ∧ A = g.start}) (fun s hs w hw hnil => ?_) A hA rfl
  subst hnil
  by_cases hright : s.right = []
  · obtain ⟨hb, heq⟩ := h.eq_of_isEpsilon hs (Rule.isEpsilon_iff.mpr hright)
    exact ⟨hb, congrArg Rule.left heq⟩
  · obtain ⟨X, hX⟩ := List.exists_mem_of_ne_nil _ hright
    have hempty := Reading.nil_mem_form.mp hw X hX
    cases X with
    | terminal c => cases hempty
    | nonterminal B =>
      obtain ⟨hb, rfl⟩ := hempty rfl
      exact absurd hX (h.start_notMem hb s hs)

theorem EmptyAtStart.not_derivesEmpty (h : g.EmptyAtStart b) {s : Rule} (hs : s ∈ g.rules)
    {X : Symbol} (hX : X ∈ s.right) : ¬g.DerivesEmpty X := by
  intro hempty
  obtain ⟨A, rfl, hA⟩ := hempty
  obtain ⟨hb, rfl⟩ := h.start_of_nil_mem hA
  exact h.start_notMem hb s hs hX

theorem EmptyAtStart.notMem_nullable (h : g.EmptyAtStart b) {s : Rule} (hs : s ∈ g.rules)
    {X : Symbol} (hX : X ∈ s.right) : X ∉ g.nullable := by
  rw [mem_nullable_iff, mem_symbol_words_iff]
  exact h.not_derivesEmpty hs hX

/-! ## Settled grammars -/

/-- Nothing is left to do with this configuration, and nothing is wrong. -/
structure Settled (g : Grammar) (config : Config) : Prop where
  valid : g.Valid
  limit : ¬g.ExceedsLimit config.epsilon
  kept : ¬(config.allowEmpty = false ∧ g.KeepsNoWord config.epsilon)
  emptyAtStart : g.EmptyAtStart (config.epsilon.augmentStart = true ∧ [] ∈ g.language)
  epsilonFirst : EpsilonFirst g.rules
  normal : ∀ s ∈ g.rules, Binarization.Normal g.start s
  nodup : config.deduplicate = true → g.rules.Nodup
  useful : g.AllUseful

theorem isUnary_of_normal {start : Nonterminal} {s : Rule} (h : Binarization.Normal start s) :
    s.isUnary = false := by
  obtain ⟨_, right⟩ := s
  rcases right with _ | ⟨⟨⟩ | ⟨⟩, _ | ⟨_, _⟩⟩ <;>
    simp_all [Binarization.Normal, Rule.isLexical, Rule.isBinary, Rule.isEpsilon, Rule.isUnary]

namespace Settled

variable (h : g.Settled config)

include h

theorem not_unary {s : Rule} (hs : s ∈ g.rules) : s.isUnary = false :=
  isUnary_of_normal (h.normal s hs)

/-- What is put in front is the epsilon rule that was taken away. -/
theorem expandedWith_eq {new : Augmentation} (hnew : g.Augments config.epsilon new) :
    g.expandedWith new = g ∧ new.nonterminals = [] := by
  have hexpanded : g.expandedRules g.nullable = g.rules.filter fun s => !s.isEpsilon :=
    expandedRules_eq_filter fun s hs X hX => h.emptyAtStart.notMem_nullable hs hX
  have hrules : g.rules.filter Rule.isEpsilon ++ g.expandedRules g.nullable = g.rules := by
    rw [hexpanded]
    exact h.epsilonFirst.filter_append fun s => h.not_unary
  cases hnew with
  | lost hlost =>
    rw [h.emptyAtStart.none fun hb => hlost hb.1 hb.2] at hrules
    rw [expandedWith, hrules]
    exact ⟨rfl, rfl⟩
  | kept haug hnil =>
    rw [h.emptyAtStart.one ⟨haug, hnil⟩] at hrules
    rw [expandedWith, hrules]
    exact ⟨rfl, rfl⟩
  | renewed haug hnil hrecurs =>
    obtain ⟨s, hs, hstart⟩ := hrecurs
    exact absurd hstart (h.emptyAtStart.start_notMem ⟨haug, hnil⟩ s hs)

theorem trimmed_eq : g.trimmed config.deduplicate = .ok g := by
  have hunary := withoutUnary_eq_self h.valid fun s => h.not_unary
  rw [trimmed, uniqueIf_eq h.valid h.nodup]
  show (g.withoutUnary >>= _) = _
  rw [hunary]
  exact h.useful.onlyUseful_eq h.valid

theorem not_startNameTaken : ¬g.StartNameTaken config.epsilon := by
  intro htaken
  obtain ⟨haug, hnil, ⟨s, hs, hstart⟩, _⟩ := htaken
  exact h.emptyAtStart.start_notMem ⟨haug, hnil⟩ s hs hstart

theorem reduced_eq {hstem : config.stem ≠ ""} :
    g.reduced config (.initial config.stem hstem) = .ok g := by
  rcases reduced_cases h.valid config (.initial config.stem hstem) with
    ⟨failure, hover, _⟩ | ⟨_, ⟨htaken, _⟩ | ⟨_, new, p, hnew, _, htrimmed, heq, _⟩⟩
  · exact absurd (exceedsLimit_iff.mp (by simp [hover])) h.limit
  · exact absurd (startTaken_initial_iff.mp htaken) h.not_startNameTaken
  · rw [(h.expandedWith_eq hnew).1, h.trimmed_eq] at htrimmed
    rw [heq, htrimmed]

/-- Normalization answers what it is given, and introduces nothing. -/
theorem normalize_eq (hstem : config.stem ≠ "") :
    (g.normalize config).result = .ok g ∧ (g.normalize config).introduced = [] := by
  have hcases := normalization h.valid hstem
  generalize hresult : (g.normalize config).result = result at hcases
  cases hcases with
  | overLimit hover => exact absurd hover h.limit
  | startTaken _ htaken => exact absurd htaken h.not_startNameTaken
  | emptyLanguage _ _ hno hallow => exact absurd ⟨hallow, hno⟩ h.kept
  | stemTaken _ _ _ hp htaken =>
    obtain rfl := Except.ok.inj (hp.symm.trans h.reduced_eq)
    obtain ⟨i, hi, hn, _⟩ := htaken
    rw [mintCount_of_normal h.normal] at hn
    omega
  | done _ _ _ _ _ _ =>
    obtain ⟨_, new, p, hstages⟩ := stages_of_ok hresult
    obtain rfl := Except.ok.inj (hstages.reduced.symm.trans h.reduced_eq)
    have hfinished := hstages.finished
    rw [binarizedWith_of_normal h.normal, uniqueIf_eq h.valid h.nodup] at hfinished
    rw [hstages.introduced, introduced_of_normal h.normal, (h.expandedWith_eq hstages.augments).2]
    exact ⟨hfinished.symm, rfl⟩

end Settled

end Grammar

end Chomsky

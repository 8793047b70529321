import Chomsky.Proofs.Accessibility
import Chomsky.Proofs.Stages

/-!
# Rules in another order

Two grammars that differ in the order of their rules only (`Reorders`) derive the same, so all that is
defined by what a grammar derives is the same for both. Each phase before binarization leaves two such
grammars again: which rules it keeps or adds does not depend on the order, only where they stand does.
-/

namespace Chomsky

theorem expansions_congr {α : Type} [BEq α] [LawfulBEq α] {nullable nullable' right : List α}
    (h : ∀ X, X ∈ nullable ↔ X ∈ nullable') :
    expansions nullable right = expansions nullable' right := by
  have hcontains : nullable.contains = nullable'.contains := by
    funext X
    rw [Bool.eq_iff_iff, List.contains_iff_mem, List.contains_iff_mem]
    exact h X
  rw [expansions, expansions, nullablePositions, nullablePositions, hcontains]

namespace Grammar

/-- The second grammar is the first one with its rules in another order. -/
structure Reorders (g g' : Grammar) : Prop where
  start_eq : g'.start = g.start
  nonterminals_eq : g'.nonterminals = g.nonterminals
  terminals_eq : g'.terminals = g.terminals
  rules_perm : g.rules.Perm g'.rules

variable {g g' r r' p p' : Grammar} {options : EpsilonOptions} {new new' : Augmentation}
  {config : Config} {a : Allocator}

/-- The augmentation is settled by the grammar. -/
theorem Augments.unique (hnew : g.Augments options new)
    (hnew' : g.Augments options new') : new = new' := by
  cases hnew with
  | lost hlost =>
    cases hnew' with
    | lost => rfl
    | kept haug hnil | renewed haug hnil => exact absurd hnil (hlost haug)
  | kept haug hnil hrecurs =>
    cases hnew' with
    | lost hlost => exact absurd hnil (hlost haug)
    | kept => rfl
    | renewed _ _ hrecurs' => exact absurd hrecurs' hrecurs
  | renewed haug hnil hrecurs =>
    cases hnew' with
    | lost hlost => exact absurd hnil (hlost haug)
    | kept _ _ hrecurs' => exact absurd hrecurs hrecurs'
    | renewed => rfl

namespace Reorders

theorem symm (h : g.Reorders g') : g'.Reorders g :=
  ⟨h.start_eq.symm, h.nonterminals_eq.symm, h.terminals_eq.symm, h.rules_perm.symm⟩

variable (h : g.Reorders g')

include h

/-! ## What does not depend on the order -/

theorem mem_iff {s : Rule} : s ∈ g.rules ↔ s ∈ g'.rules := h.rules_perm.mem_iff

theorem isEmpty_eq : g'.isEmpty = g.isEmpty := by
  have hrules : g'.rules = [] ↔ g.rules = [] := by
    rw [← List.length_eq_zero_iff, ← List.length_eq_zero_iff, h.rules_perm.length_eq]
  rw [Bool.eq_iff_iff, isEmpty_iff, isEmpty_iff, h.nonterminals_eq, hrules]

theorem symbolNames_eq : g'.symbolNames = g.symbolNames := by
  rw [symbolNames, symbolNames, h.nonterminals_eq, h.terminals_eq]

theorem declares_eq (X : Symbol) : g'.declares X = g.declares X := by
  cases X with
  | nonterminal A => rw [declares, declares, h.nonterminals_eq]
  | terminal c => rw [declares, declares, h.terminals_eq]

theorem valid (hg : g.Valid) : g'.Valid where
  nonterminals_nodup := h.nonterminals_eq ▸ hg.nonterminals_nodup
  terminals_nodup := h.terminals_eq ▸ hg.terminals_nodup
  names_disjoint := by
    rw [h.nonterminals_eq, h.terminals_eq]
    exact hg.names_disjoint
  start_declared := by
    rw [h.isEmpty_eq, h.start_eq, h.nonterminals_eq]
    exact hg.start_declared
  left_declared s hs := by
    rw [h.nonterminals_eq]
    exact hg.left_declared s (h.mem_iff.mpr hs)
  right_declared s hs X hX := by
    rw [h.declares_eq]
    exact hg.right_declared s (h.mem_iff.mpr hs) X hX

theorem words_eq : words g'.rules = words g.rules := words_congr fun _ => h.mem_iff.symm

theorem language_eq : g'.language = g.language := by rw [language, language, h.words_eq, h.start_eq]

theorem mem_nullable_iff {X : Symbol} : X ∈ g.nullable ↔ X ∈ g'.nullable := by
  rw [Grammar.mem_nullable_iff, Grammar.mem_nullable_iff, h.words_eq]

theorem mem_productive_iff {A : Nonterminal} : A ∈ g.productive ↔ A ∈ g'.productive := by
  rw [Grammar.mem_productive_iff, Grammar.mem_productive_iff, h.words_eq]

theorem leads {A B : Nonterminal} (hlead : Leads g.rules A B) : Leads g'.rules A B :=
  hlead.mono fun _ => h.mem_iff.mp

theorem mem_accessible_iff {A : Nonterminal} : A ∈ g.accessible ↔ A ∈ g'.accessible := by
  cases he : g.isEmpty with
  | true => rw [accessible_of_isEmpty he, accessible_of_isEmpty (h.isEmpty_eq.trans he)]
  | false =>
    rw [Grammar.mem_accessible_iff he, Grammar.mem_accessible_iff (h.isEmpty_eq.trans he), h.start_eq]
    exact ⟨h.leads, h.symm.leads⟩

theorem unaryReach_eq : UnaryReach g'.rules = UnaryReach g.rules := by
  have hstep : UnaryStep g'.rules = UnaryStep g.rules :=
    funext₂ fun _ _ => propext h.mem_iff.symm
  rw [UnaryReach, UnaryReach, hstep]

theorem startRecurs_iff : g'.StartRecurs ↔ g.StartRecurs := by
  simp only [StartRecurs, h.start_eq, h.mem_iff]

/-! ## The phases -/

theorem expandedRules_perm : (g.expandedRules g.nullable).Perm (g'.expandedRules g'.nullable) := by
  refine (h.rules_perm.filter _).flatMap fun s _ => ?_
  rw [Rule.expansions, Rule.expansions, expansions_congr fun _ => h.mem_nullable_iff]

theorem expandedWith (new : Augmentation) : (g.expandedWith new).Reorders (g'.expandedWith new) where
  start_eq := rfl
  nonterminals_eq := congrArg (new.nonterminals ++ ·) h.nonterminals_eq
  terminals_eq := h.terminals_eq
  rules_perm := h.expandedRules_perm.append_left new.rules

theorem augments (hnew : g.Augments options new) : g'.Augments options new := by
  cases hnew with
  | lost hlost =>
    rw [← h.start_eq]
    exact .lost fun haug => h.language_eq ▸ hlost haug
  | kept haug hnil hrecurs =>
    rw [← h.language_eq] at hnil
    rw [← h.startRecurs_iff] at hrecurs
    rw [← h.start_eq]
    exact .kept haug hnil hrecurs
  | renewed haug hnil hrecurs hfresh =>
    have hstart : g'.freshStart = g.freshStart := by rw [freshStart, freshStart, h.start_eq]
    rw [← h.language_eq] at hnil
    rw [← h.startRecurs_iff] at hrecurs
    rw [← hstart, ← h.symbolNames_eq] at hfresh
    rw [← hstart, ← h.start_eq]
    exact .renewed haug hnil hrecurs hfresh

theorem uniqueIf {wanted : Bool} (hr : g.uniqueIf wanted = .ok r)
    (hr' : g'.uniqueIf wanted = .ok r') : r.Reorders r' := by
  rw [eq_of_uniqueIf hr, eq_of_uniqueIf hr']
  refine ⟨h.start_eq, h.nonterminals_eq, h.terminals_eq, ?_⟩
  cases wanted with
  | false => exact h.rules_perm
  | true => exact eraseDups_perm h.rules_perm

theorem isolatedTerminals_perm : g.isolatedTerminals.Perm g'.isolatedTerminals :=
  eraseDups_perm ((h.rules_perm.filter _).flatMap fun _ _ => .refl _)

theorem properRules_perm : g.properRules.Perm g'.properRules := h.rules_perm.filter _

theorem unaryCopies {copies copies' : List Rule} (hcopies : g.UnaryCopies copies)
    (hcopies' : g'.UnaryCopies copies') :
    ({ g with rules := g.properRules ++ copies } : Grammar).Reorders
      { g' with rules := g'.properRules ++ copies' } where
  start_eq := h.start_eq
  nonterminals_eq := h.nonterminals_eq
  terminals_eq := h.terminals_eq
  rules_perm := by
    have hall : ∀ s, s ∈ g.properRules ++ copies ↔ s ∈ g'.properRules ++ copies' := by
      intro s
      rw [hcopies.mem_iff, hcopies'.mem_iff, h.unaryReach_eq]
      simp only [h.mem_iff]
    have hcopy : ∀ {q : Grammar} {l : List Rule}, q.UnaryCopies l →
        ∀ s, s ∈ l ↔ s ∈ q.properRules ++ l ∧ s ∉ q.properRules := fun hl s =>
      ⟨fun hs => ⟨List.mem_append_right _ hs, hl.notMem s hs⟩,
        fun hs => (List.mem_append.mp hs.1).resolve_left hs.2⟩
    have hperm : copies.Perm copies' := by
      refine (List.perm_ext_iff_of_nodup hcopies.nodup hcopies'.nodup).mpr fun s => ?_
      rw [hcopy hcopies, hcopy hcopies', hall, h.properRules_perm.mem_iff]
    exact h.properRules_perm.append hperm

theorem restrict {kept kept' : List Nonterminal} {rules rules' : List Rule}
    (hkept : ∀ A, A ∈ kept ↔ A ∈ kept') (hrules : rules.Perm rules')
    (hr : g.restrict kept rules = .ok r) (hr' : g'.restrict kept' rules' = .ok r') :
    r.Reorders r' := by
  have hfilter : g'.nonterminals.filter kept'.contains = g.nonterminals.filter kept.contains := by
    rw [h.nonterminals_eq]
    exact List.filter_congr fun A _ => by simp [hkept]
  rw [eq_of_restrict hr, eq_of_restrict hr', hfilter, h.start_eq]
  by_cases hstart : g.start ∈ kept
  · rw [if_pos hstart, if_pos ((hkept _).mp hstart)]
    exact ⟨rfl, rfl, h.terminals_eq, hrules⟩
  · rw [if_neg hstart, if_neg fun h => hstart ((hkept _).mpr h)]
    exact ⟨rfl, rfl, h.terminals_eq, .refl _⟩

theorem onlyProductive (hr : g.onlyProductive = .ok r) (hr' : g'.onlyProductive = .ok r') :
    r.Reorders r' := by
  refine h.restrict (fun A => h.mem_productive_iff) ?_ hr hr'
  have hrules := h.rules_perm.filter fun s =>
    g.productive.contains s.left && s.rightNonterminals.all g.productive.contains
  refine hrules.trans (.of_eq (List.filter_congr fun s _ => ?_))
  rw [Bool.eq_iff_iff]
  simp [h.mem_productive_iff]

theorem onlyAccessible (hr : g.onlyAccessible = .ok r) (hr' : g'.onlyAccessible = .ok r') :
    r.Reorders r' := by
  refine h.restrict (fun A => h.mem_accessible_iff) ?_ hr hr'
  have hrules := h.rules_perm.filter fun s => g.accessible.contains s.left
  refine hrules.trans (.of_eq (List.filter_congr fun s _ => ?_))
  rw [Bool.eq_iff_iff]
  simp [h.mem_accessible_iff]

theorem onlyUseful (hg : g.Valid) (hr : g.onlyUseful = .ok r) (hr' : g'.onlyUseful = .ok r') :
    r.Reorders r' := by
  obtain ⟨q, hq, _, _⟩ := onlyProductive_prunes hg
  obtain ⟨q', hq', _, _⟩ := onlyProductive_prunes (h.valid hg)
  rw [Grammar.onlyUseful, hq] at hr
  rw [Grammar.onlyUseful, hq'] at hr'
  exact (h.onlyProductive hq hq').onlyAccessible hr hr'

theorem trimmed (hg : g.Valid) {wanted : Bool} (hp : g.trimmed wanted = .ok p)
    (hp' : g'.trimmed wanted = .ok p') : p.Reorders p' := by
  obtain ⟨u, copies, htrims⟩ := Trims.of_trimmed hg hp
  obtain ⟨u', copies', htrims'⟩ := Trims.of_trimmed (h.valid hg) hp'
  have hu : u.Reorders u' := h.uniqueIf htrims.unique htrims'.unique
  have hvalid := htrims.unary.valid htrims.prunes_unique.valid
  exact (hu.unaryCopies htrims.unary htrims'.unary).onlyUseful hvalid htrims.useful htrims'.useful

theorem mintCount_eq : g'.mintCount = g.mintCount := by
  have hisolated := h.isolatedTerminals_perm.length_eq
  have hsurplus : g.surplus = g'.surplus := (h.rules_perm.map _).sum_eq
  rw [mintCount, mintCount, hisolated, hsurplus]

/-! ## The conditions -/

theorem exceedsLimit_iff : g'.ExceedsLimit options ↔ g.ExceedsLimit options := by
  have hderives : g'.DerivesEmpty = g.DerivesEmpty := by
    funext X
    rw [DerivesEmpty, DerivesEmpty, h.words_eq]
  have hempty : g'.emptyPositions = g.emptyPositions := by
    funext right
    rw [emptyPositions, emptyPositions, hderives]
  simp only [ExceedsLimit, hempty, h.mem_iff]

theorem startNameTaken_iff : g'.StartNameTaken options ↔ g.StartNameTaken options := by
  rw [StartNameTaken, StartNameTaken, h.language_eq, h.startRecurs_iff, h.start_eq, h.symbolNames_eq]

theorem keepsNoWord_iff : g'.KeepsNoWord options ↔ g.KeepsNoWord options := by
  rw [KeepsNoWord, KeepsNoWord, h.language_eq]

theorem stemTaken_iff {stem : String} : g'.StemTaken stem ↔ g.StemTaken stem := by
  rw [StemTaken, StemTaken, h.mintCount_eq, h.symbolNames_eq]

/-- What is left for binarization differs in the order of its rules only. -/
theorem reduced (hg : g.Valid) (hp : g.reduced config a = .ok p)
    (hp' : g'.reduced config a = .ok p') : p.Reorders p' := by
  obtain ⟨new, hnew, _, htrimmed, _⟩ := reduced_eq_ok hg hp
  obtain ⟨new', hnew', _, htrimmed', _⟩ := reduced_eq_ok (h.valid hg) hp'
  obtain rfl := (h.augments hnew).unique hnew'
  exact (h.expandedWith new).trimmed (hnew.valid hg) htrimmed htrimmed'

end Reorders

end Grammar

end Chomsky

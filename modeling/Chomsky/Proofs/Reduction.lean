import Chomsky.NormalForm
import Chomsky.Proofs.BinarizedGrammar
import Chomsky.Proofs.EpsilonRules
import Chomsky.Proofs.UnaryRules
import Chomsky.Proofs.UsefulSymbols

/-!
# The phases before binarization

Between the removal of epsilon rules and the result of normalization there is an epsilon rule just if
the empty word has to stay, and it belongs to a start symbol on no right side (`EmptyAtStart`). Every
phase keeps this, so every rule that reaches binarization is accepted there. `reduced_cases` says what
the phases before binarization can do and what they leave (`Reduces`).
-/

namespace Chomsky

namespace Grammar

variable {g r : Grammar} {b : Prop} {w : Word}

/-- There is one epsilon rule if `b` holds, for a start symbol on no right side, and else none. -/
structure EmptyAtStart (g : Grammar) (b : Prop) : Prop where
  none : ¬b → g.rules.filter Rule.isEpsilon = []
  one : b → g.rules.filter Rule.isEpsilon = [⟨g.start, []⟩]
  start_notMem : b → ∀ s ∈ g.rules, .nonterminal g.start ∉ s.right

theorem EmptyAtStart.eq_of_isEpsilon (h : g.EmptyAtStart b) {s : Rule} (hs : s ∈ g.rules)
    (hepsilon : s.isEpsilon = true) : b ∧ s = ⟨g.start, []⟩ := by
  have hmem : s ∈ g.rules.filter Rule.isEpsilon := List.mem_filter.mpr ⟨hs, hepsilon⟩
  by_cases hb : b
  · rw [h.one hb] at hmem
    exact ⟨hb, List.mem_singleton.mp hmem⟩
  · rw [h.none hb] at hmem
    exact absurd hmem List.not_mem_nil

theorem EmptyAtStart.countP_eq [Decidable b] (h : g.EmptyAtStart b) :
    g.rules.countP Rule.isEpsilon = if b then 1 else 0 := by
  rw [List.countP_eq_length_filter]
  split
  · next hb => rw [h.one hb]; rfl
  · next hb => rw [h.none hb]; rfl

/-! ## What the phases do to epsilon rules -/

theorem filter_isEpsilon_expandedRules :
    (g.expandedRules g.nullable).filter Rule.isEpsilon = [] := by
  rw [List.filter_eq_nil_iff]
  intro s hs hepsilon
  exact (mem_expandedRules_iff.mp hs).1 (Rule.isEpsilon_iff.mp hepsilon)

theorem Augments.emptyAtStart (hg : g.Valid) {options : EpsilonOptions} {new : Augmentation}
    (h : g.Augments options new) :
    (g.expandedWith new).EmptyAtStart (options.augmentStart = true ∧ [] ∈ g.language) where
  none hb := by
    rw [expandedWith, List.filter_append, filter_isEpsilon_expandedRules]
    cases h with
    | lost => rfl
    | kept haug hnil => exact absurd ⟨haug, hnil⟩ hb
    | renewed haug hnil => exact absurd ⟨haug, hnil⟩ hb
  one hb := by
    rw [expandedWith, List.filter_append, filter_isEpsilon_expandedRules]
    cases h with
    | lost hlost => exact absurd hb.2 (hlost hb.1)
    | kept => rfl
    | renewed => rfl
  start_notMem hb _ hs := h.start_notMem_right hg hb hs

theorem Prunes.emptyAtStart (h : g.Prunes r) (hempty : g.EmptyAtStart b) : r.EmptyAtStart b where
  none hb := by
    have hsub := h.rules_sublist.filter Rule.isEpsilon
    rw [hempty.none hb] at hsub
    exact List.sublist_nil.mp hsub
  one hb := by
    have hsub := h.rules_sublist.filter Rule.isEpsilon
    rw [hempty.one hb] at hsub
    have hmem : ⟨g.start, []⟩ ∈ g.rules.filter Rule.isEpsilon := by
      rw [hempty.one hb]
      exact List.mem_cons_self
    have hstays : ⟨g.start, []⟩ ∈ r.rules.filter Rule.isEpsilon :=
      List.mem_filter.mpr ⟨h.epsilon_mem (List.mem_filter.mp hmem).1, rfl⟩
    rw [h.start_eq]
    exact hsub.eq_of_length_le (List.length_pos_of_mem hstays)
  start_notMem hb s hs := by
    rw [h.start_eq]
    exact hempty.start_notMem hb s (h.rules_sublist.subset hs)

theorem filter_isEpsilon_properRules :
    g.properRules.filter Rule.isEpsilon = g.rules.filter Rule.isEpsilon := by
  rw [properRules, List.filter_filter]
  refine List.filter_congr fun s _ => ?_
  obtain ⟨_, right⟩ := s
  rcases right with _ | ⟨_, _⟩ <;> simp [Rule.isEpsilon, Rule.isUnary]

/-- A copy of the epsilon rule would belong to a nonterminal from which unary rules lead to the start
symbol, but that is on no right side. -/
theorem UnaryCopies.filter_isEpsilon {copies : List Rule} (h : g.UnaryCopies copies)
    (hempty : g.EmptyAtStart b) : copies.filter Rule.isEpsilon = [] := by
  rw [List.filter_eq_nil_iff]
  intro s hs hepsilon
  obtain ⟨hproper, B, hreach, hB⟩ := (h.mem_iff s).mp (List.mem_append_right _ hs)
  have hright : s.right = [] := Rule.isEpsilon_iff.mp hepsilon
  have hepsilonB : (⟨B, s.right⟩ : Rule).isEpsilon = true := by rw [hright]; rfl
  obtain ⟨hb, heq⟩ := hempty.eq_of_isEpsilon hB hepsilonB
  obtain rfl : B = g.start := congrArg Rule.left heq
  rcases hreach.cases_tail with hself | ⟨C, _, hstep⟩
  · rw [hself] at hB
    exact h.notMem s hs (mem_properRules_iff.mpr ⟨hB, hproper⟩)
  · exact hempty.start_notMem hb _ hstep List.mem_cons_self

theorem UnaryCopies.emptyAtStart {copies : List Rule} (h : g.UnaryCopies copies)
    (hempty : g.EmptyAtStart b) :
    ({ g with rules := g.properRules ++ copies } : Grammar).EmptyAtStart b := by
  have hfilter : (g.properRules ++ copies).filter Rule.isEpsilon =
      g.rules.filter Rule.isEpsilon := by
    rw [List.filter_append, h.filter_isEpsilon hempty, filter_isEpsilon_properRules,
      List.append_nil]
  refine ⟨fun hb => hfilter.trans (hempty.none hb), fun hb => hfilter.trans (hempty.one hb),
    fun hb s hs => ?_⟩
  obtain ⟨_, B, _, hB⟩ := (h.mem_iff s).mp hs
  exact hempty.start_notMem hb ⟨B, s.right⟩ hB

theorem Binarizes.emptyAtStart (hg : g.Valid) {minted : List Nonterminal}
    (h : g.Binarizes minted r) (hempty : g.EmptyAtStart b) : r.EmptyAtStart b where
  none hb := h.epsilon_eq.trans (hempty.none hb)
  one hb := by
    rw [h.epsilon_eq, h.start_eq]
    exact hempty.one hb
  start_notMem hb s hs hright := by
    have hrule : ⟨g.start, []⟩ ∈ g.rules.filter Rule.isEpsilon := by
      rw [hempty.one hb]
      exact List.mem_cons_self
    have hstart : g.start ∈ g.nonterminals :=
      hg.left_declared _ (List.mem_filter.mp hrule).1
    rw [h.start_eq] at hright
    obtain ⟨s', hs', hright'⟩ := h.right_old g.start hstart s hs hright
    exact hempty.start_notMem hb s' hs' hright'

/-! ## Repeated rules -/

/-- Repetitions are dropped if that is wanted. -/
def uniqueIf (g : Grammar) (wanted : Bool) : Except Failure Grammar :=
  if wanted then g.withoutDuplicates else .ok g

theorem Valid.prunes_eraseDups (hg : g.Valid) :
    g.Prunes { g with rules := g.rules.eraseDups } where
  valid := hg.eraseDups
  start_eq := rfl
  terminals_eq := rfl
  nonterminals_sublist := .refl _
  rules_sublist := eraseDups_sublist _
  language_eq := congrFun (words_congr fun _ => List.mem_eraseDups) g.start
  epsilon_mem hr := List.mem_eraseDups.mpr hr

theorem Valid.prunes_self (hg : g.Valid) : g.Prunes g :=
  ⟨hg, rfl, rfl, .refl _, .refl _, rfl, id⟩

theorem uniqueIf_prunes (hg : g.Valid) (wanted : Bool) :
    ∃ r, g.uniqueIf wanted = .ok r ∧ g.Prunes r := by
  cases wanted with
  | false => exact ⟨g, rfl, hg.prunes_self⟩
  | true => exact ⟨_, withoutDuplicates_eq hg, hg.prunes_eraseDups⟩

theorem eq_of_uniqueIf {wanted : Bool} (h : g.uniqueIf wanted = .ok r) :
    r = { g with rules := if wanted then g.rules.eraseDups else g.rules } := by
  cases wanted with
  | false => exact (Except.ok.inj h).symm
  | true => exact (checked_eq_ok_iff.mp h).2

theorem uniqueIf_sublist {wanted : Bool} (h : g.uniqueIf wanted = .ok r) :
    r.rules.Sublist g.rules := by
  rw [eq_of_uniqueIf h]
  cases wanted with
  | false => exact .refl _
  | true => exact eraseDups_sublist _

theorem mem_of_uniqueIf {wanted : Bool} (h : g.uniqueIf wanted = .ok r) {s : Rule} :
    s ∈ r.rules ↔ s ∈ g.rules := by
  rw [eq_of_uniqueIf h]
  cases wanted with
  | false => exact Iff.rfl
  | true => exact List.mem_eraseDups

/-! ## The phases together -/

/-- The grammar that is left after the phases before binarization. -/
def reduced (g : Grammar) (config : Config) (a : Allocator) : Except Failure Grammar := do
  let p ← (g.withoutEpsilon g.nullable config.epsilon a).2
  let p ← p.uniqueIf config.deduplicate
  let p ← p.withoutUnary
  p.onlyUseful

/-- What is left can be binarized, and generates all words that normalization has to keep. -/
structure Reduces (g : Grammar) (options : EpsilonOptions) (p : Grammar) : Prop where
  valid : p.Valid
  terminals_eq : p.terminals = g.terminals
  mem_language_iff : ∀ w, w ∈ p.language ↔ w ∈ g.language ∧ (options.augmentStart = true ∨ w ≠ [])
  emptyAtStart : p.EmptyAtStart (options.augmentStart = true ∧ [] ∈ g.language)
  accepted : ∀ s ∈ p.rules, Binarization.accepts p.start s = true
  isEmpty_iff : p.isEmpty = true ↔ ∀ w, w ∉ p.language

/-- Without unary rules, and with an epsilon rule at most for the start symbol, every rule can be
binarized. -/
theorem EmptyAtStart.accepted (h : g.EmptyAtStart b)
    (hunary : ∀ s ∈ g.rules, s.isUnary = false) {s : Rule} (hs : s ∈ g.rules) :
    Binarization.accepts g.start s = true := by
  refine Binarization.accepts_of_form (hunary s hs) fun hright => ?_
  obtain ⟨_, rfl⟩ := h.eq_of_isEpsilon hs (Rule.isEpsilon_iff.mpr hright)
  rfl

/-- The phases between the removal of epsilon rules and binarization. -/
def trimmed (g : Grammar) (wanted : Bool) : Except Failure Grammar := do
  let p ← g.uniqueIf wanted
  let p ← p.withoutUnary
  p.onlyUseful

/-- The grammars that these phases go through: `u` without repetitions, if they are not wanted, then
the copies in place of the unary rules of `u`, and last `p`, the useful part of that. -/
structure Trims (g : Grammar) (wanted : Bool) (u : Grammar) (copies : List Rule) (p : Grammar) :
    Prop where
  unique : g.uniqueIf wanted = .ok u
  prunes_unique : g.Prunes u
  unary : u.UnaryCopies copies
  withoutUnary : u.withoutUnary = .ok { u with rules := u.properRules ++ copies }
  useful : ({ u with rules := u.properRules ++ copies } : Grammar).onlyUseful = .ok p
  prunes_useful : ({ u with rules := u.properRules ++ copies } : Grammar).Prunes p
  isEmpty_iff : p.isEmpty = true ↔ ∀ w, w ∉ p.language

/-- None of these phases fails on a valid grammar. -/
theorem exists_trims (hg : g.Valid) (wanted : Bool) :
    ∃ u copies p, g.Trims wanted u copies p ∧ g.trimmed wanted = .ok p := by
  obtain ⟨u, hunique, hprunes⟩ := uniqueIf_prunes hg wanted
  obtain ⟨copies, hcopies, hunary⟩ := withoutUnary_eq hprunes.valid
  obtain ⟨p, huseful, hprunes', hisEmpty⟩ := onlyUseful_prunes (hcopies.valid hprunes.valid)
  have hempty : p.isEmpty = true ↔ ∀ w, w ∉ p.language := by rw [hisEmpty, hprunes'.language_eq]
  refine ⟨u, copies, p, ⟨hunique, hprunes, hcopies, hunary, huseful, hprunes', hempty⟩, ?_⟩
  rw [trimmed, hunique]
  show (u.withoutUnary >>= _) = _
  rw [hunary]
  exact huseful

theorem Trims.of_trimmed (hg : g.Valid) {wanted : Bool} {p : Grammar}
    (h : g.trimmed wanted = .ok p) : ∃ u copies, g.Trims wanted u copies p := by
  obtain ⟨u, copies, p', htrims, hp'⟩ := exists_trims hg wanted
  obtain rfl : p' = p := Except.ok.inj (hp'.symm.trans h)
  exact ⟨u, copies, htrims⟩

/-- On what the removal of epsilon rules leaves, the other phases do not fail. -/
theorem Augments.reduces (hg : g.Valid) {options : EpsilonOptions} {new : Augmentation}
    (h : g.Augments options new) (wanted : Bool) :
    ∃ p, (g.expandedWith new).trimmed wanted = .ok p ∧ g.Reduces options p ∧ p.start = new.start := by
  obtain ⟨u, copies, p, htrims, hp⟩ := exists_trims (h.valid hg) wanted
  have hempty := htrims.prunes_useful.emptyAtStart (htrims.unary.emptyAtStart
    (htrims.prunes_unique.emptyAtStart (h.emptyAtStart hg)))
  have hunary : ∀ s ∈ p.rules, s.isUnary = false := fun s hs =>
    ((htrims.unary.mem_iff s).mp (htrims.prunes_useful.rules_sublist.subset hs)).1
  have hlang : p.language = (g.expandedWith new).language := by
    rw [htrims.prunes_useful.language_eq, ← htrims.prunes_unique.language_eq]
    exact congrFun htrims.unary.words_eq u.start
  refine ⟨p, hp, ⟨htrims.prunes_useful.valid, ?_, fun w => ?_, hempty,
    fun s hs => hempty.accepted hunary hs, htrims.isEmpty_iff⟩, ?_⟩
  · exact htrims.prunes_useful.terminals_eq.trans htrims.prunes_unique.terminals_eq
  · rw [hlang]
    exact h.language_eq hg
  · exact htrims.prunes_useful.start_eq.trans htrims.prunes_unique.start_eq

/-- All that the phases before binarization can do on a valid grammar. -/
theorem reduced_cases (hg : g.Valid) (config : Config) (a : Allocator) :
    (∃ failure, g.overLimit? g.nullable config.epsilon.maxNullablePositions = some failure ∧
      g.reduced config a = .error failure) ∨
    g.overLimit? g.nullable config.epsilon.maxNullablePositions = none ∧
      (g.StartTaken config.epsilon a ∧
        g.reduced config a = .error (.nameTaken g.freshStart.name) ∨
      ¬g.StartTaken config.epsilon a ∧ ∃ new p, g.Augments config.epsilon new ∧
        g.withoutEpsilon g.nullable config.epsilon a =
          ({ a with minted := a.minted ++ new.nonterminals }, .ok (g.expandedWith new)) ∧
        (g.expandedWith new).trimmed config.deduplicate = .ok p ∧
        g.reduced config a = .ok p ∧ g.Reduces config.epsilon p ∧ p.start = new.start) := by
  unfold reduced
  -- only the removal of epsilon rules can fail; what it answers settles the rest
  rcases withoutEpsilon_cases hg config.epsilon a with
    ⟨failure, hlimit, heq⟩ | ⟨hlimit, ⟨htaken, heq⟩ | ⟨htaken, new, hnew, heq⟩⟩
  · rw [heq]
    exact .inl ⟨failure, hlimit, rfl⟩
  · rw [heq]
    exact .inr ⟨hlimit, .inl ⟨htaken, rfl⟩⟩
  · obtain ⟨p, hp, hreduces, hstart⟩ := hnew.reduces hg config.deduplicate
    rw [heq]
    exact .inr ⟨hlimit, .inr ⟨htaken, new, p, hnew, rfl, hp, hp, hreduces, hstart⟩⟩

/-- What has happened if these phases answer a grammar. -/
theorem reduced_eq_ok (hg : g.Valid) {config : Config} {a : Allocator} {p : Grammar}
    (hp : g.reduced config a = .ok p) : ∃ new, g.Augments config.epsilon new ∧
      g.withoutEpsilon g.nullable config.epsilon a =
        ({ a with minted := a.minted ++ new.nonterminals }, .ok (g.expandedWith new)) ∧
      (g.expandedWith new).trimmed config.deduplicate = .ok p ∧
      g.Reduces config.epsilon p ∧ p.start = new.start := by
  rcases reduced_cases hg config a with
    ⟨_, _, heq⟩ | ⟨_, ⟨_, heq⟩ | ⟨_, new, q, hnew, hepsilon, htrimmed, heq, hreduces, hstart⟩⟩
  · rw [hp] at heq
    cases heq
  · rw [hp] at heq
    cases heq
  · obtain rfl := Except.ok.inj (hp.symm.trans heq)
    exact ⟨new, hnew, hepsilon, htrimmed, hreduces, hstart⟩

end Grammar

end Chomsky

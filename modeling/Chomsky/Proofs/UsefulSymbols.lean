import Chomsky.Proofs.Closure
import Chomsky.Proofs.Derivation
import Chomsky.Proofs.Validity
import Chomsky.Useful

/-!
# Removing useless nonterminals

The productive nonterminals are those with some word (`mem_productive_iff`). Rules with another one
contribute to no word, and neither do rules of a nonterminal that the start symbol does not lead to,
so both removals keep the language. `Prunes` says what they have in common; they never fail.
-/

namespace Chomsky

theorem Rule.mem_rightNonterminals_iff {r : Rule} {B : Nonterminal} :
    B ∈ r.rightNonterminals ↔ .nonterminal B ∈ r.right := by
  simp only [rightNonterminals, List.mem_filterMap]
  constructor
  · intro h
    obtain ⟨X, hX, hB⟩ := h
    cases X with
    | nonterminal A => obtain rfl := Option.some.inj hB; exact hX
    | terminal a => cases hB
  · intro h
    exact ⟨_, h, rfl⟩

theorem exists_mem_form_iff {I : Reading} {r : Rule} :
    (∃ w, w ∈ I.form r.right) ↔ ∀ B ∈ r.rightNonterminals, ∃ w, w ∈ I B := by
  rw [Reading.exists_mem_form]
  constructor
  · intro h B hB
    exact h _ (Rule.mem_rightNonterminals_iff.mp hB)
  · intro h X hX
    cases X with
    | nonterminal B => exact h B (Rule.mem_rightNonterminals_iff.mpr hX)
    | terminal a => exact ⟨[a], rfl⟩

namespace Grammar

variable {g r : Grammar} {A B : Nonterminal} {w : Word}

/-! ## Productive and accessible nonterminals -/

theorem mem_productive_iff : A ∈ g.productive ↔ ∃ w, w ∈ words g.rules A := by
  constructor
  · intro hA
    refine Clause.closure_sound (P := fun A => ∃ w, w ∈ words g.rules A)
      (fun _ h => absurd h List.not_mem_nil) (fun c hc hp => ?_) hA
    obtain ⟨r, hr, rfl⟩ := List.mem_map.mp hc
    obtain ⟨w, hw⟩ := exists_mem_form_iff.mpr hp
    exact ⟨w, closed_words g.rules r hr hw⟩
  · intro h
    obtain ⟨w, hw⟩ := h
    -- the reading in which only productive nonterminals have words
    refine words_le (I := fun A => {_w | A ∈ g.productive}) (fun r hr v hv => ?_) A hw
    show r.left ∈ g.productive
    refine Clause.closure_closed _ _ (List.mem_map_of_mem hr) fun B hB => ?_
    obtain ⟨_, hB⟩ := exists_mem_form_iff.mp ⟨v, hv⟩ B hB
    exact hB

theorem start_mem_productive_iff : g.start ∈ g.productive ↔ ∃ w, w ∈ g.language :=
  mem_productive_iff

theorem start_mem_accessible (h : g.isEmpty = false) : g.start ∈ g.accessible := by
  rw [accessible, h]
  exact Clause.known_subset_closure _ _ List.mem_cons_self

theorem accessible_of_isEmpty (h : g.isEmpty = true) : g.accessible = [] := by
  rw [accessible, if_pos h]

theorem accessible_closed {s : Rule} (hs : s ∈ g.rules) (hleft : s.left ∈ g.accessible)
    (hB : B ∈ s.rightNonterminals) : B ∈ g.accessible := by
  cases he : g.isEmpty with
  | true =>
    rw [accessible_of_isEmpty he] at hleft
    exact absurd hleft List.not_mem_nil
  | false =>
    rw [accessible, he] at hleft ⊢
    refine Clause.closure_closed _ _ (c := ⟨[s.left], B⟩) ?_ (by simpa using hleft)
    exact List.mem_flatMap.mpr ⟨s, hs, List.mem_map_of_mem hB⟩

/-! ## Rules that are kept -/

def productiveRules (g : Grammar) : List Rule :=
  g.rules.filter fun r => g.productive.contains r.left && r.rightNonterminals.all g.productive.contains

def accessibleRules (g : Grammar) : List Rule :=
  g.rules.filter fun r => g.accessible.contains r.left

theorem mem_productiveRules_iff {s : Rule} :
    s ∈ g.productiveRules ↔
      s ∈ g.rules ∧ s.left ∈ g.productive ∧ ∀ B ∈ s.rightNonterminals, B ∈ g.productive := by
  simp [productiveRules]

theorem mem_accessibleRules_iff {s : Rule} :
    s ∈ g.accessibleRules ↔ s ∈ g.rules ∧ s.left ∈ g.accessible := by
  simp [accessibleRules]

theorem mem_productiveRules {s : Rule} (hs : s ∈ g.rules) (hw : w ∈ (words g.rules).form s.right) :
    s ∈ g.productiveRules := by
  have hright := exists_mem_form_iff.mp ⟨w, hw⟩
  refine mem_productiveRules_iff.mpr ⟨hs, ?_, fun B hB => mem_productive_iff.mpr (hright B hB)⟩
  exact mem_productive_iff.mpr ⟨w, closed_words g.rules s hs hw⟩

theorem words_productiveRules : words g.productiveRules = words g.rules := by
  have hsub : ∀ A, words g.productiveRules A ≤ words g.rules A :=
    words_mono fun s hs => (mem_productiveRules_iff.mp hs).1
  refine funext fun A => le_antisymm (hsub A) (words_le (fun s hs v hv => ?_) A)
  have hv' : v ∈ (words g.rules).form s.right := Reading.form_mono (fun B _ => hsub B) hv
  exact closed_words _ s (mem_productiveRules hs hv') hv

theorem words_accessibleRules (hA : A ∈ g.accessible) :
    words g.accessibleRules A = words g.rules A := by
  refine le_antisymm (words_mono (fun s hs => (mem_accessibleRules_iff.mp hs).1) A) fun w hw => ?_
  -- only the words of accessible nonterminals have to be found again
  refine words_le (I := fun A => {w | A ∈ g.accessible → w ∈ words g.accessibleRules A})
    (fun s hs v hv hleft => ?_) A hw hA
  refine closed_words _ s (mem_accessibleRules_iff.mpr ⟨hs, hleft⟩) ?_
  refine Reading.form_mono (fun B hB u hu => ?_) hv
  exact hu (accessible_closed hs hleft (Rule.mem_rightNonterminals_iff.mpr hB))

/-! ## What a removal answers -/

/-- The second grammar has some of the nonterminals and rules of the first one and all it needs to
generate the same words. -/
structure Prunes (g r : Grammar) : Prop where
  valid : r.Valid
  start_eq : r.start = g.start
  terminals_eq : r.terminals = g.terminals
  nonterminals_sublist : r.nonterminals.Sublist g.nonterminals
  rules_sublist : r.rules.Sublist g.rules
  language_eq : r.language = g.language
  /-- An epsilon rule of the start symbol stays. -/
  epsilon_mem : ⟨g.start, []⟩ ∈ g.rules → ⟨g.start, []⟩ ∈ r.rules

theorem Prunes.trans {r' : Grammar} (h : g.Prunes r) (h' : r.Prunes r') : g.Prunes r' where
  valid := h'.valid
  start_eq := h'.start_eq.trans h.start_eq
  terminals_eq := h'.terminals_eq.trans h.terminals_eq
  nonterminals_sublist := h'.nonterminals_sublist.trans h.nonterminals_sublist
  rules_sublist := h'.rules_sublist.trans h.rules_sublist
  language_eq := h'.language_eq.trans h.language_eq
  epsilon_mem hr := h.start_eq ▸ h'.epsilon_mem (h.start_eq ▸ h.epsilon_mem hr)

/-- Restricting to a set of nonterminals that the kept rules do not leave. -/
theorem Valid.restrict_kept (hg : g.Valid) {kept : List Nonterminal} {rules : List Rule}
    (hstart : g.start ∈ kept) (hdecl : g.start ∈ g.nonterminals) (hsub : rules.Sublist g.rules)
    (hleft : ∀ s ∈ rules, s.left ∈ kept) (hright : ∀ s ∈ rules, ∀ B ∈ s.rightNonterminals, B ∈ kept) :
    ({ g with rules, nonterminals := g.nonterminals.filter kept.contains } : Grammar).Valid where
  nonterminals_nodup := hg.nonterminals_nodup.filter _
  terminals_nodup := hg.terminals_nodup
  names_disjoint A hA := hg.names_disjoint A (List.mem_filter.mp hA).1
  start_declared := .inr (List.mem_filter.mpr ⟨hdecl, by simpa using hstart⟩)
  left_declared s hs :=
    List.mem_filter.mpr ⟨hg.left_declared s (hsub.subset hs), by simpa using hleft s hs⟩
  right_declared s hs X hX := by
    have hX' := hg.right_declared s (hsub.subset hs) X hX
    cases X with
    | terminal a => exact hX'
    | nonterminal B =>
      have hB := hright s hs B (Rule.mem_rightNonterminals_iff.mpr hX)
      exact declares_nonterminal.mpr
        (List.mem_filter.mpr ⟨declares_nonterminal.mp hX', by simpa using hB⟩)

theorem Valid.prunes_empty (hg : g.Valid) (h : ∀ w, w ∉ g.language) :
    g.Prunes { g with rules := [], nonterminals := [] } where
  valid := hg.empty
  start_eq := rfl
  terminals_eq := rfl
  nonterminals_sublist := List.nil_sublist _
  rules_sublist := List.nil_sublist _
  language_eq := by
    ext w
    exact ⟨fun hw => absurd hw (notMem_language_of_isEmpty rfl), fun hw => absurd hw (h w)⟩
  epsilon_mem hr := absurd (closed_words g.rules _ hr rfl) (h [])

/-- The grammar becomes empty just if it has no words. -/
theorem onlyProductive_prunes (hg : g.Valid) :
    ∃ r, g.onlyProductive = .ok r ∧ g.Prunes r ∧ (r.isEmpty = true ↔ ∀ w, w ∉ g.language) := by
  rw [onlyProductive, restrict]
  by_cases hstart : g.start ∈ g.productive
  · obtain ⟨w, hw⟩ := start_mem_productive_iff.mp hstart
    obtain ⟨s, hs, hleft, _⟩ := mem_words_iff.mp hw
    have hvalid := hg.restrict_kept hstart (hleft ▸ hg.left_declared s hs)
      (List.filter_sublist : g.productiveRules.Sublist g.rules)
      (fun s hs => (mem_productiveRules_iff.mp hs).2.1)
      fun s hs => (mem_productiveRules_iff.mp hs).2.2
    have hlang : words g.productiveRules g.start = g.language := by rw [words_productiveRules]; rfl
    rw [if_pos (by simpa using hstart)]
    refine ⟨_, hvalid.checked, ⟨hvalid, rfl, rfl, List.filter_sublist, List.filter_sublist, hlang,
      fun hr => mem_productiveRules hr rfl⟩, fun he => ?_, fun h => absurd hw (h w)⟩
    rw [← hlang] at hw
    exact absurd hw (notMem_language_of_isEmpty he)
  · have hempty : ∀ w, w ∉ g.language := fun w hw => hstart (start_mem_productive_iff.mpr ⟨w, hw⟩)
    rw [if_neg (by simpa using hstart)]
    exact ⟨_, hg.empty.checked, hg.prunes_empty hempty, fun _ => hempty, fun _ => rfl⟩

/-- The grammar becomes empty just if it is. -/
theorem onlyAccessible_prunes (hg : g.Valid) :
    ∃ r, g.onlyAccessible = .ok r ∧ g.Prunes r ∧ (r.isEmpty = true ↔ g.isEmpty = true) := by
  rw [onlyAccessible, restrict]
  cases he : g.isEmpty with
  | false =>
    have hstart := start_mem_accessible he
    have hdecl : g.start ∈ g.nonterminals := hg.start_declared.resolve_left (by simp [he])
    have hvalid := hg.restrict_kept hstart hdecl
      (List.filter_sublist : g.accessibleRules.Sublist g.rules)
      (fun s hs => (mem_accessibleRules_iff.mp hs).2) fun s hs B hB =>
        accessible_closed (mem_accessibleRules_iff.mp hs).1 (mem_accessibleRules_iff.mp hs).2 hB
    rw [if_pos (by simpa using hstart)]
    refine ⟨_, hvalid.checked, ⟨hvalid, rfl, rfl, List.filter_sublist, List.filter_sublist,
      words_accessibleRules hstart, fun hr => mem_accessibleRules_iff.mpr ⟨hr, hstart⟩⟩, ?_⟩
    have hmem : g.start ∈ g.nonterminals.filter g.accessible.contains :=
      List.mem_filter.mpr ⟨hdecl, by simpa using hstart⟩
    simp [isEmpty_iff, List.ne_nil_of_mem hmem]
  | true =>
    rw [if_neg (by simp [accessible_of_isEmpty he])]
    exact ⟨_, hg.empty.checked, hg.prunes_empty fun _ => notMem_language_of_isEmpty he,
      fun _ => rfl, fun _ => rfl⟩

/-- Only the useful part is left, and that is nothing just if the grammar has no words. -/
theorem onlyUseful_prunes (hg : g.Valid) :
    ∃ r, g.onlyUseful = .ok r ∧ g.Prunes r ∧ (r.isEmpty = true ↔ ∀ w, w ∉ g.language) := by
  obtain ⟨p, hp, hprunes, hempty⟩ := onlyProductive_prunes hg
  obtain ⟨r, hr, hprunes', hempty'⟩ := onlyAccessible_prunes hprunes.valid
  refine ⟨r, ?_, hprunes.trans hprunes', hempty'.trans hempty⟩
  rw [onlyUseful, hp]
  exact hr

end Grammar

end Chomsky

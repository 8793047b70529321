import Chomsky.Proofs.UsefulSymbols

/-!
# Grammars without useless nonterminals

A nonterminal is accessible just if rules lead to it from the start symbol (`mem_accessible_iff`), which
is to say that it occurs in something that the start symbol derives (`exists_derives_iff`). Removing the
nonproductive nonterminals first and then the inaccessible ones leaves only useful ones
(`onlyUseful_allUseful`): the second removal takes no word from a nonterminal that stays.
-/

namespace Chomsky

/-! ## Where rules lead -/

/-- `B` is on the right side of a rule of `A`. -/
def Mentions (rules : List Rule) (A B : Nonterminal) : Prop :=
  ∃ r ∈ rules, r.left = A ∧ .nonterminal B ∈ r.right

/-- Rules lead from `A` to `B`, in any number of steps. -/
def Leads (rules : List Rule) : Nonterminal → Nonterminal → Prop :=
  Relation.ReflTransGen (Mentions rules)

section Leads

variable {rules rules' : List Rule} {A B : Nonterminal} {α : List Symbol}

theorem Leads.of_rule {r : Rule} (hr : r ∈ rules) (hB : .nonterminal B ∈ r.right) :
    Leads rules r.left B := .single ⟨r, hr, rfl, hB⟩

theorem Leads.mono (h : Leads rules A B) (hsub : ∀ r ∈ rules, r ∈ rules') : Leads rules' A B := by
  induction h with
  | refl => exact .refl
  | tail _ hstep ih =>
    obtain ⟨r, hr, hmention⟩ := hstep
    exact ih.tail ⟨r, hsub r hr, hmention⟩

theorem leads_of_derives (h : Derives rules [.nonterminal A] α) (hB : .nonterminal B ∈ α) :
    Leads rules A B := by
  induction h generalizing B with
  | refl =>
    obtain rfl := Symbol.nonterminal.inj (List.mem_singleton.mp hB)
    exact .refl
  | tail _ hstep ih =>
    obtain ⟨hr, before, after⟩ := hstep
    simp only [List.mem_append] at hB
    rcases hB with (hB | hB) | hB
    · exact ih (List.mem_append_left _ hB)
    · have hleft := ih (List.mem_append_right before List.mem_cons_self)
      exact hleft.trans (Leads.of_rule hr hB)
    · exact ih (List.mem_append_right _ (List.mem_cons_of_mem _ hB))

/-- Rules lead to what can be derived, other symbols around it. -/
theorem exists_derives_iff :
    (∃ α, Derives rules [.nonterminal A] α ∧ .nonterminal B ∈ α) ↔ Leads rules A B := by
  constructor
  · intro h
    obtain ⟨α, hα, hB⟩ := h
    exact leads_of_derives hα hB
  · intro h
    induction h with
    | refl => exact ⟨_, .refl, List.mem_cons_self⟩
    | tail _ hstep ih =>
      obtain ⟨α, hα, hmem⟩ := ih
      obtain ⟨r, hr, rfl, hC⟩ := hstep
      obtain ⟨before, after, rfl⟩ := List.append_of_mem hmem
      refine ⟨_, hα.tail (.step hr before after), ?_⟩
      exact List.mem_append_left _ (List.mem_append_right _ hC)

/-- A rule whose right side has only productive nonterminals makes its left side productive. -/
theorem exists_word_of_rule {r : Rule} (hr : r ∈ rules)
    (h : ∀ B, .nonterminal B ∈ r.right → ∃ w, w ∈ words rules B) : ∃ w, w ∈ words rules r.left := by
  obtain ⟨w, hw⟩ := exists_mem_form_iff.mpr fun B hB => h B (Rule.mem_rightNonterminals_iff.mp hB)
  exact ⟨w, closed_words rules r hr hw⟩

end Leads

namespace Grammar

variable {g r : Grammar} {A : Nonterminal}

theorem mem_accessible_iff (h : g.isEmpty = false) : A ∈ g.accessible ↔ Leads g.rules g.start A := by
  constructor
  · intro hA
    rw [accessible, h] at hA
    refine Clause.closure_sound (P := Leads g.rules g.start) (fun B hB => ?_) (fun c hc hp => ?_) hA
    · obtain rfl := List.mem_singleton.mp hB
      exact .refl
    · obtain ⟨s, hs, hc⟩ := List.mem_flatMap.mp hc
      obtain ⟨B, hB, rfl⟩ := List.mem_map.mp hc
      have hleft : Leads g.rules g.start s.left := hp _ List.mem_cons_self
      exact hleft.trans (Leads.of_rule hs (Rule.mem_rightNonterminals_iff.mp hB))
  · intro hA
    induction hA with
    | refl => exact start_mem_accessible h
    | tail _ hstep ih =>
      obtain ⟨s, hs, rfl, hB⟩ := hstep
      exact accessible_closed hs ih (Rule.mem_rightNonterminals_iff.mpr hB)

/-- On the way to an accessible nonterminal there are only rules of accessible ones. -/
theorem leads_accessibleRules (h : g.isEmpty = false) (hA : A ∈ g.accessible) :
    Leads g.accessibleRules g.start A := by
  have hlead := (mem_accessible_iff h).mp hA
  clear hA
  induction hlead with
  | refl => exact .refl
  | tail hlead hstep ih =>
    obtain ⟨s, hs, rfl, hB⟩ := hstep
    have hleft := (mem_accessible_iff h).mpr hlead
    exact ih.trans (Leads.of_rule (mem_accessibleRules_iff.mpr ⟨hs, hleft⟩) hB)

theorem Valid.productive_declared (hg : g.Valid) (hA : A ∈ g.productive) : A ∈ g.nonterminals := by
  obtain ⟨w, hw⟩ := mem_productive_iff.mp hA
  obtain ⟨s, hs, rfl, _⟩ := mem_words_iff.mp hw
  exact hg.left_declared s hs

theorem Valid.accessible_declared (hg : g.Valid) (hA : A ∈ g.accessible) : A ∈ g.nonterminals := by
  cases he : g.isEmpty with
  | true =>
    rw [accessible_of_isEmpty he] at hA
    exact absurd hA List.not_mem_nil
  | false =>
    rcases ((mem_accessible_iff he).mp hA).cases_tail with rfl | ⟨_, _, s, hs, _, hmention⟩
    · exact hg.start_declared.resolve_left (by simp [he])
    · exact declares_nonterminal.mp (hg.right_declared s hs _ hmention)

/-! ## Only useful nonterminals -/

/-- All declared nonterminals are productive, and the start symbol leads to them. -/
structure AllUseful (g : Grammar) : Prop where
  productive : ∀ A ∈ g.nonterminals, ∃ w, w ∈ words g.rules A
  accessible : ∀ A ∈ g.nonterminals, Leads g.rules g.start A

theorem eq_of_restrict {kept : List Nonterminal} {rules : List Rule}
    (h : g.restrict kept rules = .ok r) :
    r = if g.start ∈ kept then { g with rules, nonterminals := g.nonterminals.filter kept.contains }
      else { g with rules := [], nonterminals := [] } := by
  rw [restrict] at h
  by_cases hstart : g.start ∈ kept
  · rw [if_pos (by simpa using hstart)] at h
    rw [if_pos hstart]
    exact (checked_eq_ok_iff.mp h).2
  · rw [if_neg (by simpa using hstart)] at h
    rw [if_neg hstart]
    exact (checked_eq_ok_iff.mp h).2

theorem mem_of_mem_filter_contains {l kept : List Nonterminal} (h : A ∈ l.filter kept.contains) :
    A ∈ l ∧ A ∈ kept := by
  obtain ⟨hl, hkept⟩ := List.mem_filter.mp h
  exact ⟨hl, by simpa using hkept⟩

theorem onlyProductive_productive (h : g.onlyProductive = .ok r) :
    ∀ A ∈ r.nonterminals, ∃ w, w ∈ words r.rules A := by
  intro A hA
  rw [eq_of_restrict h] at hA ⊢
  split at hA
  · next hstart =>
    rw [if_pos hstart]
    obtain ⟨w, hw⟩ := mem_productive_iff.mp (mem_of_mem_filter_contains hA).2
    rw [← words_productiveRules] at hw
    exact ⟨w, hw⟩
  · exact absurd hA List.not_mem_nil

theorem onlyAccessible_allUseful (h : g.onlyAccessible = .ok r)
    (hg : ∀ A ∈ g.nonterminals, ∃ w, w ∈ words g.rules A) : r.AllUseful := by
  rw [eq_of_restrict h]
  split
  · refine ⟨fun A hA => ?_, fun A hA => ?_⟩
    · obtain ⟨hdecl, hacc⟩ := mem_of_mem_filter_contains hA
      obtain ⟨w, hw⟩ := hg A hdecl
      rw [← words_accessibleRules hacc] at hw
      exact ⟨w, hw⟩
    · obtain ⟨hdecl, hacc⟩ := mem_of_mem_filter_contains hA
      exact leads_accessibleRules (isEmpty_eq_false_of_mem hdecl) hacc
  · exact ⟨by simp, by simp⟩

theorem onlyUseful_allUseful (hg : g.Valid) (h : g.onlyUseful = .ok r) : r.AllUseful := by
  obtain ⟨p, hp, _, _⟩ := onlyProductive_prunes hg
  rw [onlyUseful, hp] at h
  exact onlyAccessible_allUseful h (onlyProductive_productive hp)

namespace AllUseful

/-- The order of the rules and their repetitions do not matter. -/
theorem congr (h : g.AllUseful) (hstart : r.start = g.start)
    (hnonterminals : r.nonterminals = g.nonterminals) (hrules : ∀ s, s ∈ r.rules ↔ s ∈ g.rules) :
    r.AllUseful where
  productive A hA := by
    rw [words_congr hrules]
    exact h.productive A (hnonterminals ▸ hA)
  accessible A hA := by
    rw [hstart]
    exact (h.accessible A (hnonterminals ▸ hA)).mono fun s => (hrules s).mpr

variable (h : g.AllUseful) (hg : g.Valid)

include h hg

theorem mem_productive_iff : A ∈ g.productive ↔ A ∈ g.nonterminals :=
  ⟨hg.productive_declared, fun hA => Grammar.mem_productive_iff.mpr (h.productive A hA)⟩

theorem mem_accessible_iff : A ∈ g.accessible ↔ A ∈ g.nonterminals := by
  refine ⟨hg.accessible_declared, fun hA => ?_⟩
  exact (Grammar.mem_accessible_iff (isEmpty_eq_false_of_mem hA)).mpr (h.accessible A hA)

end AllUseful

end Grammar

end Chomsky

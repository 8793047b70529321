import Chomsky.Proofs.Accessibility
import Chomsky.Proofs.BinarizationLayout
import Chomsky.Proofs.IntroducedNames

/-!
# The result has no useless nonterminals

Only the phases before binarization remove useless nonterminals, so binarization must not bring any in.
The name of a pair is mentioned by the next pair or by the rule itself, and derives what its two
nonterminals derive; the name of a terminal is mentioned by every long rule with that terminal.
-/

namespace Chomsky

namespace Binarization

variable {left : Nonterminal} {nonterminals names : List Nonterminal}

/-- The pairs lead to all nonterminals between which they stand, and to each other. -/
theorem pairUp_leads (hlen : names.length = nonterminals.length - 2) :
    ∀ B ∈ nonterminals ++ names, Leads (pairUp left nonterminals names) left B := by
  induction names generalizing nonterminals with
  | nil =>
    intro B hB
    rw [List.append_nil] at hB
    rw [pairUp_nil]
    exact .of_rule List.mem_cons_self (List.mem_map_of_mem hB)
  | cons X names ih =>
    obtain ⟨first, second, third, rest, rfl⟩ := exists_long hlen
    rw [pairUp_cons]
    have hlater : ∀ C ∈ X :: third :: rest ++ names,
        Leads (⟨X, [.nonterminal first, .nonterminal second]⟩ ::
          pairUp left (X :: third :: rest) names) left C := fun C hC =>
      (ih (by simpa using hlen) C hC).mono fun _ => List.mem_cons_of_mem _
    have hX := hlater X List.mem_cons_self
    intro B hB
    simp only [List.cons_append, List.mem_cons, List.mem_append] at hB
    rcases hB with rfl | rfl | hB
    · exact hX.trans (Leads.of_rule List.mem_cons_self (by simp))
    · exact hX.trans (Leads.of_rule List.mem_cons_self (by simp))
    · refine hlater B ?_
      simp only [List.cons_append, List.mem_cons, List.mem_append]
      tauto

end Binarization

namespace Grammar

open Binarization (Naming Part)

variable {g r : Grammar} {config : Config} {a : Allocator} {τ : Naming} {parts : List Part}
  {A : Nonterminal} {c : Terminal}

namespace Layout

variable (h : g.Layout a τ parts)

include h

theorem exists_part {s : Rule} (hs : s ∈ g.rules) : ∃ part ∈ parts, part.rule = s := by
  rw [← h.rule_eq] at hs
  exact List.mem_map.mp hs

theorem layout_mem {part : Part} (hpart : part ∈ parts) {s : Rule}
    (hs : s ∈ Binarization.layout τ g.start part.rule part.pairs) :
    s ∈ (g.binarizedWith a).rules :=
  h.mem_of_part hpart (List.mem_append_right _ hs)

theorem pairUp_mem {part : Part} (hpart : part ∈ parts)
    (hkeeps : Binarization.keeps g.start part.rule = false) {s : Rule}
    (hs : s ∈ Binarization.pairUp part.rule.left (part.rule.right.map τ.symbol) part.pairs) :
    s ∈ (g.binarizedWith a).rules := by
  refine h.layout_mem hpart ?_
  rwa [Binarization.layout, hkeeps]

/-- A terminal of a long rule is derived by its name. -/
theorem preterminal_mem (hc : c ∈ g.isolatedTerminals) :
    ⟨τ c, [.terminal c]⟩ ∈ (g.binarizedWith a).rules := by
  rw [h.rules_perm.mem_iff]
  exact List.mem_append_left _ (List.mem_map.mpr ⟨c, hc, rfl⟩)

/-- A rule that is replaced leads to the nonterminals that its symbols become, and to its pairs. -/
theorem leads_of_part {part : Part} (hpart : part ∈ parts)
    (hkeeps : Binarization.keeps g.start part.rule = false)
    (hA : A ∈ part.rule.right.map τ.symbol ++ part.pairs) :
    Leads (g.binarizedWith a).rules part.rule.left A := by
  refine (Binarization.pairUp_leads ?_ A hA).mono fun s => h.pairUp_mem hpart hkeeps
  rw [h.length_pairs part hpart, List.length_map]

/-- What a rule mentions, the rules in its place lead to. -/
theorem leads_of_mentions {A B : Nonterminal} (hAB : Mentions g.rules A B) :
    Leads (g.binarizedWith a).rules A B := by
  obtain ⟨s, hs, rfl, hB⟩ := hAB
  obtain ⟨part, hpart, rfl⟩ := h.exists_part hs
  cases hkeeps : Binarization.keeps g.start part.rule with
  | true =>
    refine .of_rule (h.layout_mem hpart ?_) hB
    rw [Binarization.layout, hkeeps]
    exact List.mem_cons_self
  | false =>
    refine h.leads_of_part hpart hkeeps (List.mem_append_left _ ?_)
    exact List.mem_map.mpr ⟨_, hB, rfl⟩

theorem leads_of_leads {A B : Nonterminal} (hAB : Leads g.rules A B) :
    Leads (g.binarizedWith a).rules A B := by
  induction hAB with
  | refl => exact .refl
  | tail _ hstep ih => exact ih.trans (h.leads_of_mentions hstep)

end Layout

theorem words_binarizedWith (hg : g.Valid) (hfree : a.FreeNext g.symbolNames g.mintCount)
    (hA : A ∈ g.nonterminals) : words (g.binarizedWith a).rules A = words g.rules A := by
  obtain ⟨E, hE⟩ := exists_unfolds hg hfree
  exact hE.words_eq hA

namespace AllUseful

variable (h : g.AllUseful) (hg : g.Valid) (hfree : a.FreeNext g.symbolNames g.mintCount)
  (hlayout : g.Layout a τ parts)

include h hg hlayout

theorem leads_to_left {part : Part} (hpart : part ∈ parts) :
    Leads (g.binarizedWith a).rules g.start part.rule.left :=
  hlayout.leads_of_leads (h.accessible _ (hg.left_declared _ (hlayout.rule_mem hpart)))

omit hlayout

include hfree

theorem exists_word_of_old (hA : A ∈ g.nonterminals) :
    ∃ w, w ∈ words (g.binarizedWith a).rules A := by
  rw [words_binarizedWith hg hfree hA]
  exact h.productive A hA

include hlayout

/-- The symbols of a rule that is replaced become productive nonterminals. -/
theorem exists_word_of_symbol {part : Part} (hpart : part ∈ parts)
    (hlong : 2 ≤ part.rule.right.length) (hA : A ∈ part.rule.right.map τ.symbol) :
    ∃ w, w ∈ words (g.binarizedWith a).rules A := by
  obtain ⟨X, hX, rfl⟩ := List.mem_map.mp hA
  have hrule := hlayout.rule_mem hpart
  cases X with
  | nonterminal B =>
    have hB := declares_nonterminal.mp (hg.right_declared _ hrule _ hX)
    exact h.exists_word_of_old hg hfree hB
  | terminal c =>
    have hc : c ∈ g.isolatedTerminals := mem_isolatedTerminals_iff.mpr ⟨_, hrule, hlong, hX⟩
    exact exists_word_of_rule (hlayout.preterminal_mem hc) (by simp)

/-- The name of a terminal is mentioned for some long rule with that terminal. -/
theorem preterminal_useful (hc : c ∈ g.isolatedTerminals) :
    (∃ w, w ∈ words (g.binarizedWith a).rules (τ c)) ∧
      Leads (g.binarizedWith a).rules g.start (τ c) := by
  obtain ⟨s, hs, hlong, hcs⟩ := mem_isolatedTerminals_iff.mp hc
  obtain ⟨part, hpart, rfl⟩ := hlayout.exists_part hs
  have hmem : τ c ∈ part.rule.right.map τ.symbol := List.mem_map.mpr ⟨_, hcs, rfl⟩
  refine ⟨h.exists_word_of_symbol hg hfree hlayout hpart hlong hmem, ?_⟩
  exact (h.leads_to_left hg hlayout hpart).trans (hlayout.leads_of_part hpart
    (Binarization.keeps_eq_false_of_long hlong) (List.mem_append_left _ hmem))

theorem pair_useful {part : Part} (hpart : part ∈ parts) (hA : A ∈ part.pairs) :
    (∃ w, w ∈ words (g.binarizedWith a).rules A) ∧
      Leads (g.binarizedWith a).rules g.start A := by
  have hlong := hlayout.long_of_mem_pairs hpart hA
  have hkeeps : Binarization.keeps g.start part.rule = false :=
    Binarization.keeps_eq_false_of_long hlong
  refine ⟨Binarization.forall_of_pairUp
    (fun s hs => exists_word_of_rule (hlayout.pairUp_mem hpart hkeeps hs)) ?_
    (fun B => h.exists_word_of_symbol hg hfree hlayout hpart hlong) A hA, ?_⟩
  · rw [hlayout.length_pairs part hpart, List.length_map]
  · exact (h.leads_to_left hg hlayout hpart).trans
      (hlayout.leads_of_part hpart hkeeps (List.mem_append_right _ hA))

omit hlayout

/-- Binarization brings in no useless nonterminals. -/
theorem binarizedWith : (g.binarizedWith a).AllUseful := by
  obtain ⟨τ, parts, hlayout⟩ := exists_layout g a
  have huseful : ∀ A ∈ (g.binarizedWith a).nonterminals,
      (∃ w, w ∈ words (g.binarizedWith a).rules A) ∧
        Leads (g.binarizedWith a).rules g.start A := by
    intro A hA
    rcases List.mem_append.mp hA with hold | hnew
    · exact ⟨h.exists_word_of_old hg hfree hold, hlayout.leads_of_leads (h.accessible A hold)⟩
    · rcases List.mem_append.mp (hlayout.minted_perm.mem_iff.mp hnew) with hterminal | hpair
      · obtain ⟨c, hc, rfl⟩ := List.mem_map.mp hterminal
        exact h.preterminal_useful hg hfree hlayout hc
      · obtain ⟨part, hpart, hA⟩ := List.mem_flatMap.mp hpair
        exact h.pair_useful hg hfree hlayout hpart hA
  exact ⟨fun A hA => (huseful A hA).1, fun A hA => (huseful A hA).2⟩

end AllUseful

/-! ## The result of normalization -/

theorem Stages.left_useful {hstem : config.stem ≠ ""} {new : Augmentation} {p : Grammar}
    (h : g.Stages config hstem new p r) : p.AllUseful := by
  obtain ⟨u, copies, htrims⟩ := h.exists_trims
  exact onlyUseful_allUseful (htrims.unary.valid htrims.prunes_unique.valid) htrims.useful

theorem Stages.allUseful {hstem : config.stem ≠ ""} {new : Augmentation} {p : Grammar}
    (h : g.Stages config hstem new p r) : r.AllUseful := by
  have hbinarized := h.left_useful.binarizedWith h.reduces.valid h.free
  refine hbinarized.congr ?_ ?_ fun s => mem_of_uniqueIf h.finished
  · rw [eq_of_uniqueIf h.finished]
  · rw [eq_of_uniqueIf h.finished]

/-- Every nonterminal of the result derives some word and occurs in something that the start symbol
derives. The computed sets agree, and those that were introduced are no exception. -/
theorem normalize_useful (h : (g.normalize config).result = .ok r) :
    (∀ A ∈ r.nonterminals, (∃ w, w ∈ words r.rules A) ∧
      ∃ α, Derives r.rules [.nonterminal r.start] α ∧ .nonterminal A ∈ α) ∧
    (∀ A, A ∈ r.productive ↔ A ∈ r.nonterminals) ∧
    (∀ A, A ∈ r.accessible ↔ A ∈ r.nonterminals) ∧
    ∀ A ∈ (g.normalize config).introduced, A ∈ r.nonterminals := by
  obtain ⟨hstem, new, p, hstages⟩ := stages_of_ok h
  have huseful := hstages.allUseful
  have hr := (normalizesTo_of_ok h).valid
  refine ⟨fun A hA => ⟨huseful.productive A hA, exists_derives_iff.mpr (huseful.accessible A hA)⟩,
    fun A => huseful.mem_productive_iff hr, fun A => huseful.mem_accessible_iff hr,
    fun A => hstages.introduced_declared⟩

/-- Five nonterminals are introduced for the brackets, and none of them is useless. -/
theorem normalize_useful_brackets : ∃ r, (brackets.normalize keepingEmpty).result = .ok r ∧
    (brackets.normalize keepingEmpty).introduced.length = 5 ∧
    ∀ A ∈ (brackets.normalize keepingEmpty).introduced, A ∈ r.productive ∧ A ∈ r.accessible := by
  obtain ⟨r, hr⟩ := exists_normalize_brackets
  obtain ⟨_, hproductive, haccessible, hintroduced⟩ := normalize_useful hr
  refine ⟨r, hr, by cbv, fun A hA => ?_⟩
  have hdecl := hintroduced A hA
  exact ⟨(hproductive A).mpr hdecl, (haccessible A).mpr hdecl⟩

end Grammar

end Chomsky

import Chomsky.Proofs.BinarizedRules
import Chomsky.Proofs.RuleRemoval
import Chomsky.Proofs.Stages

/-!
# No repeated rules

Once repetitions are dropped behind the removal of epsilon rules, no later phase brings one in. Copies of
rules are only added where they are new, and two rules that binarization leaves are equal only if the
rules that they come from are: the rule of a new nonterminal is the only one, and what an old nonterminal
derives unfolds to the right side in the grammar. So the last look for repeated rules finds none.
-/

namespace Chomsky

namespace Grammar

variable {g r : Grammar} {config : Config} {a : Allocator}

theorem nodup_removeUnary (hg : g.Valid) (h : g.rules.Nodup) :
    ∃ r, g.removeUnary.result = .ok r ∧ r.Valid ∧ r.rules.Nodup := by
  obtain ⟨copies, hcopies, hresult⟩ := withoutUnary_eq hg
  refine ⟨_, hresult, hcopies.valid hg, ?_⟩
  refine (h.filter _).append hcopies.nodup fun s hs hs' => ?_
  exact hcopies.notMem s hs' hs

theorem nodup_binarizedWith (hg : g.Valid) (hfree : a.FreeNext g.symbolNames g.mintCount)
    (h : g.rules.Nodup) : (g.binarizedWith a).rules.Nodup := by
  obtain ⟨E, hE⟩ := exists_unfolds hg hfree
  have hold : ((g.binarizedWith a).rules.filter fun s => g.nonterminals.contains s.left).Nodup := by
    rw [← hE.old_rules] at h
    exact h.of_map
  rw [List.nodup_iff_count_le_one]
  intro s
  by_cases hs : s ∈ (g.binarizedWith a).rules
  · rcases List.mem_append.mp ((valid_binarizedWith hg hfree).left_declared s hs) with hleft | hleft
    · have hcount := List.nodup_iff_count_le_one.mp hold s
      rwa [List.count_filter (by simpa using hleft)] at hcount
    · rw [← count_left_introduced hg hfree hleft]
      exact List.count_le_count_map
  · rw [List.count_eq_zero.mpr hs]
    exact Nat.zero_le 1

theorem nodup_binarize (hg : g.Valid) (h : g.rules.Nodup) (hr : (g.binarize a).2.result = .ok r) :
    r.Valid ∧ r.rules.Nodup := by
  obtain ⟨hfree, _, rfl, hbinarizes⟩ := binarized_eq_ok hg hr
  exact ⟨hbinarizes.valid, nodup_binarizedWith hg hfree h⟩

theorem deduplicateIf_eq_pure (hg : g.Valid) (h : g.rules.Nodup) (wanted : Bool) :
    g.deduplicateIf wanted = pure g := by
  cases wanted with
  | false => rfl
  | true =>
    show Report.ofResult g.withoutDuplicates = _
    rw [withoutDuplicates_eq hg, eraseDups_of_nodup h]
    rfl

/-- If repeated rules are not wanted, the result has none. Neither the removal of unary rules nor
binarization brings in a repetition, so there is nothing to drop in what binarization leaves. -/
theorem normalize_nodup (hwanted : config.deduplicate = true) :
    (∀ r, (g.normalize config).result = .ok r → r.rules.Nodup) ∧
    (∀ u : Grammar, u.Valid → u.rules.Nodup → ∃ r, u.removeUnary.result = .ok r ∧ r.rules.Nodup) ∧
    (∀ (p r : Grammar) (a : Allocator), p.Valid → p.rules.Nodup → (p.binarize a).2.result = .ok r →
      r.rules.Nodup) ∧
    ∀ (a a' : Allocator) (e u v p q : Grammar), g.Valid →
      (g.removeEpsilon g.nullable config.epsilon a).2.result = .ok e →
      (e.deduplicateIf config.deduplicate).result = .ok u → u.removeUnary.result = .ok v →
      v.removeUseless.result = .ok p → (p.binarize a').2.result = .ok q →
      q.deduplicateIf config.deduplicate = pure q := by
  refine ⟨fun r h => ?_, fun u hu hnodup => ?_, fun p r a hp hnodup hr =>
    (nodup_binarize hp hnodup hr).2, fun a a' e u v p q hg he hu hv hp hq => ?_⟩
  · obtain ⟨_, _, _, hstages⟩ := stages_of_ok h
    rw [eq_of_uniqueIf hstages.finished, hwanted]
    exact nodup_eraseDups _
  · obtain ⟨r, hr, _, hr'⟩ := nodup_removeUnary hu hnodup
    exact ⟨r, hr, hr'⟩
  · obtain ⟨new, hnew, rfl⟩ := augments_of_removeEpsilon hg he
    have hvalid := hnew.valid hg
    rw [result_deduplicateIf, hwanted, uniqueIf, if_pos rfl, withoutDuplicates_eq hvalid] at hu
    obtain rfl := Except.ok.inj hu
    obtain ⟨v', hv', hvalid', hnodup⟩ := nodup_removeUnary hvalid.eraseDups (nodup_eraseDups _)
    obtain rfl := Except.ok.inj (hv'.symm.trans hv)
    obtain ⟨p', hp', hprunes, _⟩ := onlyUseful_prunes hvalid'
    obtain rfl := Except.ok.inj (hp'.symm.trans (result_removeUseless.symm.trans hp))
    obtain ⟨hq, hq'⟩ := nodup_binarize hprunes.valid (hnodup.sublist hprunes.rules_sublist) hq
    exact deduplicateIf_eq_pure hq hq' _

/-- A rule is repeated in the grammar, and more are once the epsilon rule is gone. -/
theorem normalize_nodup_loops :
    ∃ r, (loops.normalize {}).result = .ok r ∧ r.rules.Nodup ∧ ¬loops.rules.Nodup := by
  obtain ⟨hresult, _⟩ := @normalize_nodup loops {} rfl
  obtain ⟨r, hr⟩ : ∃ r, (loops.normalize {}).result = .ok r := exists_eq_ok (by cbv)
  exact ⟨r, hr, hresult r hr, by decide⟩

end Grammar

end Chomsky

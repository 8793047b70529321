import Chomsky.Proofs.Reordering
import Chomsky.Proofs.UsefulPart

/-!
# Productive and accessible nonterminals

The two sets that the removal of useless nonterminals is based on, each by itself and in terms of what
can be derived: the productive nonterminals derive some word, the accessible ones occur in something
that the start symbol derives (`useful_derives`). Both are closures of clauses, one from the right sides
to the left and one from the start symbol to the right, and neither depends on the order of the rules.
-/

namespace Chomsky

namespace Grammar

variable {g g' : Grammar}

theorem nodup_productive (g : Grammar) : g.productive.Nodup := Clause.nodup_closure _ .nil

theorem nodup_accessible (g : Grammar) : g.accessible.Nodup := by
  rw [accessible]
  split
  · exact .nil
  · exact Clause.nodup_closure _ (List.nodup_singleton g.start)

theorem Reorders.productive_perm (h : g.Reorders g') : g'.productive.Perm g.productive :=
  (List.perm_ext_iff_of_nodup (nodup_productive g') (nodup_productive g)).mpr fun _ =>
    h.mem_productive_iff.symm

theorem Reorders.accessible_perm (h : g.Reorders g') : g'.accessible.Perm g.accessible :=
  (List.perm_ext_iff_of_nodup (nodup_accessible g') (nodup_accessible g)).mpr fun _ =>
    h.mem_accessible_iff.symm

/-- Both sets are listed without repetition, and hold the declared nonterminals that can be seen to be
productive or accessible from the derivations. In the empty grammar nothing is accessible, not even the
start symbol. -/
theorem useful_derives (hg : g.Valid) :
    g.productive.Nodup ∧
      (∀ A, A ∈ g.productive ↔ A ∈ g.nonterminals ∧
        ∃ w : Word, Derives g.rules [.nonterminal A] (w.map .terminal)) ∧
      g.accessible.Nodup ∧
      (∀ A, A ∈ g.accessible ↔ A ∈ g.nonterminals ∧
        ∃ α, Derives g.rules [.nonterminal g.start] α ∧ .nonterminal A ∈ α) ∧
      (g.isEmpty = true → g.accessible = []) ∧ (g.isEmpty = false → g.start ∈ g.accessible) ∧
      ∀ rules : List Rule, rules.Perm g.rules →
        ({ g with rules } : Grammar).productive.Perm g.productive ∧
          ({ g with rules } : Grammar).accessible.Perm g.accessible := by
  refine ⟨nodup_productive g, fun A => ⟨fun hA => ?_, fun hA => mem_productive_iff.mpr hA.2⟩,
    nodup_accessible g, fun A => ⟨fun hA => ?_, fun hA => ?_⟩, accessible_of_isEmpty,
    start_mem_accessible, fun rules hperm => ?_⟩
  · exact ⟨hg.productive_declared hA, mem_productive_iff.mp hA⟩
  · have hdecl := hg.accessible_declared hA
    have hlead := (mem_accessible_iff (isEmpty_eq_false_of_mem hdecl)).mp hA
    exact ⟨hdecl, exists_derives_iff.mpr hlead⟩
  · obtain ⟨hdecl, hderives⟩ := hA
    exact (mem_accessible_iff (isEmpty_eq_false_of_mem hdecl)).mpr (exists_derives_iff.mp hderives)
  · have hreorders : g.Reorders { g with rules } := ⟨rfl, rfl, rfl, hperm.symm⟩
    exact ⟨hreorders.productive_perm, hreorders.accessible_perm⟩

/-- `B` leads back to itself and derives no word, but it can be reached from the start symbol; so it is
with the rules from the last one to the first. -/
theorem useful_derives_detour :
    (¬∃ w : Word, Derives detour.rules [.nonterminal ⟨"B"⟩] (w.map .terminal)) ∧
      (∃ α, Derives detour.rules [.nonterminal ⟨"S"⟩] α ∧ .nonterminal ⟨"B"⟩ ∈ α) ∧
      ⟨"B"⟩ ∉ ({ detour with rules := detour.rules.reverse } : Grammar).productive ∧
      ⟨"B"⟩ ∈ ({ detour with rules := detour.rules.reverse } : Grammar).accessible := by
  have hvalid : detour.Valid := defect?_eq_none_iff.mp (by cbv)
  have hproductive : detour.productive.contains ⟨"B"⟩ = false := by cbv
  have haccessible : detour.accessible.contains ⟨"B"⟩ = true := by cbv
  obtain ⟨_, hmem, _, hmem', _, _, hperm⟩ := useful_derives hvalid
  obtain ⟨hperm, hperm'⟩ := hperm _ (List.reverse_perm _)
  have hno : ⟨"B"⟩ ∉ detour.productive := by simpa using hproductive
  have hyes : ⟨"B"⟩ ∈ detour.accessible := List.contains_iff_mem.mp haccessible
  refine ⟨fun hw => hno ((hmem _).mpr ⟨by decide, hw⟩), ((hmem' _).mp hyes).2,
    fun h => hno (hperm.mem_iff.mp h), hperm'.mem_iff.mpr hyes⟩

end Grammar

end Chomsky

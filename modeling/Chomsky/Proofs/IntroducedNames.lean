import Chomsky.Proofs.Stages

/-!
# Names of introduced nonterminals

A new nonterminal never has the name of a terminal, nor that of a nonterminal that is still there when
it is introduced. But binarization only sees what is left of the grammar, so a number may give it the
name of a nonterminal that was removed as useless before.
-/

namespace Chomsky

namespace Grammar

variable {g r : Grammar} {config : Config}

namespace Stages

variable {hstem : config.stem ≠ ""} {new : Augmentation} {p : Grammar} {X : Nonterminal}

theorem nonterminals_eq (h : g.Stages config hstem new p r) :
    r.nonterminals = p.nonterminals ++ p.introduced (new.allocator config.stem hstem) := by
  rw [eq_of_uniqueIf h.finished]
  rfl

/-- What is introduced for the start symbol stays. -/
theorem augmentation_mem (h : g.Stages config hstem new p r) (hX : X ∈ new.nonterminals) :
    X ∈ p.nonterminals := h.augments.mem_of_reduces h.reduces h.start_eq hX

theorem introduced_declared (h : g.Stages config hstem new p r)
    (hX : X ∈ (g.normalize config).introduced) : X ∈ r.nonterminals := by
  rw [h.introduced] at hX
  rw [h.nonterminals_eq]
  rcases List.mem_append.mp hX with hX | hX
  · exact List.mem_append_left _ (h.augmentation_mem hX)
  · exact List.mem_append_right _ hX

/-- A numbered nonterminal has no name that is in use when binarization begins. -/
theorem numbered_name (h : g.Stages config hstem new p r)
    (hX : X ∈ p.introduced (new.allocator config.stem hstem)) : X.name ∉ p.symbolNames := by
  obtain ⟨i, hi, hn, rfl⟩ := Allocator.mem_mintedSince_after.mp hX
  exact (h.free i hi hn).1

theorem augmentation_name (h : g.Augments config.epsilon new) (hX : X ∈ new.nonterminals) :
    X.name ∉ g.symbolNames := by
  cases h with
  | lost => exact absurd hX List.not_mem_nil
  | kept => exact absurd hX List.not_mem_nil
  | renewed _ _ _ hfresh =>
    obtain rfl := List.mem_singleton.mp hX
    exact hfresh

end Stages

/-- The only names in use that a new nonterminal can get are those of nonterminals that were removed
before binarization. -/
theorem normalize_introduced_names (h : (g.normalize config).result = .ok r) :
    ∃ hstem p, g.reduced config (.initial config.stem hstem) = .ok p ∧
      ∀ X ∈ (g.normalize config).introduced, X ∈ r.nonterminals ∧
        (X.name ∈ g.symbolNames ↔ X ∈ g.nonterminals ∧ X ∉ p.nonterminals) := by
  obtain ⟨hstem, new, p, hstages⟩ := stages_of_ok h
  refine ⟨hstem, p, hstages.reduced, fun X hX => ⟨hstages.introduced_declared hX, ?_, ?_⟩⟩
  · intro hname
    rw [hstages.introduced] at hX
    rcases List.mem_append.mp hX with hX | hX
    · exact absurd hname (Stages.augmentation_name hstages.augments hX)
    · have hfree := hstages.numbered_name hX
      refine ⟨?_, notMem_of_fresh hfree⟩
      rcases mem_symbolNames.mp hname with hold | hterminal
      · exact hold
      · rw [← hstages.reduces.terminals_eq] at hterminal
        exact absurd (mem_symbolNames.mpr (.inr hterminal)) hfree
  · intro hold
    exact mem_symbolNames.mpr (.inl hold.1)

/-- Binarization needs two numbers, and the first one names a nonterminal that nothing leads to. -/
def shadowed : Grammar where
  start := ⟨"S"⟩
  rules := [⟨⟨"S"⟩, [.terminal ⟨"a"⟩, .terminal ⟨"b"⟩]⟩, ⟨⟨"X1"⟩, [.terminal ⟨"a"⟩]⟩]
  nonterminals := [⟨"S"⟩, ⟨"X1"⟩]
  terminals := [⟨"a"⟩, ⟨"b"⟩]

theorem exists_normalize_shadowed : ∃ r, (shadowed.normalize {}).result = .ok r :=
  exists_eq_ok (by cbv)

theorem mem_introduced_shadowed : ⟨"X1"⟩ ∈ (shadowed.normalize {}).introduced := by
  have hmem : (shadowed.normalize {}).introduced.contains ⟨"X1"⟩ = true := by cbv
  exact List.contains_iff_mem.mp hmem

/-- The name of the nonterminal that was removed is given to a new one. -/
theorem normalize_introduced_names_shadowed :
    ∃ hstem r p, (shadowed.normalize {}).result = .ok r ∧
      shadowed.reduced {} (.initial "X" hstem) = .ok p ∧
      ⟨"X1"⟩ ∈ r.nonterminals ∧ ⟨"X1"⟩ ∈ shadowed.nonterminals ∧ ⟨"X1"⟩ ∉ p.nonterminals := by
  obtain ⟨r, hr⟩ := exists_normalize_shadowed
  obtain ⟨hstem, p, hp, hnames⟩ := normalize_introduced_names hr
  obtain ⟨hdeclared, hname⟩ := hnames _ mem_introduced_shadowed
  exact ⟨hstem, r, p, hr, hp, hdeclared, hname.mp (by decide)⟩

/-- A new nonterminal can have a name that the grammar uses. -/
theorem introduced_name_in_use :
    ∃ r, (shadowed.normalize {}).result = .ok r ∧
      ∃ X ∈ (shadowed.normalize {}).introduced, X.name ∈ shadowed.symbolNames := by
  obtain ⟨r, hr⟩ := exists_normalize_shadowed
  exact ⟨r, hr, _, mem_introduced_shadowed, by decide⟩

end Grammar

end Chomsky

import Chomsky.Proofs.IntroducedNames
import Chomsky.Proofs.JsonDocument
import Chomsky.Proofs.Literal

/-!
# The documents of normalized grammars

A document is read as the grammar that it was written for, if a literal can say that grammar
(`Readable.read_write`), and a normalization that begins with such a grammar ends with one
(`Stages.readable`): no new name is the mark for an empty right side, and if nothing is left of the
grammar its start symbol still has no name of a terminal.
-/

namespace Chomsky

open Json

namespace Grammar

variable {d : Json} {g r : Grammar} {config : Config}

/-! ## Documents -/

theorem exact_ofStrings (names : List String) : (ofStrings names).Exact := by
  show ExactItems (names.map string)
  induction names with
  | nil => trivial
  | cons name names ih => exact ⟨trivial, ih⟩

theorem exact_ruleLiterals (rules : List Rule) : ExactItems (rules.map ruleLiteral) := by
  induction rules with
  | nil => trivial
  | cons r rules ih => exact ⟨⟨trivial, exact_ofStrings _, trivial⟩, ih⟩

theorem exact_toLiteral (g : Grammar) : g.toLiteral.Exact :=
  ⟨(by decide : literalKeys.Nodup), exact_ofStrings _, exact_ofStrings _, exact_ruleLiterals _,
    trivial, trivial⟩

/-- Reading a document is reading the literal in it. -/
theorem read_write (g : Grammar) :
    Grammar.read g.write = (ofLiteral g.toLiteral).mapError .literal := by
  unfold Grammar.read write
  rw [read_documentText g.exact_toLiteral]

theorem Readable.read_write (h : g.Readable) : Grammar.read g.write = .ok g := by
  rw [Grammar.read_write, mapError_eq_ok_iff]
  exact ofLiteral_eq_ok_iff.mpr ⟨h, fun _ _ => rfl⟩

/-! ## Names -/

/-- The mark for an empty right side does not end in a digit. -/
theorem append_toString_ne_epsilon (s : String) (n : Nat) : s ++ toString n ≠ epsilon := by
  intro h
  have hlist : s.toList ++ Nat.toDigits 10 n = ['ε'] := by
    rw [← Nat.toList_repr, ← String.toList_append]
    exact congrArg String.toList h
  obtain ⟨digit, hdigit⟩ := List.exists_mem_of_ne_nil _ (Nat.toDigits_ne_nil (n := n) (b := 10))
  have hmem : digit ∈ ['ε'] := hlist ▸ List.mem_append_right _ hdigit
  have hisDigit : digit.isDigit = true := Nat.isDigit_of_mem_toDigits (by decide) (by decide) hdigit
  rw [List.mem_singleton.mp hmem] at hisDigit
  revert hisDigit
  decide

theorem Readable.start_notMem (h : g.Readable) : ⟨g.start.name⟩ ∉ g.terminals := by
  rcases h.valid.start_declared with hempty | hdeclared
  · exact h.start_unused hempty
  · exact fun hmem => h.valid.names_disjoint _ hdeclared _ hmem rfl

namespace Stages

variable {hstem : config.stem ≠ ""} {new : Augmentation} {p : Grammar} {X : Nonterminal}

theorem nonterminals_subset (h : g.Stages config hstem new p r) (hX : X ∈ p.nonterminals) :
    X ∈ new.nonterminals ∨ X ∈ g.nonterminals := by
  obtain ⟨u, copies, htrims⟩ := h.exists_trims
  have hu : X ∈ u.nonterminals := htrims.prunes_useful.nonterminals_sublist.subset hX
  exact List.mem_append.mp (htrims.prunes_unique.nonterminals_sublist.subset hu)

/-- Every nonterminal of the result is an old one, a new start symbol, or a numbered one. -/
theorem name_cases (h : g.Stages config hstem new p r) (hX : X ∈ r.nonterminals) :
    X ∈ g.nonterminals ∨ X = g.freshStart ∨ ∃ n : Nat, X.name = config.stem ++ toString n := by
  rw [h.nonterminals_eq] at hX
  rcases List.mem_append.mp hX with hX | hX
  · rcases h.nonterminals_subset hX with hnew | hold
    · have haugments := h.augments
      cases haugments with
      | lost => exact absurd hnew List.not_mem_nil
      | kept => exact absurd hnew List.not_mem_nil
      | renewed => exact .inr (.inl (List.mem_singleton.mp hnew))
    · exact .inl hold
  · obtain ⟨i, -, -, rfl⟩ := Allocator.mem_mintedSince_after.mp hX
    exact .inr (.inr ⟨i, rfl⟩)

theorem start_notMem (h : g.Stages config hstem new p r) (hg : g.Readable) :
    ⟨r.start.name⟩ ∉ g.terminals := by
  have hstart : r.start = new.start := by
    rw [eq_of_uniqueIf h.finished]
    exact h.start_eq
  rw [hstart]
  have haugments := h.augments
  cases haugments with
  | lost => exact hg.start_notMem
  | kept => exact hg.start_notMem
  | renewed _ _ _ hfresh => exact fun hmem => hfresh (mem_symbolNames.mpr (.inr hmem))

/-- Normalization keeps to what a literal can say. -/
theorem readable (h : g.Stages config hstem new p r) (hg : g.Readable)
    (hr : g.NormalizesTo config.epsilon r) : r.Readable where
  valid := hr.valid
  epsilon_unused := by
    intro hmem
    rcases mem_symbolNames.mp hmem with hN | hT
    · rcases h.name_cases hN with hold | hfresh | ⟨n, hname⟩
      · exact hg.epsilon_unused (mem_symbolNames.mpr (.inl hold))
      · exact append_toString_ne_epsilon g.start.name 0 (congrArg Nonterminal.name hfresh).symm
      · exact append_toString_ne_epsilon config.stem n hname.symm
    · rw [hr.terminals_eq] at hT
      exact hg.epsilon_unused (mem_symbolNames.mpr (.inr hT))
  start_unused _ := by
    rw [hr.terminals_eq]
    exact h.start_notMem hg

end Stages

/-- A normalized grammar is read back from its document, if the grammar came from a literal. -/
theorem read_write_normalize (hd : ofLiteral d = .ok g)
    (h : (g.normalize config).result = .ok r) : Grammar.read r.write = .ok r := by
  obtain ⟨hreadable, -⟩ := ofLiteral_eq_ok_iff.mp hd
  obtain ⟨hstem, new, p, hstages⟩ := stages_of_ok h
  exact (hstages.readable hreadable (normalizesTo_of_ok h)).read_write

/-- Names that are empty, hold what has to be escaped, or are not ASCII. -/
def oddNames : Grammar where
  start := ⟨""⟩
  rules := [⟨⟨""⟩, [.terminal ⟨"\x22\\"⟩, .nonterminal ⟨""⟩, .terminal ⟨"\n\x01é"⟩]⟩, ⟨⟨""⟩, []⟩]
  nonterminals := [⟨""⟩]
  terminals := [⟨"\x22\\"⟩, ⟨"\n\x01é"⟩]

theorem read_write_normalize_oddNames :
    ofLiteral oddNames.toLiteral = .ok oddNames ∧
      ∃ r, (oddNames.normalize keepingEmpty).result = .ok r ∧ Grammar.read r.write = .ok r := by
  have hd : ofLiteral oddNames.toLiteral = .ok oddNames := by cbv
  have hr : ∃ r, (oddNames.normalize keepingEmpty).result = .ok r := exists_eq_ok (by cbv)
  obtain ⟨r, hr⟩ := hr
  exact ⟨hd, r, hr, read_write_normalize hd hr⟩

end Grammar

end Chomsky

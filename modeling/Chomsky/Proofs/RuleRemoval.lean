import Chomsky.Proofs.ChomskyNormalForm

/-!
# The removal of epsilon rules and of unary rules

What the first two phases of normalization do to a valid grammar, each by itself: the nullable
nonterminals are those that derive the empty word, in whatever order the rules stand
(`nullable_derives`); without epsilon rules every nonterminal loses the empty word and nothing else,
but for the start symbol (`removeEpsilon_words`); and without unary rules the grammar consists of
the rules that unary rules lead to (`removeUnary_rules`).
-/

namespace Chomsky

namespace Grammar

variable {g r : Grammar} {options : EpsilonOptions} {new : Augmentation} {a : Allocator}
  {A : Nonterminal} {w : Word}

/-! ## An example -/

/-- The start symbol recurs, there is a circle of unary rules, a rule that leads nowhere, and one
that is repeated, and only the last rule is an epsilon rule. -/
def loops : Grammar where
  start := ⟨"S"⟩
  rules := [
    ⟨⟨"S"⟩, [.nonterminal ⟨"S"⟩, .nonterminal ⟨"A"⟩]⟩, ⟨⟨"S"⟩, [.nonterminal ⟨"A"⟩]⟩,
    ⟨⟨"A"⟩, [.nonterminal ⟨"A"⟩]⟩, ⟨⟨"A"⟩, [.nonterminal ⟨"B"⟩]⟩,
    ⟨⟨"B"⟩, [.nonterminal ⟨"A"⟩]⟩, ⟨⟨"A"⟩, [.terminal ⟨"a"⟩]⟩, ⟨⟨"A"⟩, [.terminal ⟨"a"⟩]⟩,
    ⟨⟨"B"⟩, []⟩]
  nonterminals := [⟨"S"⟩, ⟨"A"⟩, ⟨"B"⟩]
  terminals := [⟨"a"⟩]

theorem valid_loops : loops.Valid := defect?_eq_none_iff.mp (by cbv)

/-! ## Nullable nonterminals -/

/-- The nullable nonterminals are listed once each, and they are those that derive the empty word.
The order of the rules does not matter. -/
theorem nullable_derives (hg : g.Valid) :
    g.nullable.Nodup ∧
      (∀ X, X ∈ g.nullable ↔
        ∃ A ∈ g.nonterminals, X = .nonterminal A ∧ Derives g.rules [.nonterminal A] []) ∧
      ∀ rules : List Rule, rules.Perm g.rules →
        ({ g with rules } : Grammar).nullable.Perm g.nullable := by
  refine ⟨nodup_nullable, fun X => hg.mem_nullable_iff_derives, fun rules hperm => ?_⟩
  have hwords : words rules = words g.rules := words_congr fun _ => hperm.mem_iff
  refine (List.perm_ext_iff_of_nodup nodup_nullable nodup_nullable).mpr fun X => ?_
  rw [mem_nullable_iff, mem_nullable_iff, hwords]

/-- The start symbol derives the empty word through the last rule, and is found in either order. -/
theorem nullable_derives_loops :
    Derives loops.rules [.nonterminal ⟨"S"⟩] [] ∧
      ({ loops with rules := loops.rules.reverse } : Grammar).nullable.Perm loops.nullable := by
  obtain ⟨_, hmem, hperm⟩ := nullable_derives valid_loops
  obtain ⟨_, _, hS, hderives⟩ := (hmem (.nonterminal ⟨"S"⟩)).mp (List.contains_iff_mem.mp (by cbv))
  obtain rfl := Symbol.nonterminal.inj hS
  exact ⟨hderives, hperm _ (List.reverse_perm _)⟩

/-! ## Epsilon rules -/

/-- Every old nonterminal loses the empty word and no other. Only a start symbol that is on no right
side keeps it, if that is asked for. -/
theorem Augments.mem_words_iff (hg : g.Valid) (h : g.Augments options new)
    (hA : A ∈ g.nonterminals) : w ∈ words (g.expandedWith new).rules A ↔
      w ∈ words g.rules A ∧
        (w ≠ [] ∨ options.augmentStart = true ∧ A = g.start ∧ ¬g.StartRecurs) := by
  have hexpanded : w ∈ words (g.expandedRules g.nullable) A ↔ w ∈ words g.rules A ∧ w ≠ [] :=
    mem_words_expandedRules_iff
  cases h with
  | lost hlost =>
    have hstart : ¬(w ∈ words g.rules A ∧ w = [] ∧ options.augmentStart = true ∧ A = g.start) := by
      rintro ⟨hw, rfl, haugment, rfl⟩
      exact hlost haugment hw
    rw [expandedWith, List.nil_append, hexpanded]
    grind
  | kept haugment hnil hrecurs =>
    have hkept := Augments.kept haugment hnil hrecurs
    rw [expandedWith, mem_words_append_iff (F := g.start) (by simp)
      fun s => hkept.start_notMem_right hg ⟨haugment, hnil⟩, hexpanded]
    have hstart : A = g.start → w = [] → w ∈ words g.rules A := by
      rintro rfl rfl
      exact hnil
    simp only [List.mem_singleton, exists_eq_left, Reading.form_nil, Language.mem_one]
    grind
  | renewed haugment hnil hrecurs hfresh =>
    have hrenewed := Augments.renewed haugment hnil hrecurs hfresh
    have hne : A ≠ g.freshStart := ne_of_mem_of_not_mem hA (notMem_of_fresh hfresh)
    rw [expandedWith, mem_words_append_iff (F := g.freshStart) (by simp)
      fun s => hrenewed.start_notMem_right hg ⟨haugment, hnil⟩, hexpanded]
    simp [hne, hrecurs]

theorem Augments.left_of_epsilon (h : g.Augments options new) {s : Rule}
    (hs : s ∈ (g.expandedWith new).rules) (hempty : s.right = []) :
    s.left = new.start ∧ options.augmentStart = true ∧ [] ∈ g.language := by
  have hnew : s ∈ new.rules := by
    refine (List.mem_append.mp hs).resolve_right fun hexpanded => ?_
    exact (mem_expandedRules_iff.mp hexpanded).1 hempty
  cases h with
  | lost => exact absurd hnew List.not_mem_nil
  | kept haugment hnil =>
    obtain rfl := List.mem_singleton.mp hnew
    exact ⟨rfl, haugment, hnil⟩
  | renewed haugment hnil =>
    rcases List.mem_pair.mp hnew with rfl | rfl
    · cases hempty
    · exact ⟨rfl, haugment, hnil⟩

theorem augments_of_removeEpsilon (hg : g.Valid)
    (h : (g.removeEpsilon g.nullable options a).2.result = .ok r) :
    ∃ new, g.Augments options new ∧ r = g.expandedWith new := by
  have hresult : (g.withoutEpsilon g.nullable options a).2 = .ok r := h
  rcases withoutEpsilon_cases hg options a with
    ⟨_, _, heq⟩ | ⟨_, ⟨_, heq⟩ | ⟨_, new, hnew, heq⟩⟩
  · rw [heq] at hresult
    cases hresult
  · rw [heq] at hresult
    cases hresult
  · rw [heq] at hresult
    exact ⟨new, hnew, (Except.ok.inj hresult).symm⟩

/-- The words of all nonterminals after the removal of the epsilon rules, and what becomes of the
start symbol. -/
theorem removeEpsilon_words (hg : g.Valid)
    (h : (g.removeEpsilon g.nullable options a).2.result = .ok r) :
    (∀ A ∈ g.nonterminals, ∀ w, w ∈ words r.rules A ↔
      w ∈ words g.rules A ∧
        (w ≠ [] ∨ options.augmentStart = true ∧ A = g.start ∧ ¬g.StartRecurs)) ∧
    (options.augmentStart = true → [] ∈ g.language → ¬g.StartRecurs →
      r.start = g.start ∧ r.language = g.language) ∧
    (options.augmentStart = true → [] ∈ g.language → g.StartRecurs →
      r.start.name ∉ g.symbolNames ∧ (∀ s ∈ r.rules, .nonterminal r.start ∉ s.right) ∧
        r.language = g.language) ∧
    ∀ s ∈ r.rules, s.right = [] →
      s.left = r.start ∧ options.augmentStart = true ∧ [] ∈ g.language := by
  obtain ⟨new, hnew, rfl⟩ := augments_of_removeEpsilon hg h
  clear h
  have hlanguage : options.augmentStart = true → (g.expandedWith new).language = g.language := by
    intro haugment
    ext w
    rw [hnew.language_eq hg]
    exact and_iff_left (.inl haugment)
  refine ⟨fun A hA w => hnew.mem_words_iff hg hA, fun haugment hnil hrecurs => ?_,
    fun haugment hnil hrecurs => ?_, fun s hs hempty => hnew.left_of_epsilon hs hempty⟩
  · refine ⟨?_, hlanguage haugment⟩
    cases hnew with
    | lost => rfl
    | kept => rfl
    | renewed _ _ hoccurs => exact absurd hoccurs hrecurs
  · refine ⟨?_, fun s hs => hnew.start_notMem_right hg ⟨haugment, hnil⟩ hs, hlanguage haugment⟩
    cases hnew with
    | lost hlost => exact absurd hnil (hlost haugment)
    | kept _ _ habsent => exact absurd hrecurs habsent
    | renewed _ _ _ hfresh => exact hfresh

/-- The start symbol recurs and derives the empty word, so there is a new one. -/
theorem removeEpsilon_words_loops :
    ∃ r, (loops.removeEpsilon loops.nullable { augmentStart := true } .standard).2.result = .ok r ∧
      r.start ≠ loops.start ∧ r.language = loops.language ∧ [] ∉ words r.rules ⟨"S"⟩ := by
  have hok : (loops.removeEpsilon loops.nullable { augmentStart := true }
      .standard).2.result.isOk = true := by cbv
  obtain ⟨r, hr⟩ := exists_eq_ok hok
  have hstart : loops.nullable.contains (.nonterminal ⟨"S"⟩) = true := by cbv
  have hnil : [] ∈ loops.language := start_mem_nullable_iff.mp (List.contains_iff_mem.mp hstart)
  have hrecurs : loops.StartRecurs := ⟨_, List.mem_cons_self, List.mem_cons_self⟩
  obtain ⟨hwords, _, hrenewed, _⟩ := removeEpsilon_words valid_loops hr
  obtain ⟨hfresh, _, hlanguage⟩ := hrenewed rfl hnil hrecurs
  refine ⟨r, hr, ?_, hlanguage, fun hempty => ?_⟩
  · intro heq
    rw [heq] at hfresh
    exact hfresh (by decide)
  · rcases ((hwords ⟨"S"⟩ List.mem_cons_self []).mp hempty).2 with hne | ⟨_, _, hnot⟩
    · exact hne rfl
    · exact hnot hrecurs

/-! ## Unary rules -/

/-- Which rules there are after the removal of the unary rules, and in what order, and that all
nonterminals have the same words. -/
theorem removeUnary_rules (hg : g.Valid) :
    ∃ r, g.removeUnary.result = .ok r ∧
      (∀ s ∈ r.rules, s.isUnary = false) ∧
      (∀ s : Rule, s ∈ r.rules ↔ (∀ B, s.right ≠ [.nonterminal B]) ∧
        ∃ B, UnaryReach g.rules s.left B ∧ ⟨B, s.right⟩ ∈ g.rules) ∧
      (∃ copies, r.rules = g.rules.filter (fun s => !s.isUnary) ++ copies ∧ copies.Nodup ∧
        ∀ s ∈ copies, s ∉ g.rules) ∧
      ∀ A, words r.rules A = words g.rules A := by
  obtain ⟨copies, hcopies, hresult⟩ := withoutUnary_eq hg
  have hproper : ∀ s : Rule, s.isUnary = false ↔ ∀ B, s.right ≠ [.nonterminal B] := fun s => by
    rw [← Bool.not_eq_true, Rule.isUnary_iff, not_exists]
  refine ⟨_, hresult, fun s hs => ((hcopies.mem_iff s).mp hs).1, fun s => ?_,
    ⟨copies, rfl, hcopies.nodup, fun s hs hold => ?_⟩, fun A => congrFun hcopies.words_eq A⟩
  · rw [← hproper]
    exact hcopies.mem_iff s
  · have hunary := ((hcopies.mem_iff s).mp (List.mem_append_right _ hs)).1
    exact hcopies.notMem s hs (mem_properRules_iff.mpr ⟨hold, hunary⟩)

/-- The start symbol is led to the epsilon rule through the circle, and all words stay. -/
theorem removeUnary_rules_loops :
    ∃ r, loops.removeUnary.result = .ok r ∧ ⟨⟨"S"⟩, []⟩ ∈ r.rules ∧
      (∀ s ∈ r.rules, s.isUnary = false) ∧ ∀ A, words r.rules A = words loops.rules A := by
  obtain ⟨r, hr, hproper, hmem, _, hwords⟩ := removeUnary_rules valid_loops
  have hstep : UnaryStep loops.rules ⟨"S"⟩ ⟨"A"⟩ := List.contains_iff_mem.mp (by decide)
  have hstep' : UnaryStep loops.rules ⟨"A"⟩ ⟨"B"⟩ := List.contains_iff_mem.mp (by decide)
  have hreach : UnaryReach loops.rules ⟨"S"⟩ ⟨"B"⟩ := .tail (.single hstep) hstep'
  exact ⟨r, hr, (hmem _).mpr ⟨nofun, ⟨"B"⟩, hreach, by decide⟩, hproper, hwords⟩

end Grammar

end Chomsky

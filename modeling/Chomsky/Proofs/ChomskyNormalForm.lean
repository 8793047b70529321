import Chomsky.Proofs.Normalization

/-!
# Chomsky normal form

The three promises of normalization: the language stays but for the empty word
(`normalize_language`), the result is in normal form (`normalize_normalForm`), and there is a result
unless one of four conditions on the grammar holds (`normalize_outcome`).
-/

namespace Chomsky

namespace Grammar

variable {g r : Grammar} {config : Config}

theorem checked_of_not_valid (hg : ¬g.Valid) : ∃ defect, g.checked = .error (.malformed defect) := by
  rw [checked, validated]
  cases hdefect : g.defect? with
  | none => exact absurd (defect?_eq_none_iff.mp hdefect) hg
  | some defect => exact ⟨defect, rfl⟩

theorem normalize_of_not_valid (hg : ¬g.Valid) (config : Config) :
    ∃ defect, (g.normalize config).result = .error (.malformed defect) := by
  obtain ⟨defect, hdefect⟩ := checked_of_not_valid hg
  refine ⟨defect, ?_⟩
  rw [normalize, Report.result_bind, Report.result_ofResult, hdefect]
  rfl

theorem normalize_of_emptyStem (hg : g.Valid) (hstem : config.stem = "") :
    (g.normalize config).result = .error .emptyStem := by
  rw [normalize, Report.result_bind, Report.result_ofResult, hg.checked, ok_bind,
    Report.result_bind, Report.result_ofResult, Allocator.ofStem, dif_pos hstem]
  rfl

/-- Only a valid grammar is normalized, and only with a stem for new names. -/
theorem valid_of_normalize (h : (g.normalize config).result = .ok r) :
    g.Valid ∧ config.stem ≠ "" := by
  rw [normalize, Report.result_bind, Report.result_ofResult] at h
  cases hchecked : g.checked with
  | error failure =>
    rw [hchecked] at h
    cases h
  | ok g' =>
    obtain ⟨hg, rfl⟩ := checked_eq_ok_iff.mp hchecked
    refine ⟨hg, fun hstem => ?_⟩
    rw [hchecked, ok_bind, Report.result_bind, Report.result_ofResult, Allocator.ofStem,
      dif_pos hstem] at h
    cases h

theorem normalizesTo_of_ok (h : (g.normalize config).result = .ok r) :
    g.NormalizesTo config.epsilon r := by
  obtain ⟨hg, hstem⟩ := valid_of_normalize h
  have hcases := normalization hg hstem
  rw [h] at hcases
  cases hcases with
  | done _ _ _ _ _ hr => exact hr

/-! ## An example -/

/-- As many opening brackets as closing ones, all opening ones in front. -/
def brackets : Grammar where
  start := ⟨"S"⟩
  rules := [⟨⟨"S"⟩, [.terminal ⟨"("⟩, .nonterminal ⟨"S"⟩, .terminal ⟨")"⟩]⟩, ⟨⟨"S"⟩, []⟩]
  nonterminals := [⟨"S"⟩]
  terminals := [⟨"("⟩, ⟨")"⟩]

def keepingEmpty : Config := { epsilon := { augmentStart := true } }

theorem valid_brackets : brackets.Valid := defect?_eq_none_iff.mp (by cbv)

theorem nil_mem_words_brackets : [] ∈ words brackets.rules ⟨"S"⟩ :=
  closed_words brackets.rules ⟨⟨"S"⟩, []⟩ (by decide) rfl

theorem exists_eq_ok {result : Except Failure Grammar} (h : result.isOk = true) :
    ∃ r, result = .ok r := by
  cases result with
  | ok r => exact ⟨r, rfl⟩
  | error failure => cases h

theorem exists_normalize_brackets : ∃ r, (brackets.normalize keepingEmpty).result = .ok r :=
  exists_eq_ok (by cbv)

/-! ## The language -/

/-- The words stay, and the empty one among them if that is asked for. -/
theorem normalize_language (h : (g.normalize config).result = .ok r) :
    r.language = if config.epsilon.augmentStart then g.language else g.language \ {[]} := by
  have hr := normalizesTo_of_ok h
  ext w
  rw [hr.mem_language_iff]
  cases config.epsilon.augmentStart with
  | true => exact and_iff_left (.inl rfl)
  | false =>
    show _ ↔ w ∈ g.language ∧ w ≠ []
    simp

theorem normalize_language_brackets : ∃ r, (brackets.normalize keepingEmpty).result = .ok r ∧
    r.language = brackets.language := by
  obtain ⟨r, hr⟩ := exists_normalize_brackets
  exact ⟨r, hr, normalize_language hr⟩

/-! ## The form of the rules -/

open Classical in
/-- The result is in normal form; what epsilon rules it has is settled by the options and by whether
the start symbol derives the empty word. -/
theorem normalize_normalForm (h : (g.normalize config).result = .ok r) :
    r.isInNormalForm = true ∧
      (∀ s ∈ r.rules, (∃ a, s.right = [.terminal a]) ∨
        (∃ A B, s.right = [.nonterminal A, .nonterminal B]) ∨ s.right = [] ∧ s.left = r.start) ∧
      r.rules.countP Rule.isEpsilon =
        (if config.epsilon.augmentStart = true ∧ [] ∈ g.language then 1 else 0) ∧
      ∀ s ∈ r.rules, s.right = [] → ∀ s' ∈ r.rules, .nonterminal r.start ∉ s'.right := by
  have hr := normalizesTo_of_ok h
  have hright : ∀ s ∈ r.rules, s.isEpsilon = true →
      ∀ s' ∈ r.rules, .nonterminal r.start ∉ s'.right := by
    intro s hs hepsilon
    obtain ⟨hb, _⟩ := hr.emptyAtStart.eq_of_isEpsilon hs hepsilon
    exact hr.emptyAtStart.start_notMem hb
  refine ⟨?_, fun s hs => ?_, hr.emptyAtStart.countP_eq, fun s hs hnil => ?_⟩
  · rw [isInNormalForm_iff]
    intro s hs
    rcases hr.normal s hs with hlexical | hbinary | ⟨hepsilon, hleft⟩
    · exact .inl hlexical
    · exact .inr (.inl hbinary)
    · exact .inr (.inr ⟨hepsilon, hleft, hright s hs hepsilon⟩)
  · rcases hr.normal s hs with hlexical | hbinary | ⟨hepsilon, hleft⟩
    · exact .inl (Rule.isLexical_iff.mp hlexical)
    · exact .inr (.inl (Rule.isBinary_iff.mp hbinary))
    · exact .inr (.inr ⟨Rule.isEpsilon_iff.mp hepsilon, hleft⟩)
  · exact hright s hs (Rule.isEpsilon_iff.mpr hnil)

theorem normalize_normalForm_brackets : ∃ r, (brackets.normalize keepingEmpty).result = .ok r ∧
    r.isInNormalForm = true ∧ r.rules.countP Rule.isEpsilon = 1 := by
  obtain ⟨r, hr⟩ := exists_normalize_brackets
  obtain ⟨hform, _, hcount, _⟩ := normalize_normalForm hr
  rw [if_pos ⟨rfl, nil_mem_words_brackets⟩] at hcount
  exact ⟨r, hr, hform, hcount⟩

/-! ## The kind of answer -/

/-- The kinds of answers of normalization. -/
inductive Outcome where
  | grammar
  | expansionLimit
  | nameTaken
  | emptyLanguage
  /-- Any other failure. -/
  | other
deriving DecidableEq, Repr

def Outcome.of : Except Failure Grammar → Outcome
  | .ok _ => grammar
  | .error (.expansionLimit ..) => expansionLimit
  | .error (.nameTaken _) => nameTaken
  | .error (.emptyLanguage _) => emptyLanguage
  | .error _ => other

open Classical in
/-- The first condition that holds settles the kind of answer. -/
theorem normalize_outcome (hg : g.Valid) (hstem : config.stem ≠ "") :
    Outcome.of (g.normalize config).result =
      if g.ExceedsLimit config.epsilon then .expansionLimit
      else if g.StartNameTaken config.epsilon then .nameTaken
      else if config.allowEmpty = false ∧ g.KeepsNoWord config.epsilon then .emptyLanguage
      else if ∃ p, g.reduced config (.initial config.stem hstem) = .ok p ∧ p.StemTaken config.stem
      then .nameTaken
      else .grammar := by
  have hcases := normalization hg hstem
  generalize (g.normalize config).result = result at hcases ⊢
  cases hcases with
  | overLimit h => rw [if_pos h]; rfl
  | startTaken hlimit h => rw [if_neg hlimit, if_pos h]; rfl
  | emptyLanguage hlimit hstart h hallow =>
    rw [if_neg hlimit, if_neg hstart, if_pos ⟨hallow, h⟩]
    rfl
  | stemTaken hlimit hstart hempty hp h =>
    rw [if_neg hlimit, if_neg hstart, if_neg hempty, if_pos ⟨_, hp, h⟩]
    rfl
  | done hlimit hstart hempty hp h _ =>
    have hnone : ¬∃ p, g.reduced config (.initial config.stem hstem) = .ok p ∧
        p.StemTaken config.stem := by
      intro h'
      obtain ⟨p, hp', htaken⟩ := h'
      rw [hp] at hp'
      cases hp'
      exact h htaken
    rw [if_neg hlimit, if_neg hstart, if_neg hempty, if_neg hnone]
    rfl

/-- The rule with brackets may lose the start symbol between them, but no position may be empty. -/
theorem normalize_outcome_brackets :
    Outcome.of (brackets.normalize { epsilon := { maxNullablePositions := some 0 } }).result =
      .expansionLimit := by
  have hmem : Symbol.nonterminal ⟨"S"⟩ ∈
      [Symbol.terminal ⟨"("⟩, .nonterminal ⟨"S"⟩, .terminal ⟨")"⟩] := by decide
  have hempty : brackets.DerivesEmpty (.nonterminal ⟨"S"⟩) := ⟨_, rfl, nil_mem_words_brackets⟩
  have hpos : (0 : Int) < brackets.emptyPositions
      [.terminal ⟨"("⟩, .nonterminal ⟨"S"⟩, .terminal ⟨")"⟩] := by
    rw [emptyPositions, Int.natCast_pos, List.countP_pos_iff]
    exact ⟨_, hmem, by simpa using hempty⟩
  rw [normalize_outcome valid_brackets (by decide),
    if_pos ⟨0, rfl, _, List.mem_cons_self, by decide, hpos⟩]

end Grammar

end Chomsky

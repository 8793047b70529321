import Chomsky.Proofs.ChomskyNormalForm
import Chomsky.Session

/-!
# What a session keeps

The transformations may be applied in any order, as often as one likes, and with an allocator in any
state. Each of them answers a valid grammar with the terminals and the non-empty words of the one
before, or fails in one of the ways that `Transformation.MayFail` lists for it (`answers_apply`). So
this is an invariant of sessions (`session_run`). Symbols that are given as nullable are outside of
it, since nobody checks that they are.
-/

namespace Chomsky

/-! ## Grammars as outlines -/

namespace Outline

variable {g : Grammar}

theorem rule?_fitting (r : Rule) : rule? (.fitting (.ofRule r)) = some r := by
  have hright : (r.right.map LooseSymbol.symbol).mapM LooseSymbol.symbol? = some r.right := by
    induction r.right with
    | nil => rfl
    | cons X right ih =>
      rw [List.map_cons, List.mapM_cons, ih]
      rfl
  show LooseRule.toRule? (.ofRule r) = some r
  rw [LooseRule.toRule?, LooseRule.ofRule, hright]
  rfl

theorem properPart_ofGrammar : (ofGrammar g).properPart = g := by
  have hrules : (g.rules.map fun r => Item.fitting (LooseRule.ofRule r)).filterMap rule? =
      g.rules := by
    have hsome : (rule? ∘ fun r => Item.fitting (LooseRule.ofRule r)) = some :=
      funext rule?_fitting
    rw [List.filterMap_map, hsome, List.filterMap_some]
  rw [properPart, ofGrammar, hrules]

theorem grammar?_ofGrammar : (ofGrammar g).grammar? = some g := by
  rw [grammar?, if_pos, properPart_ofGrammar]
  rw [List.all_eq_true]
  intro item hitem
  obtain ⟨r, _, rfl⟩ := List.mem_map.mp hitem
  rw [rule?_fitting]
  rfl

theorem find?_ofGrammar : ((ofGrammar g).rules.find? fun item => (rule? item).isNone) = none := by
  rw [List.find?_eq_none]
  intro item hitem
  obtain ⟨r, _, rfl⟩ := List.mem_map.mp hitem
  simp [rule?_fitting]

theorem result_removeEpsilon (options : EpsilonOptions) (a : Allocator) :
    ((ofGrammar g).removeEpsilon none options a).2.result =
      (g.withoutEpsilon g.nullable options a).2.mapError .failure := by
  simp only [removeEpsilon, grammar?_ofGrammar]
  rfl

theorem result_removeUnary :
    (ofGrammar g).removeUnary.result = g.withoutUnary.mapError .failure := by
  simp only [removeUnary, grammar?_ofGrammar]
  rfl

theorem result_removeNonproductive :
    (ofGrammar g).removeNonproductive.result = g.onlyProductive.mapError .failure := by
  simp only [removeNonproductive, grammar?_ofGrammar]
  rfl

theorem result_removeInaccessible :
    (ofGrammar g).removeInaccessible.result = g.onlyAccessible.mapError .failure := by
  simp only [removeInaccessible, grammar?_ofGrammar]
  rfl

theorem result_removeUseless :
    (ofGrammar g).removeUseless.result = g.onlyUseful.mapError .failure := by
  rw [removeUseless, Report.result_bind, result_removeNonproductive, Grammar.onlyUseful]
  cases g.onlyProductive <;> rfl

theorem result_binarize (a : Allocator) :
    ((ofGrammar g).binarize a).2.result = (g.binarized a).2.mapError .failure := by
  simp only [binarize, find?_ofGrammar, properPart_ofGrammar]
  rfl

theorem result_removeDuplicates :
    (ofGrammar g).removeDuplicates.result = g.withoutDuplicates.mapError .failure := by
  simp only [removeDuplicates, grammar?_ofGrammar]
  rfl

theorem result_normalize {config : Config} :
    ((ofGrammar g).normalize config).result = (g.normalize config).result.mapError .failure := by
  simp only [normalize, grammar?_ofGrammar]
  rfl

end Outline

theorem withAllocator_snd {α : Type} (shared : Bool) (a : Allocator)
    (run : Allocator → Allocator × α) :
    (withAllocator shared a run).2 = (run (if shared then a else .standard)).2 := by
  cases shared <;> rfl

/-! ## Single transformations -/

/-- The failures that a transformation of a valid grammar is known for. -/
def Transformation.MayFail : Transformation → Failure → Prop
  | .removeEpsilon .., .expansionLimit .. => True
  | .removeEpsilon .., .nameTaken _ => True
  | .binarize _, .nameTaken _ => True
  | .binarize _, .notReduced _ => True
  | .normalize _, .expansionLimit .. => True
  | .normalize _, .nameTaken _ => True
  | .normalize _, .emptyLanguage _ => True
  | _, _ => False

/-- Nullable symbols are computed, and new names have a stem. -/
def Transformation.IsPlain : Transformation → Prop
  | .removeEpsilon given _ _ => given = none
  | .normalize config => config.stem ≠ ""
  | _ => True

namespace Grammar

variable {g r : Grammar} {t : Transformation}

/-- The second grammar is valid and has the terminals and the non-empty words of the first. -/
structure Keeps (g r : Grammar) : Prop where
  valid : r.Valid
  terminals_eq : r.terminals = g.terminals
  mem_language_iff : ∀ w, w ≠ [] → (w ∈ r.language ↔ w ∈ g.language)

theorem Keeps.trans {r' : Grammar} (h : g.Keeps r) (h' : r.Keeps r') : g.Keeps r' where
  valid := h'.valid
  terminals_eq := h'.terminals_eq.trans h.terminals_eq
  mem_language_iff w hw := (h'.mem_language_iff w hw).trans (h.mem_language_iff w hw)

theorem Valid.keeps_self (hg : g.Valid) : g.Keeps g := ⟨hg, rfl, fun _ _ => Iff.rfl⟩

theorem Prunes.keeps (h : g.Prunes r) : g.Keeps r where
  valid := h.valid
  terminals_eq := h.terminals_eq
  mem_language_iff w _ := by rw [h.language_eq]

def Answers (g : Grammar) (t : Transformation) : Except Failure Grammar → Prop
  | .ok r => g.Keeps r
  | .error failure => t.MayFail failure

theorem answers_withoutEpsilon (hg : g.Valid) (options : EpsilonOptions) (shared : Bool)
    (a : Allocator) :
    g.Answers (.removeEpsilon none options shared) (g.withoutEpsilon g.nullable options a).2 := by
  rcases withoutEpsilon_cases hg options a with
    ⟨failure, hlimit, heq⟩ | ⟨_, ⟨_, heq⟩ | ⟨_, new, hnew, heq⟩⟩
  · obtain ⟨s, positions, limit, rfl⟩ := overLimit?_eq_some hlimit
    rw [heq]
    trivial
  · rw [heq]
    trivial
  · rw [heq]
    refine ⟨hnew.valid hg, rfl, fun w hw => ?_⟩
    rw [hnew.language_eq hg]
    exact and_iff_left (.inr hw)

theorem answers_withoutUnary (hg : g.Valid) : g.Answers .removeUnary g.withoutUnary := by
  obtain ⟨copies, hcopies, heq⟩ := withoutUnary_eq hg
  rw [heq]
  refine ⟨hcopies.valid hg, rfl, fun w _ => ?_⟩
  rw [language, hcopies.words_eq]
  rfl

theorem answers_binarized (hg : g.Valid) (shared : Bool) (a : Allocator) :
    g.Answers (.binarize shared) (g.binarized a).2 := by
  by_cases haccept : ∀ r ∈ g.rules, Binarization.accepts g.start r = true
  · rcases binarized_of_accepted hg haccept with ⟨_, r, hr, heq⟩ | ⟨_, later, name, heq⟩
    · rw [heq]
      refine ⟨hr.valid, hr.terminals_eq, fun w _ => ?_⟩
      rw [hr.language_eq]
    · rw [heq]
      trivial
  · push Not at haccept
    obtain ⟨r, hr, hrefused⟩ := haccept
    obtain ⟨later, failure, heq, ⟨name, rfl⟩ | ⟨s, _, rfl⟩⟩ :=
      binarized_of_refused hr (Bool.eq_false_iff.mpr hrefused)
    · rw [heq]
      trivial
    · rw [heq]
      trivial

theorem answers_normalize (hg : g.Valid) {config : Config} (hstem : config.stem ≠ "") :
    g.Answers (.normalize config) (g.normalize config).result := by
  have hcases := normalization hg hstem
  generalize (g.normalize config).result = result at hcases ⊢
  cases hcases with
  | overLimit => trivial
  | startTaken => trivial
  | emptyLanguage => trivial
  | stemTaken => trivial
  | done _ _ _ _ _ hr =>
    refine ⟨hr.valid, hr.terminals_eq, fun w hw => ?_⟩
    rw [hr.mem_language_iff]
    exact and_iff_left (.inr hw)

theorem answers_onlyProductive (hg : g.Valid) : g.Answers .removeNonproductive g.onlyProductive := by
  obtain ⟨r, heq, hprunes, _⟩ := onlyProductive_prunes hg
  rw [heq]
  exact hprunes.keeps

theorem answers_onlyAccessible (hg : g.Valid) : g.Answers .removeInaccessible g.onlyAccessible := by
  obtain ⟨r, heq, hprunes, _⟩ := onlyAccessible_prunes hg
  rw [heq]
  exact hprunes.keeps

theorem answers_onlyUseful (hg : g.Valid) : g.Answers .removeUseless g.onlyUseful := by
  obtain ⟨r, heq, hprunes, _⟩ := onlyUseful_prunes hg
  rw [heq]
  exact hprunes.keeps

theorem answers_withoutDuplicates (hg : g.Valid) :
    g.Answers .removeDuplicates g.withoutDuplicates := by
  rw [withoutDuplicates_eq hg]
  exact hg.prunes_eraseDups.keeps

/-- A transformation treats a grammar among the outlines as the grammar. -/
theorem answers_apply (hg : g.Valid) (ht : t.IsPlain) (a : Allocator) :
    ∃ result, (t.apply (.ofGrammar g) a).2.result = result.mapError .failure ∧
      g.Answers t result := by
  cases t with
  | removeEpsilon given options shared =>
    obtain rfl : given = none := ht
    refine ⟨_, ?_, answers_withoutEpsilon hg options shared (if shared then a else .standard)⟩
    rw [Transformation.apply, withAllocator_snd, Outline.result_removeEpsilon]
  | removeUnary => exact ⟨_, Outline.result_removeUnary, answers_withoutUnary hg⟩
  | removeNonproductive =>
    exact ⟨_, Outline.result_removeNonproductive, answers_onlyProductive hg⟩
  | removeInaccessible =>
    exact ⟨_, Outline.result_removeInaccessible, answers_onlyAccessible hg⟩
  | removeUseless => exact ⟨_, Outline.result_removeUseless, answers_onlyUseful hg⟩
  | binarize shared =>
    refine ⟨_, ?_, answers_binarized hg shared (if shared then a else .standard)⟩
    rw [Transformation.apply, withAllocator_snd, Outline.result_binarize]
  | removeDuplicates => exact ⟨_, Outline.result_removeDuplicates, answers_withoutDuplicates hg⟩
  | normalize config => exact ⟨_, Outline.result_normalize, answers_normalize hg ht⟩

end Grammar

/-! ## Runs -/

namespace Session

/-- The session after these transformations, the failed ones among them skipped. -/
def run (s : Session) (ts : List Transformation) : Session :=
  ts.foldl (fun s t => (s.transform t).1) s

/-- The current outline is a grammar that keeps what has to stay. -/
def Holds (g₀ : Grammar) (s : Session) : Prop := ∃ g, s.current = .ofGrammar g ∧ g₀.Keeps g

variable {g₀ : Grammar} {s : Session} {t : Transformation}

/-- Every transformation keeps the invariant, and fails only in the ways known for it. -/
theorem transform_holds (h : s.Holds g₀) (ht : t.IsPlain) :
    (s.transform t).1.Holds g₀ ∧ ∀ fault, (s.transform t).2.result = .error fault →
      ∃ failure, fault = .failure failure ∧ t.MayFail failure := by
  obtain ⟨g, hcurrent, hkeeps⟩ := h
  obtain ⟨result, hresult, hanswers⟩ := Grammar.answers_apply hkeeps.valid ht s.allocator
  rw [transform, hcurrent]
  generalize t.apply (.ofGrammar g) s.allocator = applied at hresult
  obtain ⟨a, report⟩ := applied
  change report.result = _ at hresult
  -- a failed transformation changes the allocator only
  cases result with
  | ok r =>
    replace hresult : report.result = .ok r := hresult
    simp only [hresult]
    refine ⟨⟨r, rfl, hkeeps.trans hanswers⟩, fun fault hfault => ?_⟩
    cases hfault
  | error failure =>
    replace hresult : report.result = .error (.failure failure) := hresult
    simp only [hresult]
    refine ⟨⟨g, rfl, hkeeps⟩, fun fault hfault => ?_⟩
    cases hfault
    exact ⟨failure, rfl, hanswers⟩

theorem run_holds {ts : List Transformation} (h : s.Holds g₀) (hts : ∀ t ∈ ts, t.IsPlain) :
    (s.run ts).Holds g₀ := by
  induction ts generalizing s with
  | nil => exact h
  | cons t ts ih =>
    obtain ⟨ht, hts⟩ := List.forall_mem_cons.mp hts
    exact ih (transform_holds h ht).1 hts

/-- Whatever was done before, the current grammar is well formed and has the terminals and the
non-empty words that the session began with, and the next transformation fails in no other way than
those known for it. -/
theorem session_run (hg : g₀.Valid) (hs : s.current = .ofGrammar g₀) (ts : List Transformation)
    (hts : ∀ t ∈ ts, t.IsPlain) :
    (∃ g, (s.run ts).current = .ofGrammar g ∧ g.Valid ∧ g.terminals = g₀.terminals ∧
      ∀ w, w ≠ [] → (w ∈ g.language ↔ w ∈ g₀.language)) ∧
    ∀ t : Transformation, t.IsPlain → ∀ fault,
      ((s.run ts).transform t).2.result = .error fault →
      ∃ failure, fault = .failure failure ∧ t.MayFail failure := by
  have hholds : (s.run ts).Holds g₀ := run_holds ⟨g₀, hs, hg.keeps_self⟩ hts
  refine ⟨?_, fun t ht => (transform_holds hholds ht).2⟩
  obtain ⟨g, hcurrent, hkeeps⟩ := hholds
  exact ⟨g, hcurrent, hkeeps.valid, hkeeps.terminals_eq, hkeeps.mem_language_iff⟩

/-- The first binarization fails at the unary rule of the new start symbol, the second one does not. -/
theorem session_run_brackets :
    ∃ g, (({ current := .ofGrammar .brackets, allocator := .standard } : Session).run
        [.removeEpsilon none { augmentStart := true } true, .binarize true, .removeUnary,
          .binarize false, .normalize {}]).current = .ofGrammar g ∧
      g.Valid ∧ g.terminals = Grammar.brackets.terminals ∧
      ∀ w, w ≠ [] → (w ∈ g.language ↔ w ∈ Grammar.brackets.language) := by
  have hplain : ∀ t ∈ [Transformation.removeEpsilon none { augmentStart := true } true,
      .binarize true, .removeUnary, .binarize false, .normalize {}], t.IsPlain := by
    simp [Transformation.IsPlain]
  exact (session_run Grammar.valid_brackets rfl _ hplain).1

end Session

end Chomsky

import Chomsky.Proofs.IntroducedNames
import Chomsky.Proofs.Renaming

/-!
# The order of rules does not matter

Grammars that differ in the order of their rules are normalized to grammars that differ in the order of
their rules and in the numbers of new nonterminals, or both are refused, for the same kind of reason.
The conditions under which normalization fails are about what a grammar derives and which names it
declares; only which rule or name is reported may depend on the order.
-/

namespace Chomsky

/-- What kind of failure it is, without what it is about. -/
inductive Failure.Kind where
  | malformed
  | expansionLimit
  | nameTaken
  | emptyStem
  | notReduced
  | emptyLanguage
  | undeclared
  | negativeLength
deriving DecidableEq, Repr

def Failure.kind : Failure → Kind
  | malformed _ => .malformed
  | expansionLimit .. => .expansionLimit
  | nameTaken _ => .nameTaken
  | emptyStem => .emptyStem
  | notReduced _ => .notReduced
  | emptyLanguage _ => .emptyLanguage
  | undeclared _ => .undeclared
  | negativeLength => .negativeLength

/-- Both are results, or both are failures of one kind. -/
inductive SameKind {α : Type} : Except Failure α → Except Failure α → Prop
  | error {failure failure' : Failure} (h : failure.kind = failure'.kind) :
      SameKind (.error failure) (.error failure')
  | ok (a a' : α) : SameKind (.ok a) (.ok a')

namespace Grammar

variable {g g' r r' : Grammar} {config : Config} {a : Allocator}

/-- Under the same conditions normalization answers in the same way. -/
theorem Normalization.sameKind {x x' : Except Failure Grammar} (h : g.Normalization config a x)
    (h' : g'.Normalization config a x')
    (hlimit : g'.ExceedsLimit config.epsilon ↔ g.ExceedsLimit config.epsilon)
    (hstart : g'.StartNameTaken config.epsilon ↔ g.StartNameTaken config.epsilon)
    (hempty : g'.KeepsNoWord config.epsilon ↔ g.KeepsNoWord config.epsilon)
    (hstem : ∀ p p', g.reduced config a = .ok p → g'.reduced config a = .ok p' →
      (p'.StemTaken config.stem ↔ p.StemTaken config.stem)) : SameKind x x' := by
  cases h with
  | overLimit hover =>
    rw [← hlimit] at hover
    cases h' with
    | overLimit => exact .error rfl
    | startTaken hnot | emptyLanguage hnot | stemTaken hnot | done hnot => exact absurd hover hnot
  | startTaken hover htaken =>
    rw [← hlimit] at hover
    rw [← hstart] at htaken
    cases h' with
    | overLimit hover' => exact absurd hover' hover
    | startTaken => exact .error rfl
    | emptyLanguage _ hnot | stemTaken _ hnot | done _ hnot => exact absurd htaken hnot
  | emptyLanguage hover htaken hno hallow =>
    rw [← hlimit] at hover
    rw [← hstart] at htaken
    rw [← hempty] at hno
    cases h' with
    | overLimit hover' => exact absurd hover' hover
    | startTaken _ htaken' => exact absurd htaken' htaken
    | emptyLanguage => exact .error rfl
    | stemTaken _ _ hnot | done _ _ hnot => exact absurd ⟨hallow, hno⟩ hnot
  | stemTaken hover htaken hno hp hused =>
    rw [← hlimit] at hover
    rw [← hstart] at htaken
    rw [← hempty] at hno
    cases h' with
    | overLimit hover' => exact absurd hover' hover
    | startTaken _ htaken' => exact absurd htaken' htaken
    | emptyLanguage _ _ hno' hallow => exact absurd ⟨hallow, hno'⟩ hno
    | stemTaken => exact .error rfl
    | done _ _ _ hp' hnot => exact absurd ((hstem _ _ hp hp').mpr hused) hnot
  | done hover htaken hno hp hunused =>
    rw [← hlimit] at hover
    rw [← hstart] at htaken
    rw [← hempty] at hno
    cases h' with
    | overLimit hover' => exact absurd hover' hover
    | startTaken _ htaken' => exact absurd htaken' htaken
    | emptyLanguage _ _ hno' hallow => exact absurd ⟨hallow, hno'⟩ hno
    | stemTaken _ _ _ hp' hused => exact absurd ((hstem _ _ hp hp').mp hused) hunused
    | done => exact .ok _ _

theorem Reorders.sameKind (h : g.Reorders g') :
    SameKind (g.normalize config).result (g'.normalize config).result := by
  by_cases hg : g.Valid
  · by_cases hstem : config.stem = ""
    · rw [normalize_of_emptyStem hg hstem, normalize_of_emptyStem (h.valid hg) hstem]
      exact .error rfl
    · exact (normalization hg hstem).sameKind (normalization (h.valid hg) hstem) h.exceedsLimit_iff
        h.startNameTaken_iff h.keepsNoWord_iff fun p p' hp hp' => (h.reduced hg hp hp').stemTaken_iff
  · obtain ⟨_, hdefect⟩ := normalize_of_not_valid hg config
    obtain ⟨_, hdefect'⟩ := normalize_of_not_valid (fun hg' => hg (h.symm.valid hg')) config
    rw [hdefect, hdefect']
    exact .error rfl

/-- If the rules come in another order, normalization fails in the same way or answers the same grammar
but for the order of the rules and the names of new nonterminals, which are the same altogether. -/
theorem normalize_reorders (h : g.Reorders g') (config : Config) :
    SameKind (g.normalize config).result (g'.normalize config).result ∧
    ∀ r r', (g.normalize config).result = .ok r → (g'.normalize config).result = .ok r' →
      (g'.normalize config).introduced = (g.normalize config).introduced ∧
      ∃ σ, r.RenamesTo (g.normalize config).introduced σ r' := by
  refine ⟨h.sameKind, fun r r' hr hr' => ?_⟩
  obtain ⟨hstem, new, p, hstages⟩ := stages_of_ok hr
  obtain ⟨_, new', p', hstages'⟩ := stages_of_ok hr'
  have hp : p.Reorders p' := h.reduced hstages.valid hstages.reduced hstages'.reduced
  obtain rfl : new = new' := (h.augments hstages.augments).unique hstages'.augments
  obtain ⟨σ, hσ⟩ := hp.binarizedWith hstages.reduces.valid hstages.reduces.accepted hstages.free
  rw [hstages.introduced, hstages'.introduced, hp.introduced_eq]
  refine ⟨rfl, σ, (hσ.uniqueIf hstages.finished hstages'.finished).extend fun X hX hnew => ?_⟩
  -- a new start symbol is there before binarization
  exact notMem_of_fresh (hstages.numbered_name hnew) (hstages.augmentation_mem hX)

/-- The terminals are numbered in the order in which they come up, so the numbers of both depend on
which rule is the first one. -/
def crossed : Grammar where
  start := ⟨"S"⟩
  rules := [⟨⟨"S"⟩, [.terminal ⟨"a"⟩, .terminal ⟨"b"⟩]⟩, ⟨⟨"S"⟩, [.terminal ⟨"b"⟩, .terminal ⟨"a"⟩]⟩]
  nonterminals := [⟨"S"⟩]
  terminals := [⟨"a"⟩, ⟨"b"⟩]

def uncrossed : Grammar := { crossed with rules := crossed.rules.reverse }

theorem reorders_crossed : crossed.Reorders uncrossed :=
  ⟨rfl, rfl, rfl, (List.reverse_perm _).symm⟩

theorem normalize_reorders_crossed : ∃ r r' σ, (crossed.normalize {}).result = .ok r ∧
    (uncrossed.normalize {}).result = .ok r' ∧ r.RenamesTo [⟨"X1"⟩, ⟨"X2"⟩] σ r' := by
  have hok : (crossed.normalize {}).result.isOk = true := by cbv
  have hok' : (uncrossed.normalize {}).result.isOk = true := by cbv
  have hintroduced : (crossed.normalize {}).introduced = [⟨"X1"⟩, ⟨"X2"⟩] := by cbv
  obtain ⟨r, hr⟩ := exists_eq_ok hok
  obtain ⟨r', hr'⟩ := exists_eq_ok hok'
  obtain ⟨_, hsame⟩ := normalize_reorders reorders_crossed {}
  obtain ⟨_, σ, hσ⟩ := hsame r r' hr hr'
  rw [hintroduced] at hσ
  exact ⟨r, r', σ, hr, hr', hσ⟩

end Grammar

end Chomsky

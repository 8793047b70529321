import Chomsky.Proofs.ChomskyNormalForm

/-!
# The stages of a normalization

A normalization that answers a grammar has put an augmentation in front of the expanded rules, trimmed
the result, binarized what was left, and dropped repetitions if they are not wanted (`stages_of_ok`).
What it introduced on the way is what its diagnostics tell: the nonterminals of the augmentation, and
behind them those of the binarization. Its report is put together from those of the phases
(`normalize_eq_finish`, `finish_eq`), and whatever it tells can be read off them.
-/

namespace Chomsky

/-! ## Reports one after the other -/

def Diagnostic.introduced? : Diagnostic → Option Nonterminal
  | introduced A => some A
  | _ => none

namespace Report

variable {ε α β : Type} {x : Report ε α} {y : Report ε β} {f : α → Report ε β} {a : α}

/-- The second report, with what the first one told in front. -/
def followedBy (x : Report ε α) (y : Report ε β) : Report ε β :=
  ⟨y.result, x.diagnostics ++ y.diagnostics, x.milestones ++ y.milestones⟩

theorem bind_of_ok (h : x.result = .ok a) : (x >>= f) = x.followedBy (f a) := by
  show x.bind f = _
  rw [bind, h]
  rfl

theorem bind_of_error {failure : ε} (h : x.result = .error failure) :
    (x >>= f) = x.followedBy (ofResult (.error failure)) := by
  show x.bind f = _
  rw [bind, h]
  simp [followedBy, ofResult]

/-- The nonterminals that were introduced on the way, first one first. -/
def introduced (x : Report ε α) : List Nonterminal := x.diagnostics.filterMap Diagnostic.introduced?

@[simp] theorem result_followedBy : (x.followedBy y).result = y.result := rfl

@[simp] theorem introduced_followedBy :
    (x.followedBy y).introduced = x.introduced ++ y.introduced := List.filterMap_append

@[simp] theorem milestones_followedBy :
    (x.followedBy y).milestones = x.milestones ++ y.milestones := rfl

@[simp] theorem introduced_ofResult (result : Except ε α) : (ofResult result).introduced = [] := rfl

@[simp] theorem milestones_ofResult (result : Except ε α) : (ofResult result).milestones = [] := rfl

@[simp] theorem introduced_mark (m : Milestone) : (mark m : Report ε Unit).introduced = [] := rfl

@[simp] theorem milestones_mark (m : Milestone) : (mark m : Report ε Unit).milestones = [m] := rfl

end Report

/-! ## Introduced nonterminals -/

/-- The allocator with which binarization begins. -/
def Augmentation.allocator (new : Augmentation) (stem : String) (h : stem ≠ "") : Allocator :=
  { Allocator.initial stem h with minted := new.nonterminals }

namespace Grammar

variable {g q u p b r : Grammar} {config : Config} {a later : Allocator} {copies : List Rule}

theorem filterMap_introduced (l : List Nonterminal) :
    (l.map Diagnostic.introduced).filterMap Diagnostic.introduced? = l := by
  rw [List.filterMap_map]
  exact List.filterMap_some

theorem exists_removeEpsilon {nullable : List Symbol} {options : EpsilonOptions}
    {result : Except Failure Grammar}
    (h : g.withoutEpsilon nullable options a = (later, result)) :
    ∃ step, g.removeEpsilon nullable options a = (later, step) ∧ step.result = result ∧
      step.milestones = [] :=
  ⟨_, Prod.ext (by rw [allocator_removeEpsilon, h]) rfl, by rw [result_removeEpsilon, h], rfl⟩

theorem introduced_removeEpsilon {nullable : List Symbol} {options : EpsilonOptions} :
    (g.removeEpsilon nullable options a).2.introduced =
      a.mintedSince (g.withoutEpsilon nullable options a).1 := filterMap_introduced _

theorem introduced_deduplicateIf (wanted : Bool) : (g.deduplicateIf wanted).introduced = [] := by
  cases wanted <;> rfl

theorem introduced_removeUnary : g.removeUnary.introduced = [] := by
  refine List.filterMap_eq_nil_iff.mpr fun d hd => ?_
  change d ∈ g.unaryDiagnostics at hd
  rw [unaryDiagnostics] at hd
  cases hclosure : g.unaryClosure with
  | error failure =>
    rw [hclosure] at hd
    exact absurd hd List.not_mem_nil
  | ok closure =>
    rw [hclosure] at hd
    obtain ⟨_, _, rfl⟩ := List.mem_map.mp hd
    rfl

theorem introduced_removal (reason : Uselessness) (kept : List Nonterminal) :
    (g.removalDiagnostics reason kept).filterMap Diagnostic.introduced? = [] := by
  rw [removalDiagnostics]
  split <;> rfl

theorem introduced_removeUseless : g.removeUseless.introduced = [] := by
  have hfirst : g.removeNonproductive.introduced = [] := introduced_removal _ _
  have hsecond : ∀ p : Grammar, p.removeInaccessible.introduced = [] := fun p =>
    introduced_removal _ _
  rw [removeUseless]
  cases hresult : g.removeNonproductive.result with
  | error failure =>
    rw [Report.bind_of_error hresult, Report.introduced_followedBy, hfirst]
    rfl
  | ok p =>
    rw [Report.bind_of_ok hresult, Report.introduced_followedBy, hfirst, hsecond]
    rfl

theorem introduced_reportEmpty (allowEmpty : Bool) :
    (g.reportEmpty allowEmpty).introduced = [] := by
  unfold reportEmpty
  cases g.isEmpty <;> cases allowEmpty <;> rfl

theorem exists_binarize {result : Except Failure Grammar} (h : g.binarized a = (later, result)) :
    ∃ step, g.binarize a = (later, step) ∧ step.result = result ∧ step.milestones = [] := by
  have hlater : (g.binarize a).1 = later := congrArg Prod.fst h
  exact ⟨_, Prod.ext hlater rfl, congrArg Prod.snd h, rfl⟩

theorem introduced_binarize :
    (g.binarize a).2.introduced = a.mintedSince (g.binarized a).1 := by
  rw [binarize]
  rcases g.binarized a with ⟨later, result⟩
  show List.filterMap _ (_ ++ _) = _
  rw [List.filterMap_append, filterMap_introduced]
  rcases result with ⟨⟨⟩⟩ | _ <;> exact List.append_nil _

/-! ## The run of a normalization -/

/-- What is left to do for normalization when all phases but binarization are done. -/
def finish (p : Grammar) (config : Config) (a : Allocator) : Report Failure Grammar := do
  p.reportEmpty config.allowEmpty
  let (a, step) := p.binarize a
  let r ← (← step).deduplicateIf config.deduplicate
  .mark (.phase r.summary (.binarize a.minted))
  .mark (.done r.summary)
  return r

/-- The grammars that normalization goes through, if the removal of epsilon rules answers `q`. -/
theorem normalize_eq_finish (hg : g.Valid) {hstem : config.stem ≠ ""}
    (hepsilon : g.withoutEpsilon g.nullable config.epsilon (.initial config.stem hstem) = (a, .ok q))
    (htrims : q.Trims config.deduplicate u copies p) :
    g.normalize config =
      (Report.ofResult g.checked).followedBy
        ((Report.ofResult (Allocator.ofStem config.stem)).followedBy
        ((Report.mark (.start g.summary)).followedBy
        ((g.removeEpsilon g.nullable config.epsilon (.initial config.stem hstem)).2.followedBy
        ((q.deduplicateIf config.deduplicate).followedBy
        ((Report.mark (.phase u.summary (.epsilon (Symbol.sort g.nullable)))).followedBy
        (u.removeUnary.followedBy
        ((Report.mark
          (.phase { u with rules := u.properRules ++ copies : Grammar }.summary .unary)).followedBy
        ({ u with rules := u.properRules ++ copies : Grammar }.removeUseless.followedBy
        ((Report.mark (.phase p.summary .useless)).followedBy (p.finish config a)))))))))) := by
  have hchecked : (Report.ofResult g.checked).result = .ok g := hg.checked
  have hinitial : (Report.ofResult (Allocator.ofStem config.stem)).result =
      .ok (.initial config.stem hstem) := Allocator.ofStem_eq hstem
  obtain ⟨step, hstep, hq, _⟩ := exists_removeEpsilon hepsilon
  have hu : (q.deduplicateIf config.deduplicate).result = .ok u :=
    (result_deduplicateIf _).trans htrims.unique
  have hproper : u.removeUnary.result = .ok { u with rules := u.properRules ++ copies } :=
    htrims.withoutUnary
  have hp : ({ u with rules := u.properRules ++ copies } : Grammar).removeUseless.result = .ok p :=
    result_removeUseless.trans htrims.useful
  rw [normalize, Report.bind_of_ok hchecked, Report.bind_of_ok hinitial,
    Report.bind_of_ok (Report.result_mark _)]
  simp only [hstep]
  rw [Report.bind_of_ok hq, Report.bind_of_ok hu, Report.bind_of_ok (Report.result_mark _),
    Report.bind_of_ok hproper, Report.bind_of_ok (Report.result_mark _), Report.bind_of_ok hp,
    Report.bind_of_ok (Report.result_mark _)]
  rfl

/-- The grammars from binarization on, if that answers `b`. -/
theorem finish_eq (hreport : (p.reportEmpty config.allowEmpty).result = .ok ())
    (hbinarized : p.binarized a = (later, .ok b))
    (hunique : b.uniqueIf config.deduplicate = .ok r) :
    p.finish config a =
      (p.reportEmpty config.allowEmpty).followedBy
        ((p.binarize a).2.followedBy
        ((b.deduplicateIf config.deduplicate).followedBy
        ((Report.mark (.phase r.summary (.binarize later.minted))).followedBy
        ((Report.mark (.done r.summary)).followedBy (.ofResult (.ok r)))))) := by
  obtain ⟨step, hstep, hb, _⟩ := exists_binarize hbinarized
  have hr : (b.deduplicateIf config.deduplicate).result = .ok r :=
    (result_deduplicateIf _).trans hunique
  rw [finish, Report.bind_of_ok hreport]
  simp only [hstep]
  rw [Report.bind_of_ok hb, Report.bind_of_ok hr, Report.bind_of_ok (Report.result_mark _),
    Report.bind_of_ok (Report.result_mark _)]
  rfl

/-- Only the removal of epsilon rules and binarization introduce nonterminals. -/
theorem introduced_normalize (hg : g.Valid) {hstem : config.stem ≠ ""}
    (hepsilon : g.withoutEpsilon g.nullable config.epsilon (.initial config.stem hstem) = (a, .ok q))
    (htrims : q.Trims config.deduplicate u copies p)
    (hreport : (p.reportEmpty config.allowEmpty).result = .ok ())
    (hbinarized : p.binarized a = (later, .ok b))
    (hunique : b.uniqueIf config.deduplicate = .ok r) :
    (g.normalize config).introduced =
      (Allocator.initial config.stem hstem).mintedSince a ++ a.mintedSince later := by
  rw [normalize_eq_finish hg hepsilon htrims, finish_eq hreport hbinarized hunique]
  simp [introduced_removeEpsilon, introduced_deduplicateIf, introduced_removeUnary,
    introduced_removeUseless, introduced_reportEmpty, introduced_binarize, hepsilon, hbinarized]

/-! ## Stages -/

/-- The stages of a normalization that answers `r`: the augmentation `new`, and the grammar `p` that
is left for binarization. -/
structure Stages (g : Grammar) (config : Config) (h : config.stem ≠ "") (new : Augmentation)
    (p r : Grammar) : Prop where
  valid : g.Valid
  limit : ¬g.ExceedsLimit config.epsilon
  kept : ¬(config.allowEmpty = false ∧ g.KeepsNoWord config.epsilon)
  augments : g.Augments config.epsilon new
  trimmed : (g.expandedWith new).trimmed config.deduplicate = .ok p
  reduced : g.reduced config (.initial config.stem h) = .ok p
  reduces : g.Reduces config.epsilon p
  start_eq : p.start = new.start
  free : (new.allocator config.stem h).FreeNext p.symbolNames p.mintCount
  finished : (p.binarizedWith (new.allocator config.stem h)).uniqueIf config.deduplicate = .ok r
  introduced : (g.normalize config).introduced =
    new.nonterminals ++ p.introduced (new.allocator config.stem h)

theorem Stages.exists_trims {hstem : config.stem ≠ ""} {new : Augmentation} {p : Grammar}
    (h : g.Stages config hstem new p r) :
    ∃ u copies, (g.expandedWith new).Trims config.deduplicate u copies p :=
  Trims.of_trimmed (h.augments.valid h.valid) h.trimmed

/-- What a normalization that answers a grammar has gone through. -/
theorem stages_of_ok (h : (g.normalize config).result = .ok r) :
    ∃ hstem new p, g.Stages config hstem new p r := by
  obtain ⟨hg, hstem⟩ := valid_of_normalize h
  have hcases := normalization hg hstem
  rw [h] at hcases
  cases hcases with
  | @done p _ hlimit hstart hempty hp hfree hr =>
    obtain ⟨new, hnew, hepsilon, htrimmed, hreduces, hp'⟩ := reduced_eq_ok hg hp
    change g.withoutEpsilon _ _ _ =
      (new.allocator config.stem hstem, .ok (g.expandedWith new)) at hepsilon
    have hmem : ∀ X ∈ new.nonterminals, X ∈ p.nonterminals :=
      fun X hX => hnew.mem_of_reduces hreduces hp' hX
    have hfree' : (new.allocator config.stem hstem).FreeNext p.symbolNames p.mintCount :=
      (freeNext_iff_not_stemTaken hmem).mpr hfree
    have hbinarized := binarized_of_free hreduces.valid hreduces.accepted hfree'
    have hguard : (p.isEmpty && !config.allowEmpty) = false := by
      rw [Bool.eq_false_iff, ne_eq, Bool.and_eq_true, Bool.not_eq_true',
        hreduces.isEmpty_iff_keepsNoWord, and_comm]
      exact hempty
    have hreport : (p.reportEmpty config.allowEmpty).result = .ok () := by
      rw [result_reportEmpty, hguard]
      rfl
    have hfinished : (p.binarizedWith (new.allocator config.stem hstem)).uniqueIf
        config.deduplicate = .ok r := by
      rw [normalize_result hg hstem, hp] at h
      simp only [hepsilon, ok_bind, hguard, hbinarized] at h
      exact h
    obtain ⟨u, copies, htrims⟩ := Trims.of_trimmed (hnew.valid hg) htrimmed
    exact ⟨hstem, new, p, hg, hlimit, hempty, hnew, htrimmed, hp, hreduces, hp', hfree', hfinished,
      introduced_normalize hg hepsilon htrims hreport hbinarized hfinished⟩

end Grammar

end Chomsky

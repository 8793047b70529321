import Chomsky.Proofs.Settled

/-!
# The milestones of a normalization

The phases report no milestones of their own; normalization sets one behind each of them. `Log` lists
what it can answer together with all that it has reported by then, and `log_normalize` shows that
there is nothing else, on any grammar and with any configuration.
-/

namespace Chomsky

namespace Grammar

variable {g q u p b r : Grammar} {config : Config} {a later : Allocator} {copies : List Rule}

/-! ## The phases -/

theorem milestones_removeEpsilon (nullable : List Symbol) (options : EpsilonOptions)
    (a : Allocator) : (g.removeEpsilon nullable options a).2.milestones = [] := rfl

theorem milestones_deduplicateIf (wanted : Bool) : (g.deduplicateIf wanted).milestones = [] := by
  cases wanted <;> rfl

theorem milestones_removeUnary : g.removeUnary.milestones = [] := rfl

theorem milestones_removeUseless : g.removeUseless.milestones = [] := by
  rw [removeUseless]
  cases hresult : g.removeNonproductive.result with
  | error failure =>
    rw [Report.bind_of_error hresult]
    rfl
  | ok p =>
    rw [Report.bind_of_ok hresult]
    rfl

theorem milestones_binarize (a : Allocator) : (g.binarize a).2.milestones = [] := rfl

theorem milestones_reportEmpty (allowEmpty : Bool) :
    (g.reportEmpty allowEmpty).milestones = if g.isEmpty then [.emptyLanguage g.start] else [] := by
  unfold reportEmpty
  cases g.isEmpty <;> cases allowEmpty <;> rfl

/-! ## Before binarization -/

/-- What has been reported when binarization begins. -/
def reductionLog (g u v p : Grammar) : List Milestone :=
  [.start g.summary, .phase u.summary (.epsilon (Symbol.sort g.nullable)),
    .phase v.summary .unary, .phase p.summary .useless]

theorem milestones_of_notValid (hg : ¬g.Valid) : (g.normalize config).milestones = [] := by
  obtain ⟨defect, hdefect⟩ := checked_of_not_valid hg
  have hchecked : (Report.ofResult g.checked).result = .error (.malformed defect) := hdefect
  rw [normalize, Report.bind_of_error hchecked]
  rfl

theorem milestones_of_emptyStem (hg : g.Valid) (hstem : config.stem = "") :
    (g.normalize config).milestones = [] := by
  have hchecked : (Report.ofResult g.checked).result = .ok g := hg.checked
  have hinitial : (Report.ofResult (Allocator.ofStem config.stem)).result = .error .emptyStem :=
    dif_pos hstem
  rw [normalize, Report.bind_of_ok hchecked, Report.bind_of_error hinitial]
  rfl

theorem milestones_of_epsilonFailure (hg : g.Valid) {hstem : config.stem ≠ ""} {failure : Failure}
    (h : g.withoutEpsilon g.nullable config.epsilon (.initial config.stem hstem) =
      (a, .error failure)) :
    (g.normalize config).result = .error failure ∧
      (g.normalize config).milestones = [.start g.summary] := by
  have hchecked : (Report.ofResult g.checked).result = .ok g := hg.checked
  have hinitial : (Report.ofResult (Allocator.ofStem config.stem)).result =
      .ok (.initial config.stem hstem) := Allocator.ofStem_eq hstem
  obtain ⟨step, hstep, hfailure, hnone⟩ := exists_removeEpsilon h
  rw [normalize, Report.bind_of_ok hchecked, Report.bind_of_ok hinitial,
    Report.bind_of_ok (Report.result_mark _)]
  simp only [hstep]
  rw [Report.bind_of_error hfailure]
  refine ⟨rfl, ?_⟩
  simp [hnone]

theorem result_of_trims (hg : g.Valid) {hstem : config.stem ≠ ""}
    (hepsilon : g.withoutEpsilon g.nullable config.epsilon (.initial config.stem hstem) = (a, .ok q))
    (htrims : q.Trims config.deduplicate u copies p) :
    (g.normalize config).result = (p.finish config a).result := by
  rw [normalize_eq_finish hg hepsilon htrims]
  rfl

theorem milestones_of_trims (hg : g.Valid) {hstem : config.stem ≠ ""}
    (hepsilon : g.withoutEpsilon g.nullable config.epsilon (.initial config.stem hstem) = (a, .ok q))
    (htrims : q.Trims config.deduplicate u copies p) :
    (g.normalize config).milestones =
      g.reductionLog u { u with rules := u.properRules ++ copies } p ++
        (p.finish config a).milestones := by
  rw [normalize_eq_finish hg hepsilon htrims]
  simp [reductionLog, milestones_removeEpsilon, milestones_deduplicateIf, milestones_removeUnary,
    milestones_removeUseless]

/-! ## From binarization on -/

/-- A grammar is empty when all is done just if it was empty before binarization. -/
theorem isEmpty_of_finished (hp : p.Valid) (hb : p.Binarizes (p.introduced a) b) {wanted : Bool}
    (hr : b.uniqueIf wanted = .ok r) : r.isEmpty = p.isEmpty := by
  obtain ⟨r', hr', hprunes⟩ := uniqueIf_prunes hb.valid wanted
  obtain rfl : r' = r := Except.ok.inj (hr'.symm.trans hr)
  have hN : r'.nonterminals = p.nonterminals ++ p.introduced a := by
    rw [eq_of_uniqueIf hr]
    exact hb.nonterminals_eq
  rw [Bool.eq_iff_iff, hprunes.valid.isEmpty_iff_nonterminals, hN, List.append_eq_nil_iff,
    hp.isEmpty_iff_nonterminals]
  exact and_iff_left_of_imp fun h => introduced_of_isEmpty (hp.isEmpty_iff_nonterminals.mpr h)

theorem finish_of_forbidden (h : (p.isEmpty && !config.allowEmpty) = true) :
    (p.finish config a).result = .error (.emptyLanguage p.start) ∧
      (p.finish config a).milestones = [.emptyLanguage p.start] := by
  have hreport : (p.reportEmpty config.allowEmpty).result = .error (.emptyLanguage p.start) := by
    rw [result_reportEmpty, if_pos h]
  obtain ⟨hempty, _⟩ := Bool.and_eq_true_iff.mp h
  rw [finish, Report.bind_of_error hreport]
  refine ⟨rfl, ?_⟩
  simp [milestones_reportEmpty, hempty]

theorem finish_of_taken (hreport : (p.reportEmpty config.allowEmpty).result = .ok ())
    {failure : Failure} (hbin : p.binarized a = (later, .error failure)) :
    (p.finish config a).result = .error failure ∧
      (p.finish config a).milestones = if p.isEmpty then [.emptyLanguage p.start] else [] := by
  obtain ⟨step, hstep, hfailure, hnone⟩ := exists_binarize hbin
  rw [finish, Report.bind_of_ok hreport]
  simp only [hstep]
  rw [Report.bind_of_error hfailure]
  refine ⟨rfl, ?_⟩
  simp [milestones_reportEmpty, hnone]

theorem milestones_of_finished (hreport : (p.reportEmpty config.allowEmpty).result = .ok ())
    (hbin : p.binarized a = (later, .ok b)) (hr : b.uniqueIf config.deduplicate = .ok r) :
    (p.finish config a).milestones = (if p.isEmpty then [.emptyLanguage p.start] else []) ++
      [.phase r.summary (.binarize later.minted), .done r.summary] := by
  rw [finish_eq hreport hbin hr]
  simp [milestones_reportEmpty, milestones_binarize, milestones_deduplicateIf]

/-! ## The log -/

/-- What is known of the grammars that the first three phases leave. -/
structure Passes (g : Grammar) (config : Config) (u v p : Grammar) : Prop where
  valid : g.Valid
  start_cases : p.start = g.start ∨ p.start = g.freshStart
  emptyAtStart : u.EmptyAtStart (config.epsilon.augmentStart = true ∧ [] ∈ g.language)
  proper : ∀ s ∈ v.rules, s.isUnary = false
  useful_proper : ∀ s ∈ p.rules, s.isUnary = false

theorem Trims.passes (hg : g.Valid) {new : Augmentation} (hnew : g.Augments config.epsilon new)
    (h : (g.expandedWith new).Trims config.deduplicate u copies p) :
    g.Passes config u { u with rules := u.properRules ++ copies } p where
  valid := hg
  start_cases := by
    rw [h.prunes_useful.start_eq, show _ = _ from h.prunes_unique.start_eq]
    exact hnew.start_cases
  emptyAtStart := h.prunes_unique.emptyAtStart (hnew.emptyAtStart hg)
  proper s hs := ((h.unary.mem_iff s).mp hs).1
  useful_proper s hs := ((h.unary.mem_iff s).mp (h.prunes_useful.rules_sublist.subset hs)).1

/-- What normalization can answer, and what it has reported then. -/
inductive Log (g : Grammar) (config : Config) : Except Failure Grammar → List Milestone → Prop
  | malformed {defect : Malformed} : g.Log config (.error (.malformed defect)) []
  | emptyStem : g.Log config (.error .emptyStem) []
  | overLimit {r : Rule} {positions : Nat} {limit : Int} :
      g.Log config (.error (.expansionLimit r positions limit)) [.start g.summary]
  | startTaken (h : g.StartNameTaken config.epsilon) :
      g.Log config (.error (.nameTaken g.freshStart.name)) [.start g.summary]
  | emptyLanguage {u v p : Grammar} (h : g.Passes config u v p) :
      g.Log config (.error (.emptyLanguage p.start))
        (g.reductionLog u v p ++ [.emptyLanguage p.start])
  | stemTaken {u v p : Grammar} {name : String} (hstart : ¬g.StartNameTaken config.epsilon)
      (h : g.Passes config u v p) :
      g.Log config (.error (.nameTaken name)) (g.reductionLog u v p)
  | done {u v p r : Grammar} (h : g.Passes config u v p) (hr : g.NormalizesTo config.epsilon r) :
      g.Log config (.ok r) (g.reductionLog u v p ++
        ((if r.isEmpty then [.emptyLanguage r.start] else []) ++
          [.phase r.summary (.binarize (g.normalize config).introduced), .done r.summary]))

/-- Binarization fails on no empty grammar, for that needs no names. -/
theorem isEmpty_of_taken (h : ¬a.FreeNext p.symbolNames p.mintCount) : p.isEmpty = false := by
  refine Bool.eq_false_iff.mpr fun hempty => h fun i hi hn => ?_
  rw [mintCount_of_isEmpty hempty] at hn
  omega

/-- All nonterminals that the allocator has introduced at the end were introduced on the way. -/
theorem minted_after (a : Allocator) (n : Nat) {stem : String} (h : stem ≠ "") :
    (a.after n).minted = (Allocator.initial stem h).mintedSince a ++ a.mintedSince (a.after n) := by
  simp [Allocator.mintedSince, Allocator.after, Allocator.initial]

/-- What comes out if nothing fails before binarization. -/
theorem log_of_trims (hg : g.Valid) {hstem : config.stem ≠ ""}
    (hstart : ¬g.StartNameTaken config.epsilon)
    (hepsilon : g.withoutEpsilon g.nullable config.epsilon (.initial config.stem hstem) = (a, .ok q))
    (htrims : q.Trims config.deduplicate u copies p) (hreduces : g.Reduces config.epsilon p)
    (hpasses : g.Passes config u { u with rules := u.properRules ++ copies } p) :
    g.Log config (g.normalize config).result (g.normalize config).milestones := by
  have hresult := result_of_trims hg hepsilon htrims
  rw [milestones_of_trims hg hepsilon htrims]
  cases hguard : p.isEmpty && !config.allowEmpty with
  | true =>
    obtain ⟨hend, hlog⟩ := finish_of_forbidden (a := a) hguard
    rw [hresult, hend, hlog]
    exact .emptyLanguage hpasses
  | false =>
    have hreport : (p.reportEmpty config.allowEmpty).result = .ok () := by
      rw [result_reportEmpty, hguard]
      rfl
    rcases binarized_of_accepted (a := a) hreduces.valid hreduces.accepted with
      ⟨_, b, hb, hbin⟩ | ⟨hnot, later, name, hbin⟩
    · obtain ⟨r, hr, hprunes⟩ := uniqueIf_prunes hb.valid config.deduplicate
      have hok : (g.normalize config).result = .ok r := by
        rw [hresult, finish_eq hreport hbin hr]
        rfl
      have hminted : (a.after p.mintCount).minted = (g.normalize config).introduced := by
        rw [introduced_normalize hg hepsilon htrims hreport hbin hr]
        exact minted_after a _ hstem
      rw [hok, milestones_of_finished hreport hbin hr, hminted,
        ← isEmpty_of_finished hreduces.valid hb hr, ← hb.start_eq, ← hprunes.start_eq]
      exact .done hpasses (normalizesTo_of_ok hok)
    · obtain ⟨hend, hlog⟩ := finish_of_taken hreport hbin
      have hnone : (p.finish config a).milestones = [] := by
        rw [hlog, isEmpty_of_taken hnot]
        rfl
      rw [hresult, hend, hnone, List.append_nil]
      exact .stemTaken hstart hpasses

/-- Whatever the grammar and the configuration are, normalization answers and reports what `Log`
lists. -/
theorem log_normalize (g : Grammar) (config : Config) :
    g.Log config (g.normalize config).result (g.normalize config).milestones := by
  by_cases hg : g.Valid
  case neg =>
    obtain ⟨defect, hdefect⟩ := normalize_of_not_valid hg config
    rw [hdefect, milestones_of_notValid hg]
    exact .malformed
  by_cases hstem : config.stem = ""
  case pos =>
    rw [normalize_of_emptyStem hg hstem, milestones_of_emptyStem hg hstem]
    exact .emptyStem
  rcases withoutEpsilon_cases hg config.epsilon (.initial config.stem hstem) with
    ⟨failure, hlimit, hepsilon⟩ | ⟨_, ⟨htaken, hepsilon⟩ | ⟨htaken, new, hnew, hepsilon⟩⟩
  · obtain ⟨s, positions, limit, rfl⟩ := overLimit?_eq_some hlimit
    obtain ⟨hresult, hlog⟩ := milestones_of_epsilonFailure hg hepsilon
    rw [hresult, hlog]
    exact .overLimit
  · obtain ⟨hresult, hlog⟩ := milestones_of_epsilonFailure hg hepsilon
    rw [hresult, hlog]
    exact .startTaken (startTaken_initial_iff.mp htaken)
  · obtain ⟨p, htrimmed, hreduces, _⟩ := hnew.reduces hg config.deduplicate
    obtain ⟨u, copies, htrims⟩ := Trims.of_trimmed (hnew.valid hg) htrimmed
    exact log_of_trims hg (fun h => htaken (startTaken_initial_iff.mpr h)) hepsilon htrims hreduces
      (htrims.passes hg hnew)

end Grammar

end Chomsky

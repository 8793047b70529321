import Chomsky.Outline.Phases
import Chomsky.Proofs.Milestones
import Chomsky.Proofs.SessionInvariant

/-!
# What a normalization tells its event log

Which events there are depends on the answer alone, but for a name that is taken: it may be the new
start symbol's or one for binarization (`Outline.Traces`). What the events tell of the grammars on the
way is what the phases promise (`Outline.Tells`). Both hold for outlines of any kind
(`normalize_events`); one that is no grammar is refused before the first event.
-/

namespace Chomsky

/-! ## Labels -/

/-- What an event is recognized by: its type, and the phase that its data name, if they name one. -/
abbrev Label := String × Option Json

namespace Label

def start : Label := ("start", none)

def phase (name : String) : Label := ("phase", some (.string name))

def emptyLanguage : Label := ("empty_language", none)

def done : Label := ("done", none)

/-- All that comes before binarization. -/
def reduction : List Label := [start, phase "epsilon", phase "unary", phase "useless"]

/-- All that comes until a grammar is answered, which may be empty. -/
def complete (empty : Bool) : List Label :=
  reduction ++ ((if empty then [emptyLanguage] else []) ++ [phase "binarize", done])

end Label

def Phase.name : Phase → String
  | epsilon _ => "epsilon"
  | unary => "unary"
  | useless => "useless"
  | binarize _ => "binarize"

namespace Milestone

def label (m : Milestone) : Label := (m.kind, m.data.field? "phase")

theorem label_phase (size : Summary) (p : Phase) : (phase size p).label = .phase p.name := by
  cases p <;> rfl

theorem name_of_label {size : Summary} {p : Phase} {name : String}
    (h : (phase size p).label = .phase name) : p.name = name := by
  rw [label_phase] at h
  exact Json.string.inj (Option.some.inj (congrArg Prod.snd h))

theorem kind_eq_of_label {m : Milestone} {l : Label} (h : m.label = l) : m.kind = l.1 :=
  congrArg Prod.fst h

theorem label_phase_ne_done (size : Summary) (p : Phase) : (phase size p).label ≠ .done :=
  fun h => (by decide : "phase" ≠ "done") (kind_eq_of_label h)

theorem field_epsilonRules (size : Summary) (p : Phase) :
    (phase size p).data.field? "epsilon_rules" = some (.int size.epsilonRules) := rfl

theorem field_unaryRules (size : Summary) (p : Phase) :
    (phase size p).data.field? "unary_rules" = some (.int size.unaryRules) := rfl

end Milestone

/-! ## Figures -/

theorem pairwise_le_mergeSort (names : List String) :
    (names.mergeSort fun m n => !decide (n < m)).Pairwise (· ≤ ·) := by
  refine (List.pairwise_mergeSort (fun a b c hab hbc => ?_) (fun a b => ?_) names).imp fun h => ?_
  · simp only [Bool.not_eq_true', decide_eq_false_iff_not, not_lt] at hab hbc ⊢
    exact hab.trans hbc
  · simp only [Bool.or_eq_true, Bool.not_eq_true', decide_eq_false_iff_not, not_lt]
    exact le_total a b
  · simpa only [Bool.not_eq_true', decide_eq_false_iff_not, not_lt] using h

namespace Grammar

variable {g : Grammar}

theorem unaryRules_summary (h : ∀ s ∈ g.rules, s.isUnary = false) :
    g.summary.unaryRules = 0 :=
  List.countP_eq_zero.mpr fun s hs => by simp [h s hs]

open Classical in
/-- The size of a grammar as events tell it: how many symbols and rules it has, and how many of the
rules have nothing or a single nonterminal on the right. -/
noncomputable def sizeFields (g : Grammar) : List (String × Json) :=
  [("nonterminals", .int g.nonterminals.length), ("terminals", .int g.terminals.length),
    ("rules", .int g.rules.length),
    ("epsilon_rules", .int (g.rules.countP fun s => decide (s.right = []))),
    ("unary_rules", .int (g.rules.countP fun s => decide (∃ A, s.right = [.nonterminal A])))]

open Classical in
theorem isUnary_eq_decide (s : Rule) : s.isUnary = decide (∃ A, s.right = [.nonterminal A]) := by
  rw [Bool.eq_iff_iff, decide_eq_true_iff]
  exact Rule.isUnary_iff

theorem fields_summary (g : Grammar) : g.summary.fields = g.sizeFields := by
  classical
  have hepsilon : Rule.isEpsilon = fun s => decide (s.right = []) := by
    funext s
    rw [Rule.isEpsilon, Bool.eq_iff_iff, decide_eq_true_iff]
    exact List.isEmpty_iff
  have hunary : Rule.isUnary = fun s => decide (∃ A, s.right = [.nonterminal A]) :=
    funext isUnary_eq_decide
  rw [sizeFields, ← hepsilon, ← hunary]
  rfl

/-- The nullable nonterminals are told by name, in order and each once. -/
theorem Valid.nullable_names (hg : g.Valid) :
    ((Symbol.sort g.nullable).map Symbol.name).Pairwise (· < ·) ∧
      ∀ n, n ∈ (Symbol.sort g.nullable).map Symbol.name ↔
        ∃ A ∈ g.nonterminals, A.name = n ∧ Derives g.rules [.nonterminal A] [] := by
  have hsort : (Symbol.sort g.nullable).map Symbol.name =
      (g.nullable.map Symbol.name).mergeSort fun m n => !decide (n < m) := by
    refine List.map_mergeSort fun X hX Y hY => ?_
    obtain ⟨A, _, rfl, _⟩ := hg.mem_nullable_iff_derives.mp hX
    obtain ⟨B, _, rfl, _⟩ := hg.mem_nullable_iff_derives.mp hY
    rfl
  have hnodup : (g.nullable.map Symbol.name).Nodup := by
    refine nodup_nullable.map_on fun X hX Y hY hname => ?_
    obtain ⟨⟨m⟩, _, rfl, _⟩ := hg.mem_nullable_iff_derives.mp hX
    obtain ⟨⟨n⟩, _, rfl, _⟩ := hg.mem_nullable_iff_derives.mp hY
    obtain rfl : m = n := hname
    rfl
  rw [hsort]
  refine ⟨?_, fun n => ?_⟩
  · have hsorted := pairwise_le_mergeSort (g.nullable.map Symbol.name)
    have hdistinct := ((List.mergeSort_perm _ _).nodup_iff.mpr hnodup :
      ((g.nullable.map Symbol.name).mergeSort fun m n => !decide (n < m)).Nodup)
    exact hsorted.imp₂ (fun m n hle hne => lt_of_le_of_ne hle hne) hdistinct
  · rw [List.mem_mergeSort, List.mem_map]
    constructor
    · intro h
      obtain ⟨X, hX, rfl⟩ := h
      obtain ⟨A, hA, rfl, hderives⟩ := hg.mem_nullable_iff_derives.mp hX
      exact ⟨A, hA, rfl, hderives⟩
    · intro h
      obtain ⟨A, hA, rfl, hderives⟩ := h
      exact ⟨_, hg.mem_nullable_iff_derives.mpr ⟨A, hA, rfl, hderives⟩, rfl⟩

end Grammar

namespace Outline

open Grammar

variable {o : Outline} {g p r u v : Grammar} {config : Config} {m : Milestone}
  {result : Except Failure Grammar} {log : List Milestone}

/-! ## Which events there are -/

/-- What normalization can answer, with the labels of the events up to then. -/
inductive Traces (o : Outline) (config : Config) : Except Fault Grammar → List Label → Prop
  | noGrammar {fault : Fault} (h : o.grammar? = none) : o.Traces config (.error fault) []
  | malformed {defect : Malformed} : o.Traces config (.error (.failure (.malformed defect))) []
  | emptyStem : o.Traces config (.error (.failure .emptyStem)) []
  | overLimit {r : Rule} {positions : Nat} {limit : Int} :
      o.Traces config (.error (.failure (.expansionLimit r positions limit))) [.start]
  | startTaken (h : o.properPart.StartNameTaken config.epsilon) :
      o.Traces config (.error (.failure (.nameTaken (o.start.name ++ "0")))) [.start]
  | emptyLanguage {A : Nonterminal} :
      o.Traces config (.error (.failure (.emptyLanguage A)))
        (Label.reduction ++ [.emptyLanguage])
  | stemTaken {name : String} (h : ¬o.properPart.StartNameTaken config.epsilon) :
      o.Traces config (.error (.failure (.nameTaken name))) Label.reduction
  | done {r : Grammar} : o.Traces config (.ok r) (Label.complete r.isEmpty)

theorem map_label_reductionLog : (g.reductionLog u v p).map Milestone.label = Label.reduction := rfl

theorem traces_of_log (h : o.properPart.Log config result log) :
    o.Traces config (result.mapError .failure) (log.map Milestone.label) := by
  cases h with
  | malformed => exact .malformed
  | emptyStem => exact .emptyStem
  | overLimit => exact .overLimit
  | startTaken h => exact .startTaken h
  | emptyLanguage =>
    rw [List.map_append, map_label_reductionLog]
    exact .emptyLanguage
  | stemTaken h => exact .stemTaken h
  | @done _ _ _ r =>
    have hlabels : ((if r.isEmpty then [Milestone.emptyLanguage r.start] else []) ++
        [Milestone.phase r.summary (.binarize (o.properPart.normalize config).introduced),
          .done r.summary]).map Milestone.label =
        (if r.isEmpty then [Label.emptyLanguage] else []) ++ [.phase "binarize", .done] := by
      cases r.isEmpty <;> rfl
    rw [List.map_append, map_label_reductionLog, hlabels]
    exact .done

/-! ## What the events tell -/

open Classical in
/-- What the event of a milestone tells of the normalization that reports it. -/
structure Tells (o : Outline) (config : Config) (m : Milestone) : Prop where
  nullable : m.label = .phase "epsilon" → ∃ names : List String,
    m.data.field? "nullable" = some (.ofStrings names) ∧ names.Pairwise (· < ·) ∧
      ∀ n, n ∈ names ↔ ∃ A ∈ o.nonterminals, A.name = n ∧
        Derives o.properPart.rules [.nonterminal A] []
  epsilonRules : m.label = .phase "epsilon" → m.data.field? "epsilon_rules" = some (.int
    (if config.epsilon.augmentStart = true ∧ Derives o.properPart.rules [.nonterminal o.start] []
      then 1 else 0))
  unaryRules : ∀ phase ∈ ["unary", "useless", "binarize"], m.label = .phase phase →
    m.data.field? "unary_rules" = some (.int 0)
  introduced : m.label = .phase "binarize" → m.data.field? "new_nonterminals" =
    some (.ofStrings ((o.normalize config).introduced.map Nonterminal.name))
  done : m.label = .done → ∃ r, (o.normalize config).result = .ok r ∧
    m.data = .object r.sizeFields

theorem Tells.of_no_phase (h : m.kind ≠ "phase")
    (hdone : m.kind = "done" → ∃ r, (o.normalize config).result = .ok r ∧
      m.data = .object r.sizeFields) : o.Tells config m where
  nullable hlabel := absurd (Milestone.kind_eq_of_label hlabel) h
  epsilonRules hlabel := absurd (Milestone.kind_eq_of_label hlabel) h
  unaryRules _ _ hlabel := absurd (Milestone.kind_eq_of_label hlabel) h
  introduced hlabel := absurd (Milestone.kind_eq_of_label hlabel) h
  done hlabel := hdone (Milestone.kind_eq_of_label hlabel)

theorem Tells.of_start (size : Summary) : o.Tells config (.start size) :=
  .of_no_phase (by decide : "start" ≠ "phase") fun h => absurd h (by decide : "start" ≠ "done")

theorem Tells.of_emptyLanguage (A : Nonterminal) : o.Tells config (.emptyLanguage A) :=
  .of_no_phase (by decide : "empty_language" ≠ "phase")
    fun h => absurd h (by decide : "empty_language" ≠ "done")

open Classical in
theorem Tells.of_epsilon (h : o.properPart.Passes config u v p) :
    o.Tells config (.phase u.summary (.epsilon (Symbol.sort o.properPart.nullable))) where
  nullable _ := ⟨_, rfl, h.valid.nullable_names⟩
  epsilonRules _ := by
    rw [Milestone.field_epsilonRules]
    show some (Json.int ↑(u.rules.countP Rule.isEpsilon)) = _
    rw [h.emptyAtStart.countP_eq, Nat.cast_ite]
    rfl
  unaryRules name hname hlabel := by
    obtain rfl : "epsilon" = name := Milestone.name_of_label hlabel
    exact absurd hname (by decide)
  introduced hlabel :=
    absurd (Milestone.name_of_label hlabel) (by decide : "epsilon" ≠ "binarize")
  done hlabel := absurd hlabel (Milestone.label_phase_ne_done _ _)

theorem Tells.of_later {phase : Phase} (hphase : phase.name ≠ "epsilon")
    (hproper : ∀ s ∈ r.rules, s.isUnary = false)
    (hintroduced : ∀ l, phase = .binarize l → l = (o.normalize config).introduced) :
    o.Tells config (.phase r.summary phase) where
  nullable hlabel := absurd (Milestone.name_of_label hlabel) hphase
  epsilonRules hlabel := absurd (Milestone.name_of_label hlabel) hphase
  unaryRules _ _ _ := by
    rw [Milestone.field_unaryRules, unaryRules_summary hproper]
    rfl
  introduced hlabel := by
    have hname := Milestone.name_of_label hlabel
    cases phase with
    | binarize l =>
      rw [← hintroduced l rfl]
      rfl
    | epsilon _ => exact absurd hname (by decide : "epsilon" ≠ "binarize")
    | unary => exact absurd hname (by decide)
    | useless => exact absurd hname (by decide)
  done hlabel := absurd hlabel (Milestone.label_phase_ne_done _ _)

theorem Tells.of_reductionLog (h : o.properPart.Passes config u v p)
    (hm : m ∈ o.properPart.reductionLog u v p) : o.Tells config m := by
  simp only [reductionLog, List.mem_cons, List.not_mem_nil, or_false] at hm
  rcases hm with rfl | rfl | rfl | rfl
  · exact .of_start _
  · exact .of_epsilon h
  · refine .of_later (by decide : "unary" ≠ "epsilon") h.proper fun _ hphase => ?_
    cases hphase
  · refine .of_later (by decide : "useless" ≠ "epsilon") h.useful_proper fun _ hphase => ?_
    cases hphase

theorem tells_of_log (ho : o.normalize config = (o.properPart.normalize config).mapError .failure)
    (hresult : (o.properPart.normalize config).result = result)
    (h : o.properPart.Log config result log) (hm : m ∈ log) : o.Tells config m := by
  cases h with
  | malformed | emptyStem => exact absurd hm List.not_mem_nil
  | overLimit | startTaken =>
    obtain rfl := List.mem_singleton.mp hm
    exact .of_start _
  | emptyLanguage h =>
    rcases List.mem_append.mp hm with hm | hm
    · exact .of_reductionLog h hm
    · obtain rfl := List.mem_singleton.mp hm
      exact .of_emptyLanguage _
  | stemTaken _ h => exact .of_reductionLog h hm
  | @done _ _ _ r h hr =>
    have hintroduced : (o.normalize config).introduced =
        (o.properPart.normalize config).introduced := by
      rw [ho]
      rfl
    have hok : (o.normalize config).result = .ok r := by
      rw [ho]
      exact congrArg (Except.mapError _) hresult
    simp only [List.mem_append, List.mem_cons, List.not_mem_nil, or_false] at hm
    rcases hm with hm | hm | rfl | rfl
    · exact .of_reductionLog h hm
    · obtain rfl : m = .emptyLanguage r.start := by
        split at hm
        · exact List.mem_singleton.mp hm
        · exact absurd hm List.not_mem_nil
      exact .of_emptyLanguage _
    · have hproper : ∀ s ∈ r.rules, s.isUnary = false := fun s hs =>
        isUnary_of_normal (hr.normal s hs)
      refine .of_later (by decide : "binarize" ≠ "epsilon") hproper fun l hl => ?_
      rw [hintroduced]
      exact (Phase.binarize.inj hl).symm
    · refine .of_no_phase (by decide : "done" ≠ "phase") fun _ => ⟨r, hok, ?_⟩
      rw [← fields_summary]
      rfl

/-! ## Outlines that are no grammars -/

theorem eq_of_looseRules {items : List (Item LooseRule)} {rules : List LooseRule}
    (h : looseRules items = .ok rules) : items = rules.map .fitting := by
  induction items generalizing rules with
  | nil =>
    cases h
    rfl
  | cons item items ih =>
    rw [looseRules, List.mapM_cons] at h
    cases item with
    | foreign value => cases h
    | fitting r =>
      change (looseRules items >>= fun rest => pure (r :: rest)) = .ok rules at h
      cases hrest : looseRules items with
      | error fault =>
        rw [hrest] at h
        cases h
      | ok rest =>
        rw [hrest] at h
        cases h
        rw [ih hrest, List.map_cons]

theorem proper_of_splitProper {rules : List LooseRule} (h : (splitProper rules).2 = []) :
    ∀ r ∈ rules, r.toRule?.isSome = true := by
  have hlength : rules.length ≤
      ((rules.takeWhile fun r => r.toRule?.isSome).filterMap LooseRule.toRule?).length :=
    List.drop_eq_nil_iff.mp h
  have hall := (List.takeWhile_prefix fun r : LooseRule => r.toRule?.isSome).eq_of_length_le
    (hlength.trans (List.length_filterMap_le _ _))
  exact List.takeWhile_eq_self_iff.mp hall

/-- No grammar comes out of an outline that is none. -/
theorem checked_of_noGrammar (h : o.grammar? = none) : ∃ fault, o.checked = .error fault := by
  cases hrules : looseRules o.rules with
  | error fault => exact ⟨fault, by simp only [checked, hrules, bind, Except.bind]⟩
  | ok rules =>
    rcases hsplit : splitProper rules with ⟨proper, rest⟩
    simp only [checked, hrules, hsplit, bind, Except.bind]
    cases hchecked : Grammar.checked ⟨o.start, proper, o.nonterminals, o.terminals⟩ with
    | error failure => exact ⟨_, rfl⟩
    | ok g =>
      cases rest with
      | cons r rest =>
        simp only [Except.mapError]
        split <;> exact ⟨_, rfl⟩
      | nil =>
        have hproper := proper_of_splitProper (congrArg Prod.snd hsplit)
        have hall : (o.rules.all fun item => (rule? item).isSome) = true := by
          rw [eq_of_looseRules hrules, List.all_map]
          exact List.all_eq_true.mpr hproper
        rw [grammar?, if_pos hall] at h
        cases h

/-! ## The event log -/

theorem normalize_of_grammar (h : o.grammar? = some g) (config : Config) :
    o.normalize config = (o.properPart.normalize config).mapError .failure := by
  obtain rfl : o.properPart = g := by
    rw [grammar?] at h
    split at h
    · exact Option.some.inj h
    · cases h
  simp only [normalize, h]

/-- On success there is an event for the start, one for each phase and one for the end, and one more
if the language turns out to be empty; a failure cuts this off. The events tell what is nullable, how
many epsilon rules and unary rules are left, what was introduced, and the size of the result. -/
theorem normalize_events (o : Outline) (config : Config) :
    o.Traces config (o.normalize config).result
        ((o.normalize config).milestones.map Milestone.label) ∧
      ∀ m ∈ (o.normalize config).milestones, o.Tells config m := by
  cases hgrammar : o.grammar? with
  | none =>
    obtain ⟨fault, hfault⟩ := checked_of_noGrammar hgrammar
    have hnone : o.normalize config = .ofResult (.error fault) := by
      simp only [normalize, hgrammar, hfault]
    rw [hnone]
    exact ⟨.noGrammar hgrammar, fun m hm => absurd hm List.not_mem_nil⟩
  | some g =>
    have ho := normalize_of_grammar hgrammar config
    have hlog := log_normalize o.properPart config
    refine ⟨?_, fun m hm => tells_of_log ho rfl hlog ?_⟩
    · rw [ho]
      exact traces_of_log hlog
    · rw [ho] at hm
      exact hm

/-- The brackets are normalized, so all events are there; and the empty word stays. -/
theorem normalize_events_brackets :
    ∃ r, ((ofGrammar brackets).normalize keepingEmpty).result = .ok r ∧
      ((ofGrammar brackets).normalize keepingEmpty).milestones.map Milestone.label =
        Label.complete r.isEmpty ∧
      ∃ m ∈ ((ofGrammar brackets).normalize keepingEmpty).milestones,
        m.label = .phase "epsilon" ∧ m.data.field? "epsilon_rules" = some (.int 1) := by
  obtain ⟨r, hr⟩ := exists_normalize_brackets
  have hresult : ((ofGrammar brackets).normalize keepingEmpty).result = .ok r := by
    rw [result_normalize, hr]
    rfl
  obtain ⟨htraces, htells⟩ := normalize_events (ofGrammar brackets) keepingEmpty
  have hlabels : ((ofGrammar brackets).normalize keepingEmpty).milestones.map Milestone.label =
      Label.complete r.isEmpty := by
    rw [hresult] at htraces
    generalize List.map _ _ = labels at htraces ⊢
    cases htraces
    rfl
  have hmem : Label.phase "epsilon" ∈
      ((ofGrammar brackets).normalize keepingEmpty).milestones.map Milestone.label := by
    rw [hlabels]
    exact List.mem_append_left _ (List.mem_cons_of_mem _ List.mem_cons_self)
  obtain ⟨m, hm, hlabel⟩ := List.mem_map.mp hmem
  refine ⟨r, hresult, hlabels, m, hm, hlabel, ?_⟩
  rw [(htells m hm).epsilonRules hlabel, properPart_ofGrammar]
  exact congrArg (fun n : Int => some (Json.int n)) (if_pos ⟨rfl, nil_mem_words_brackets⟩)

end Outline

end Chomsky

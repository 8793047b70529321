import Chomsky.Proofs.Reduction

/-!
# What normalization does

`normalization` lists what `Grammar.normalize` can answer on a valid grammar, each answer with the
condition under which it comes: three kinds of failure, and a grammar that `NormalizesTo` describes.
The conditions are about what the grammar derives, not about how the phases find that out.
-/

namespace Chomsky

/-! ## Results of reports -/

namespace Report

variable {ε α β : Type} (x : Report ε α)

@[simp] theorem result_bind (f : α → Report ε β) :
    (x >>= f).result = x.result >>= fun a => (f a).result := by
  show (x.bind f).result = _
  rw [bind]
  cases x.result <;> rfl

@[simp] theorem result_pure (a : α) : (pure a : Report ε α).result = pure a := rfl

@[simp] theorem result_ofResult (result : Except ε α) : (ofResult result).result = result := rfl

@[simp] theorem result_mark (m : Milestone) : (mark m : Report ε Unit).result = .ok () := rfl

end Report

namespace Grammar

variable {g r : Grammar} {config : Config}

theorem result_deduplicateIf (wanted : Bool) :
    (g.deduplicateIf wanted).result = g.uniqueIf wanted := by cases wanted <;> rfl

theorem result_removeUseless : g.removeUseless.result = g.onlyUseful := by
  rw [removeUseless, Report.result_bind]
  rfl

theorem result_reportEmpty (allowEmpty : Bool) :
    (g.reportEmpty allowEmpty).result =
      if g.isEmpty && !allowEmpty then .error (.emptyLanguage g.start) else .ok () := by
  unfold reportEmpty
  cases g.isEmpty <;> cases allowEmpty <;> rfl

end Grammar

def Allocator.initial (stem : String) (h : stem ≠ "") : Allocator := { stem, stem_ne := h }

theorem Allocator.ofStem_eq {stem : String} (h : stem ≠ "") :
    Allocator.ofStem stem = .ok (.initial stem h) := dif_neg h

namespace Grammar

variable {g r : Grammar} {config : Config}

theorem ok_bind {ε α β : Type} (x : α) (f : α → Except ε β) : (.ok x >>= f) = f x := rfl

theorem error_bind {ε α β : Type} (e : ε) (f : α → Except ε β) : (.error e >>= f) = .error e := rfl

theorem guard_bind {α : Type} (b : Bool) (failure : Failure) (f : Unit → Except Failure α) :
    ((if b then .error failure else .ok ()) >>= f) = if b then .error failure else f () := by
  cases b <;> rfl

/-- The result of normalization, without what is reported on the way. -/
theorem normalize_result (hg : g.Valid) (hstem : config.stem ≠ "") :
    (g.normalize config).result = (do
      let p ← g.reduced config (.initial config.stem hstem)
      if p.isEmpty && !config.allowEmpty then .error (.emptyLanguage p.start) else do
        let (a, _) := g.withoutEpsilon g.nullable config.epsilon (.initial config.stem hstem)
        let r ← (p.binarized a).2
        r.uniqueIf config.deduplicate) := by
  simp only [normalize, Report.result_bind, Report.result_ofResult, hg.checked,
    Allocator.ofStem_eq hstem, Report.result_mark, result_deduplicateIf, result_removeUseless,
    result_reportEmpty, Report.result_pure, reduced, bind_assoc, ok_bind, guard_bind,
    bind_pure]
  rfl

/-! ## Conditions -/

/-- A nonterminal from which the empty word can be derived. -/
def DerivesEmpty (g : Grammar) (X : Symbol) : Prop := ∃ A, X = .nonterminal A ∧ [] ∈ words g.rules A

open Classical in
/-- How many positions of a right side hold such a nonterminal. -/
noncomputable def emptyPositions (g : Grammar) (right : List Symbol) : Nat :=
  right.countP fun X => decide (g.DerivesEmpty X)

/-- Some rule that is no epsilon rule has more such positions than are allowed. -/
def ExceedsLimit (g : Grammar) (options : EpsilonOptions) : Prop :=
  ∃ limit, options.maxNullablePositions = some limit ∧
    ∃ r ∈ g.rules, r.right ≠ [] ∧ limit < (g.emptyPositions r.right : Int)

/-- A new start symbol is needed, and its name is in use. -/
def StartNameTaken (g : Grammar) (options : EpsilonOptions) : Prop :=
  options.augmentStart = true ∧ [] ∈ g.language ∧ g.StartRecurs ∧
    g.start.name ++ "0" ∈ g.symbolNames

/-- None of the words has to stay. -/
def KeepsNoWord (g : Grammar) (options : EpsilonOptions) : Prop :=
  if options.augmentStart then ∀ w, w ∉ g.language else ∀ w ∈ g.language, w = []

/-- One of the names that binarization needs is in use. -/
def StemTaken (p : Grammar) (stem : String) : Prop :=
  ∃ i, 1 ≤ i ∧ i ≤ p.mintCount ∧ stem ++ toString i ∈ p.symbolNames

theorem mem_symbol_words_iff {X : Symbol} :
    [] ∈ (words g.rules).symbol X ↔ g.DerivesEmpty X := by
  cases X with
  | nonterminal A => simp [DerivesEmpty]
  | terminal a =>
    constructor
    · intro h
      cases h
    · intro h
      obtain ⟨A, hA, _⟩ := h
      cases hA

theorem length_nullablePositions_eq (right : List Symbol) :
    (nullablePositions g.nullable right).length = g.emptyPositions right := by
  rw [length_nullablePositions, emptyPositions]
  refine List.countP_congr fun X _ => ?_
  simp only [List.contains_iff_mem, mem_nullable_iff, mem_symbol_words_iff, decide_eq_true_eq]

theorem exceedsLimit_iff {options : EpsilonOptions} :
    g.overLimit? g.nullable options.maxNullablePositions ≠ none ↔ g.ExceedsLimit options := by
  rw [ne_eq, overLimit?_eq_none_iff]
  simp only [length_nullablePositions_eq, ExceedsLimit]
  push Not
  rfl

theorem startTaken_initial_iff {options : EpsilonOptions} {stem : String} {h : stem ≠ ""} :
    g.StartTaken options (.initial stem h) ↔ g.StartNameTaken options := by
  simp [StartTaken, StartNameTaken, Allocator.initial, freshStart]

/-! ## Answers -/

structure NormalizesTo (g : Grammar) (options : EpsilonOptions) (r : Grammar) : Prop where
  valid : r.Valid
  terminals_eq : r.terminals = g.terminals
  mem_language_iff : ∀ w, w ∈ r.language ↔ w ∈ g.language ∧ (options.augmentStart = true ∨ w ≠ [])
  emptyAtStart : r.EmptyAtStart (options.augmentStart = true ∧ [] ∈ g.language)
  normal : ∀ s ∈ r.rules, Binarization.Normal r.start s

/-- What normalization can answer, and when. -/
inductive Normalization (g : Grammar) (config : Config) (a : Allocator) :
    Except Failure Grammar → Prop
  | overLimit {r : Rule} {positions : Nat} {limit : Int} (h : g.ExceedsLimit config.epsilon) :
      g.Normalization config a (.error (.expansionLimit r positions limit))
  | startTaken {name : String} (hlimit : ¬g.ExceedsLimit config.epsilon)
      (h : g.StartNameTaken config.epsilon) :
      g.Normalization config a (.error (.nameTaken name))
  | emptyLanguage {p : Grammar} (hlimit : ¬g.ExceedsLimit config.epsilon)
      (hstart : ¬g.StartNameTaken config.epsilon) (h : g.KeepsNoWord config.epsilon)
      (hallow : config.allowEmpty = false) :
      g.Normalization config a (.error (.emptyLanguage p.start))
  | stemTaken {p : Grammar} {name : String} (hlimit : ¬g.ExceedsLimit config.epsilon)
      (hstart : ¬g.StartNameTaken config.epsilon)
      (hempty : ¬(config.allowEmpty = false ∧ g.KeepsNoWord config.epsilon))
      (hp : g.reduced config a = .ok p) (h : p.StemTaken config.stem) :
      g.Normalization config a (.error (.nameTaken name))
  | done {p r : Grammar} (hlimit : ¬g.ExceedsLimit config.epsilon)
      (hstart : ¬g.StartNameTaken config.epsilon)
      (hempty : ¬(config.allowEmpty = false ∧ g.KeepsNoWord config.epsilon))
      (hp : g.reduced config a = .ok p) (h : ¬p.StemTaken config.stem)
      (hr : g.NormalizesTo config.epsilon r) :
      g.Normalization config a (.ok r)

theorem Reduces.isEmpty_iff_keepsNoWord {options : EpsilonOptions} {p : Grammar}
    (h : g.Reduces options p) : p.isEmpty = true ↔ g.KeepsNoWord options := by
  rw [h.isEmpty_iff, KeepsNoWord]
  simp only [h.mem_language_iff]
  split
  · next haug => simp [haug]
  · next haug => simp [haug, imp_iff_not_or]

theorem Reduces.normalizesTo {options : EpsilonOptions} {p : Grammar} {minted : List Nonterminal}
    (h : g.Reduces options p) (hr : p.Binarizes minted r) : g.NormalizesTo options r where
  valid := hr.valid
  terminals_eq := hr.terminals_eq.trans h.terminals_eq
  mem_language_iff w := by
    rw [hr.language_eq]
    exact h.mem_language_iff w
  emptyAtStart := hr.emptyAtStart h.valid h.emptyAtStart
  normal := by
    rw [hr.start_eq]
    exact hr.normal

theorem NormalizesTo.prunes {options : EpsilonOptions} {r' : Grammar}
    (h : g.NormalizesTo options r) (hr : r.Prunes r') : g.NormalizesTo options r' where
  valid := hr.valid
  terminals_eq := hr.terminals_eq.trans h.terminals_eq
  mem_language_iff w := by
    rw [hr.language_eq]
    exact h.mem_language_iff w
  emptyAtStart := hr.emptyAtStart h.emptyAtStart
  normal s hs := by
    rw [hr.start_eq]
    exact h.normal s (hr.rules_sublist.subset hs)

/-- A new start symbol is still there when binarization begins. -/
theorem Augments.mem_of_reduces {options : EpsilonOptions} {new : Augmentation} {p : Grammar}
    (h : g.Augments options new) (hp : g.Reduces options p) (hstart : p.start = new.start)
    {X : Nonterminal} (hX : X ∈ new.nonterminals) : X ∈ p.nonterminals := by
  cases h with
  | lost => exact absurd hX List.not_mem_nil
  | kept => exact absurd hX List.not_mem_nil
  | renewed haug hnil =>
    obtain rfl := List.mem_singleton.mp hX
    have hnil' : [] ∈ p.language := (hp.mem_language_iff []).mpr ⟨hnil, .inl haug⟩
    have hdecl := hp.valid.start_mem_of_language hnil'
    rw [hstart] at hdecl
    exact hdecl

/-- The names that binarization needs are free just if the grammar does not have them: what was
introduced before is part of the grammar. -/
theorem freeNext_iff_not_stemTaken {p : Grammar} {stem : String} {h : stem ≠ ""}
    {minted : List Nonterminal} (hminted : ∀ X ∈ minted, X ∈ p.nonterminals) :
    ({ Allocator.initial stem h with minted } : Allocator).FreeNext p.symbolNames p.mintCount ↔
      ¬p.StemTaken stem := by
  constructor
  · intro hfree htaken
    obtain ⟨i, hi, hn, hname⟩ := htaken
    refine (hfree i hi ?_).1 hname
    exact hn.trans (Nat.le_add_left _ _)
  · intro hnot i hi hn
    have hname : stem ++ toString i ∉ p.symbolNames := by
      intro hname
      exact hnot ⟨i, hi, by simpa [Allocator.initial] using hn, hname⟩
    exact ⟨hname, fun hmem => hname (mem_symbolNames.mpr (.inl (hminted _ hmem)))⟩

/-- All that normalization can answer on a valid grammar. -/
theorem normalization (hg : g.Valid) (hstem : config.stem ≠ "") :
    g.Normalization config (.initial config.stem hstem) (g.normalize config).result := by
  rw [normalize_result hg hstem]
  rcases reduced_cases hg config (.initial config.stem hstem) with
    ⟨failure, hover, heq⟩ | ⟨hlimit, ⟨htaken, heq⟩ |
      ⟨htaken, new, p, hnew, hminted, _, heq, hp, hstart⟩⟩
  · obtain ⟨s, positions, limit, rfl⟩ := overLimit?_eq_some hover
    rw [heq]
    exact .overLimit (exceedsLimit_iff.mp (by simp [hover]))
  all_goals
    have hlimit' : ¬g.ExceedsLimit config.epsilon := fun h => exceedsLimit_iff.mpr h hlimit
    rw [startTaken_initial_iff] at htaken
  · rw [heq]
    exact .startTaken hlimit' htaken
  · simp only [heq, hminted, ok_bind]
    by_cases hempty : config.allowEmpty = false ∧ g.KeepsNoWord config.epsilon
    · obtain ⟨hallow, hno⟩ := hempty
      rw [if_pos (by rw [hp.isEmpty_iff_keepsNoWord.mpr hno, hallow]; rfl)]
      exact .emptyLanguage hlimit' htaken hno hallow
    · rw [if_neg (by
        rw [Bool.and_eq_true, Bool.not_eq_true', hp.isEmpty_iff_keepsNoWord, and_comm]
        exact hempty)]
      -- a new start symbol is declared by now, so it takes no name that is not taken anyway
      have hmem : ∀ X ∈ new.nonterminals, X ∈ p.nonterminals :=
        fun X hX => hnew.mem_of_reduces hp hstart hX
      rcases binarized_of_accepted hp.valid hp.accepted with
        ⟨hfree, r, hr, hbin⟩ | ⟨hnot, later, name, hbin⟩
      · rw [hbin]
        have hfree' := (freeNext_iff_not_stemTaken hmem).mp hfree
        obtain ⟨r', hr', hprunes⟩ := uniqueIf_prunes hr.valid config.deduplicate
        show g.Normalization config _ (r.uniqueIf config.deduplicate)
        rw [hr']
        exact .done hlimit' htaken hempty heq hfree' ((hp.normalizesTo hr).prunes hprunes)
      · rw [hbin]
        have htaken' : p.StemTaken config.stem := by
          by_contra h
          exact hnot ((freeNext_iff_not_stemTaken hmem).mpr h)
        exact .stemTaken hlimit' htaken hempty heq htaken'

end Grammar

end Chomsky

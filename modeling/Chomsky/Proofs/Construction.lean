import Chomsky.Proofs.Preorder
import Chomsky.Proofs.SessionInvariant

/-!
# Grammars from their parts

Parts in which every symbol has a kind make up a grammar just if what they declare is in order. A list
of symbols that is left out is filled in with the symbols that are used, and it is the same as giving
that list (`grammar_inferred`); so it is enough to look at parts with both lists, whose checks are those
of validity (`grammar_given`).
-/

namespace Chomsky

/-! ## First appearances -/

section FirstAppearances

variable {α : Type}

/-- The members of a list, each once and in the order in which they first appear in it. -/
structure FirstAppearances [DecidableEq α] (used l : List α) : Prop where
  nodup : l.Nodup
  mem_iff : ∀ a, a ∈ l ↔ a ∈ used
  ordered : l.Pairwise fun a b => used.idxOf a < used.idxOf b

/-- What becomes of a list that may be left out. -/
inductive Listed [DecidableEq α] (used : List α) : Option (List α) → List α → Prop
  | given (l : List α) : Listed used (some l) l
  | inferred {l : List α} (h : FirstAppearances used l) : Listed used none l

variable [DecidableEq α]

theorem pairwise_eraseDups (used : List α) :
    used.eraseDups.Pairwise fun a b => used.idxOf a < used.idxOf b := by
  induction used using List.reverseRecOn with
  | nil => exact .nil
  | append_singleton used c ih =>
    have hold : used.eraseDups.Pairwise fun a b =>
        (used ++ [c]).idxOf a < (used ++ [c]).idxOf b := by
      refine ih.imp_of_mem fun {a b} ha hb hlt => ?_
      rwa [List.idxOf_append_of_mem (List.mem_eraseDups.mp ha),
        List.idxOf_append_of_mem (List.mem_eraseDups.mp hb)]
    by_cases hc : c ∈ used
    · rw [Graph.eraseDups_concat_of_mem hc]
      exact hold
    · rw [Graph.eraseDups_concat_of_notMem hc]
      refine List.pairwise_append.mpr ⟨hold, List.pairwise_singleton _ _, fun a ha b hb => ?_⟩
      obtain rfl := List.mem_singleton.mp hb
      have ha' : a ∈ used := List.mem_eraseDups.mp ha
      have hlt := List.idxOf_lt_length_of_mem ha'
      rw [List.idxOf_append_of_mem ha', List.idxOf_append_of_notMem hc]
      omega

theorem firstAppearances_eraseDups (used : List α) : FirstAppearances used used.eraseDups where
  nodup := nodup_eraseDups used
  mem_iff _ := List.mem_eraseDups
  ordered := pairwise_eraseDups used

theorem listed_getD (used : List α) (given : Option (List α)) :
    Listed used given (given.getD used.eraseDups) := by
  cases given with
  | none => exact .inferred (firstAppearances_eraseDups used)
  | some l => exact .given l

end FirstAppearances

/-! ## The symbols of the rules -/

namespace Grammar

variable {start : Nonterminal} {rules : List Rule} {N : List Nonterminal} {T : List Terminal}

/-- The start symbol and the nonterminals of the rules, as often as they are used. -/
def usedNonterminals (start : Nonterminal) (rules : List Rule) : List Nonterminal :=
  start :: rules.flatMap fun r => r.left :: r.right.filterMap Symbol.nonterminal?

def usedTerminals (rules : List Rule) : List Terminal :=
  rules.flatMap fun r => r.right.filterMap Symbol.terminal?

theorem start_mem_used : start ∈ usedNonterminals start rules := List.mem_cons_self

theorem left_mem_used {r : Rule} (hr : r ∈ rules) : r.left ∈ usedNonterminals start rules :=
  List.mem_cons_of_mem _ (List.mem_flatMap.mpr ⟨r, hr, List.mem_cons_self⟩)

theorem nonterminal_mem_used {r : Rule} (hr : r ∈ rules) {A : Nonterminal}
    (hA : .nonterminal A ∈ r.right) : A ∈ usedNonterminals start rules := by
  refine List.mem_cons_of_mem _ (List.mem_flatMap.mpr ⟨r, hr, List.mem_cons_of_mem _ ?_⟩)
  exact List.mem_filterMap.mpr ⟨_, hA, rfl⟩

theorem terminal_mem_used {r : Rule} (hr : r ∈ rules) {a : Terminal}
    (ha : .terminal a ∈ r.right) : a ∈ usedTerminals rules :=
  List.mem_flatMap.mpr ⟨r, hr, List.mem_filterMap.mpr ⟨_, ha, rfl⟩⟩

/-- Validity, with the start symbol and the rules looked at together. -/
theorem valid_parts_iff :
    (⟨start, rules, N, T⟩ : Grammar).Valid ↔
      N.Nodup ∧ T.Nodup ∧ (∀ A ∈ N, ∀ a ∈ T, A.name ≠ a.name) ∧
        (N = [] ∧ rules = [] ∨ start ∈ N ∧ ∀ r ∈ rules, r.left ∈ N ∧
          (∀ A, .nonterminal A ∈ r.right → A ∈ N) ∧ ∀ a, .terminal a ∈ r.right → a ∈ T) := by
  constructor
  · intro h
    refine ⟨h.nonterminals_nodup, h.terminals_nodup, h.names_disjoint, ?_⟩
    refine h.start_declared.imp isEmpty_iff.mp fun hstart => ⟨hstart, fun r hr => ?_⟩
    refine ⟨h.left_declared r hr, fun A hA => ?_, fun a ha => ?_⟩
    · exact declares_nonterminal.mp (h.right_declared r hr _ hA)
    · exact List.contains_iff_mem.mp (h.right_declared r hr _ ha)
  · intro h
    obtain ⟨hN, hT, hnames, ⟨rfl, rfl⟩ | ⟨hstart, hrules⟩⟩ := h
    · exact ⟨hN, hT, hnames, .inl rfl, by simp, by simp⟩
    · refine ⟨hN, hT, hnames, .inr hstart, fun r hr => (hrules r hr).1, fun r hr X hX => ?_⟩
      obtain ⟨_, hnonterminals, hterminals⟩ := hrules r hr
      cases X with
      | nonterminal A => exact declares_nonterminal.mpr (hnonterminals A hX)
      | terminal a => exact List.contains_iff_mem.mpr (hterminals a hX)

/-- Inferred lists can only be wrong in a name that is used for both kinds. -/
theorem valid_inferred_iff :
    (⟨start, rules, inferredNonterminals start rules, inferredTerminals rules⟩ : Grammar).Valid ↔
      ¬∃ name, ⟨name⟩ ∈ usedNonterminals start rules ∧ ⟨name⟩ ∈ usedTerminals rules := by
  have hN : ∀ A, A ∈ inferredNonterminals start rules ↔ A ∈ usedNonterminals start rules :=
    fun A => List.mem_eraseDups
  have hT : ∀ a, a ∈ inferredTerminals rules ↔ a ∈ usedTerminals rules :=
    fun a => List.mem_eraseDups
  constructor
  · intro h hboth
    obtain ⟨name, hname, hname'⟩ := hboth
    exact h.names_disjoint _ ((hN _).mpr hname) _ ((hT _).mpr hname') rfl
  · intro h
    refine valid_parts_iff.mpr ⟨nodup_eraseDups _, nodup_eraseDups _, fun A hA a ha hname => ?_,
      .inr ⟨(hN _).mpr start_mem_used, fun r hr => ⟨(hN _).mpr (left_mem_used hr),
        fun A hA => (hN _).mpr (nonterminal_mem_used hr hA),
        fun a ha => (hT _).mpr (terminal_mem_used hr ha)⟩⟩⟩
    refine h ⟨A.name, (hN A).mp hA, ?_⟩
    rw [hname]
    exact (hT a).mp ha

end Grammar

/-! ## The checks -/

namespace Outline

open Grammar (ok_bind error_bind)

theorem looseRules_fitting (rules : List Rule) :
    looseRules (rules.map fun r => .fitting (.ofRule r)) = .ok (rules.map .ofRule) := by
  induction rules with
  | nil => rfl
  | cons r rules ih =>
    rw [looseRules] at ih ⊢
    rw [List.map_cons, List.mapM_cons, ih]
    rfl

theorem splitProper_ofRule (rules : List Rule) : splitProper (rules.map .ofRule) = (rules, []) := by
  have hproper : ∀ r : Rule, (LooseRule.ofRule r).toRule? = some r := rule?_fitting
  have hall : ((rules.map LooseRule.ofRule).takeWhile fun r => r.toRule?.isSome) =
      rules.map .ofRule := by
    rw [List.takeWhile_eq_self_iff]
    intro r hr
    obtain ⟨s, _, rfl⟩ := List.mem_map.mp hr
    rw [hproper]
    rfl
  have hrules : (rules.map LooseRule.ofRule).filterMap LooseRule.toRule? = rules := by
    have hsome : LooseRule.toRule? ∘ LooseRule.ofRule = some := funext hproper
    rw [List.filterMap_map, hsome, List.filterMap_some]
  rw [splitProper, hall, hrules]
  simp

theorem checked_ofGrammar (g : Grammar) : (ofGrammar g).checked = g.checked.mapError .failure := by
  have hparts : (⟨g.start, g.rules, g.nonterminals, g.terminals⟩ : Grammar) = g := rfl
  simp only [checked, ofGrammar, looseRules_fitting, ok_bind, splitProper_ofRule, hparts]
  cases g.checked <;> rfl

section Declared

variable {α : Type} {wanted : Item LooseSymbol → Option α} {item : α → Item LooseSymbol}
  (hwanted : ∀ a, wanted (item a) = some a)

include hwanted

theorem filterMap_takeWhile_wanted (l : List α) :
    ((l.map item).takeWhile fun x => (wanted x).isSome).filterMap wanted = l := by
  induction l with
  | nil => rfl
  | cons a l ih =>
    rw [List.map_cons, List.takeWhile_cons, hwanted, Option.isSome_some, if_pos rfl,
      List.filterMap_cons, hwanted, ih]

variable [DecidableEq α] {repeated : α → Malformed} {mismatch : Fault} {l : List α}

theorem declared_of_repeated {a : α} (h : firstRepeated? l = some a) :
    declared wanted repeated mismatch (l.map item) = .error (.failure (.malformed (repeated a))) := by
  simp only [declared, filterMap_takeWhile_wanted hwanted, h]

theorem declared_of_nodup (h : l.Nodup) :
    declared wanted repeated mismatch (l.map item) = .ok l := by
  simp only [declared, filterMap_takeWhile_wanted hwanted, firstRepeated?_eq_none_iff.mpr h,
    List.length_map, lt_irrefl, if_false]

end Declared

theorem nonterminal?_fitting (A : Nonterminal) :
    nonterminal? (.fitting (.symbol (.nonterminal A))) = some A := rfl

theorem terminal?_fitting (a : Terminal) :
    terminal? (.fitting (.symbol (.terminal a))) = some a := rfl

/-! ## Parts in which every symbol has a kind -/

namespace Parts

/-- Parts without anything foreign or kindless in them. -/
def ofSymbols (start : Nonterminal) (rules : List Rule) (nonterminals : Option (List Nonterminal))
    (terminals : Option (List Terminal)) : Parts where
  start := .fitting (.symbol (.nonterminal start))
  rules := rules.map fun r => .fitting (.ofRule r)
  nonterminals := nonterminals.map fun l => l.map fun A => .fitting (.symbol (.nonterminal A))
  terminals := terminals.map fun l => l.map fun a => .fitting (.symbol (.terminal a))

variable {start : Nonterminal} {rules : List Rule}

/-- A list that is left out may as well be given. -/
theorem grammar_inferred (nonterminals : Option (List Nonterminal))
    (terminals : Option (List Terminal)) :
    (ofSymbols start rules nonterminals terminals).grammar =
      (ofSymbols start rules
        (some (nonterminals.getD (Grammar.inferredNonterminals start rules)))
        (some (terminals.getD (Grammar.inferredTerminals rules)))).grammar := by
  have hN : (Grammar.inferredNonterminals start rules).Nodup := nodup_eraseDups _
  have hT : (Grammar.inferredTerminals rules).Nodup := nodup_eraseDups _
  cases nonterminals <;> cases terminals <;>
    simp only [grammar, ofSymbols, nonterminal?_fitting, looseRules_fitting, ok_bind,
      splitProper_ofRule, Option.map_some, Option.map_none, Option.getD_some, Option.getD_none,
      declared_of_nodup nonterminal?_fitting hN, declared_of_nodup terminal?_fitting hT,
      List.isEmpty_nil, Bool.not_true, Bool.false_and, Bool.false_eq_true, if_false]

variable {N : List Nonterminal} {T : List Terminal}

/-- Repetitions are looked for before everything else, and validity looks for them as well. -/
theorem grammar_given :
    (ofSymbols start rules (some N) (some T)).grammar =
      (Grammar.checked ⟨start, rules, N, T⟩).mapError .failure := by
  simp only [grammar, ofSymbols, nonterminal?_fitting, looseRules_fitting, ok_bind, Option.map_some,
    Option.isNone_some, Bool.or_false, Bool.and_false, Bool.false_eq_true, if_false]
  cases hN : firstRepeated? N with
  | some A =>
    rw [declared_of_repeated nonterminal?_fitting hN, error_bind]
    simp [Grammar.checked, Grammar.validated, Grammar.defect?, hN, Except.mapError]
  | none =>
    rw [declared_of_nodup nonterminal?_fitting (firstRepeated?_eq_none_iff.mp hN), ok_bind]
    cases hT : firstRepeated? T with
    | some a =>
      rw [declared_of_repeated terminal?_fitting hT, error_bind]
      simp [Grammar.checked, Grammar.validated, Grammar.defect?, hN, hT, Except.mapError]
    | none =>
      rw [declared_of_nodup terminal?_fitting (firstRepeated?_eq_none_iff.mp hT), ok_bind]
      exact checked_ofGrammar ⟨start, rules, N, T⟩

theorem grammar_given_of_valid (h : (⟨start, rules, N, T⟩ : Grammar).Valid) :
    (ofSymbols start rules (some N) (some T)).grammar = .ok ⟨start, rules, N, T⟩ := by
  rw [grammar_given, h.checked]
  rfl

theorem grammar_given_of_not_valid (h : ¬(⟨start, rules, N, T⟩ : Grammar).Valid) :
    ∃ defect, (ofSymbols start rules (some N) (some T)).grammar =
      .error (.failure (.malformed defect)) := by
  obtain ⟨defect, hdefect⟩ := Grammar.checked_of_not_valid h
  rw [grammar_given, hdefect]
  exact ⟨defect, rfl⟩

theorem exists_grammar_given_iff :
    (∃ g, (ofSymbols start rules (some N) (some T)).grammar = .ok g) ↔
      (⟨start, rules, N, T⟩ : Grammar).Valid := by
  constructor
  · intro h
    obtain ⟨g, hg⟩ := h
    by_contra hvalid
    obtain ⟨defect, hdefect⟩ := grammar_given_of_not_valid hvalid
    rw [hdefect] at hg
    cases hg
  · exact fun h => ⟨_, grammar_given_of_valid h⟩

/-- With both lists left out, nothing is undeclared and nothing is repeated. -/
theorem grammar_inferred_error_iff :
    (∃ fault, (ofSymbols start rules none none).grammar = .error fault) ↔
      ∃ name, ⟨name⟩ ∈ Grammar.usedNonterminals start rules ∧
        ⟨name⟩ ∈ Grammar.usedTerminals rules := by
  rw [grammar_inferred, Option.getD_none, Option.getD_none]
  constructor
  · intro h
    obtain ⟨fault, hfault⟩ := h
    by_contra hnone
    rw [grammar_given_of_valid (Grammar.valid_inferred_iff.mpr hnone)] at hfault
    cases hfault
  · intro h
    obtain ⟨defect, hdefect⟩ :=
      grammar_given_of_not_valid fun hvalid => Grammar.valid_inferred_iff.mp hvalid h
    exact ⟨_, hdefect⟩

/-- Which parts make up a grammar, and which grammar that is. Nothing but a defect of the parts keeps
them from it; with both lists left out, nothing but a name that is used for both kinds. -/
theorem grammar_ofSymbols (start : Nonterminal) (rules : List Rule)
    (nonterminals : Option (List Nonterminal)) (terminals : Option (List Terminal)) :
    (∃ N T, Listed (Grammar.usedNonterminals start rules) nonterminals N ∧
      Listed (Grammar.usedTerminals rules) terminals T ∧
      ((∃ g, (ofSymbols start rules nonterminals terminals).grammar = .ok g) ↔
        N.Nodup ∧ T.Nodup ∧ (∀ A ∈ N, ∀ a ∈ T, A.name ≠ a.name) ∧
          (N = [] ∧ rules = [] ∨ start ∈ N ∧ ∀ r ∈ rules, r.left ∈ N ∧
            (∀ A, .nonterminal A ∈ r.right → A ∈ N) ∧ ∀ a, .terminal a ∈ r.right → a ∈ T)) ∧
      (∀ g, (ofSymbols start rules nonterminals terminals).grammar = .ok g →
        g = ⟨start, rules, N, T⟩) ∧
      (ofSymbols start rules nonterminals terminals).grammar =
        (ofSymbols start rules (some N) (some T)).grammar) ∧
    (∀ fault, (ofSymbols start rules nonterminals terminals).grammar = .error fault →
      ∃ defect, fault = .failure (.malformed defect)) ∧
    ((∃ fault, (ofSymbols start rules none none).grammar = .error fault) ↔
      ∃ name, ⟨name⟩ ∈ Grammar.usedNonterminals start rules ∧
        ⟨name⟩ ∈ Grammar.usedTerminals rules) := by
  refine ⟨⟨_, _, listed_getD _ nonterminals, listed_getD _ terminals, ?_, fun g hg => ?_,
    grammar_inferred nonterminals terminals⟩, fun fault hfault => ?_, ?_⟩
  · rw [grammar_inferred, ← Grammar.valid_parts_iff]
    exact exists_grammar_given_iff
  · rw [grammar_inferred] at hg
    have hvalid := exists_grammar_given_iff.mp ⟨g, hg⟩
    exact Except.ok.inj (hg.symm.trans (grammar_given_of_valid hvalid))
  · rw [grammar_inferred] at hfault
    by_cases hvalid : (⟨start, rules, nonterminals.getD (Grammar.inferredNonterminals start rules),
        terminals.getD (Grammar.inferredTerminals rules)⟩ : Grammar).Valid
    · rw [grammar_given_of_valid hvalid] at hfault
      cases hfault
    · obtain ⟨defect, hdefect⟩ := grammar_given_of_not_valid hvalid
      exact ⟨defect, Except.error.inj (hfault.symm.trans hdefect)⟩
  · exact grammar_inferred_error_iff

end Parts

end Outline

end Chomsky

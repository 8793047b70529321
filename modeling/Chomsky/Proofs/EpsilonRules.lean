import Chomsky.Proofs.Closure
import Chomsky.Proofs.Derivation
import Chomsky.Proofs.Omission
import Chomsky.Proofs.Validity

/-!
# Removing epsilon rules

The nullable symbols are those that derive the empty word (`mem_nullable_iff`), and the expanded
rules generate what the rules generate without the empty word (`mem_words_expandedRules_iff`). The
start symbol gets the empty word back if that is asked for. `withoutEpsilon_eq` says all that can
come out of the removal on a valid grammar; the final check never fails.
-/

namespace Chomsky

/-! ## Nullable symbols -/

namespace Grammar

variable {g : Grammar}

theorem mem_nullable_iff {X : Symbol} : X ∈ g.nullable ↔ [] ∈ (words g.rules).symbol X := by
  constructor
  · intro hX
    refine Clause.closure_sound (P := fun X => [] ∈ (words g.rules).symbol X)
      (fun _ h => absurd h List.not_mem_nil) (fun c hc hp => ?_) hX
    obtain ⟨r, hr, rfl⟩ := List.mem_map.mp hc
    exact closed_words g.rules r hr (Reading.nil_mem_form.mpr hp)
  · intro hX
    cases X with
    | terminal a => cases hX
    | nonterminal A =>
      -- the reading in which only nullable nonterminals may be empty
      refine words_le (I := fun A => {w | w = [] → .nonterminal A ∈ g.nullable}) ?_ A hX rfl
      intro r hr w hw hnil
      subst hnil
      refine Clause.closure_closed _ _ (List.mem_map_of_mem hr) fun X hX => ?_
      have hempty := Reading.nil_mem_form.mp hw X hX
      cases X with
      | nonterminal B => exact hempty rfl
      | terminal a => cases hempty

theorem start_mem_nullable_iff : .nonterminal g.start ∈ g.nullable ↔ [] ∈ g.language :=
  mem_nullable_iff

theorem nodup_nullable : g.nullable.Nodup := Clause.nodup_closure _ .nil

theorem Valid.mem_nullable_iff_derives (hg : g.Valid) {X : Symbol} : X ∈ g.nullable ↔
    ∃ A ∈ g.nonterminals, X = .nonterminal A ∧ Derives g.rules [.nonterminal A] [] := by
  rw [mem_nullable_iff]
  constructor
  · intro h
    cases X with
    | terminal a => cases h
    | nonterminal A =>
      obtain ⟨s, hs, hleft, _⟩ := mem_words_iff.mp h
      exact ⟨A, hleft ▸ hg.left_declared s hs, rfl, h⟩
  · intro h
    obtain ⟨A, _, rfl, hA⟩ := h
    exact hA

end Grammar

/-! ## Expanded rules -/

section Expansion

variable {nullable right copy : List Symbol} {I J : Reading} {w : Word}

theorem Omits.form_le (h : Omits nullable right copy) (hI : ∀ X ∈ nullable, [] ∈ I.symbol X) :
    I.form copy ≤ I.form right := by
  induction h with
  | nil => exact le_refl _
  | keep X _ ih =>
    rw [Reading.form_cons, Reading.form_cons]
    exact mul_le_mul' le_rfl ih
  | drop hX _ ih =>
    rw [Reading.form_cons]
    exact fun w hw => Language.append_mem_mul (hI _ hX) (ih hw)

/-- A word of a right side is a word of what is left once the symbols that contribute nothing to it
are left out. -/
theorem exists_omits (hnull : ∀ A, [] ∈ I A → .nonterminal A ∈ nullable)
    (hIJ : ∀ A, ∀ u ∈ I A, u ≠ [] → u ∈ J A) (hw : w ∈ I.form right) :
    ∃ copy, Omits nullable right copy ∧ w ∈ J.form copy := by
  induction right generalizing w with
  | nil => exact ⟨[], .nil, hw⟩
  | cons X right ih =>
    rw [Reading.form_cons] at hw
    obtain ⟨u, hu, v, hv, rfl⟩ := Language.mem_mul.mp hw
    obtain ⟨copy, hcopy, hv'⟩ := ih hv
    cases X with
    | terminal a =>
      refine ⟨.terminal a :: copy, .keep _ hcopy, ?_⟩
      rw [Reading.form_cons]
      exact Language.append_mem_mul hu hv'
    | nonterminal A =>
      by_cases hnil : u = []
      · subst hnil
        exact ⟨copy, .drop (hnull A hu) hcopy, hv'⟩
      · refine ⟨.nonterminal A :: copy, .keep _ hcopy, ?_⟩
        rw [Reading.form_cons]
        exact Language.append_mem_mul (hIJ A u hu hnil) hv'

end Expansion

namespace Grammar

variable {g : Grammar} {nullable : List Symbol} {r : Rule} {A : Nonterminal} {w : Word}

theorem mem_expandedRules_iff :
    r ∈ g.expandedRules nullable ↔
      r.right ≠ [] ∧ ∃ s ∈ g.rules, s.left = r.left ∧ Omits nullable s.right r.right := by
  simp only [expandedRules, Rule.expansions, List.mem_flatMap, List.mem_filter, List.mem_map,
    Rule.isEpsilon, Bool.not_eq_true', List.isEmpty_eq_false_iff]
  constructor
  · intro h
    obtain ⟨s, ⟨hs, hne⟩, right, hright, rfl⟩ := h
    obtain ⟨hne', homits⟩ := (mem_expansions_iff hne).mp hright
    exact ⟨hne', s, hs, rfl, homits⟩
  · intro h
    obtain ⟨hne, s, hs, hleft, homits⟩ := h
    have hs' : s.right ≠ [] := fun h => hne (by simpa [h] using homits.sublist)
    exact ⟨s, ⟨hs, hs'⟩, r.right, (mem_expansions_iff hs').mpr ⟨hne, homits⟩, by rw [hleft]⟩

/-- A symbol occurs on the right in the expanded rules just where it does in the rules. -/
theorem exists_mem_expandedRules_iff {X : Symbol} :
    (∃ r ∈ g.expandedRules nullable, X ∈ r.right) ↔ ∃ r ∈ g.rules, X ∈ r.right := by
  constructor
  · intro h
    obtain ⟨r, hr, hX⟩ := h
    obtain ⟨_, s, hs, _, homits⟩ := mem_expandedRules_iff.mp hr
    exact ⟨s, hs, homits.sublist.subset hX⟩
  · intro h
    obtain ⟨r, hr, hX⟩ := h
    exact ⟨r, mem_expandedRules_iff.mpr ⟨List.ne_nil_of_mem hX, r, hr, rfl, .refl _⟩, hX⟩

theorem mem_words_expandedRules_iff :
    w ∈ words (g.expandedRules g.nullable) A ↔ w ∈ words g.rules A ∧ w ≠ [] := by
  constructor
  · intro hw
    refine words_le (I := fun A => {w | w ∈ words g.rules A ∧ w ≠ []}) (fun r hr v hv => ?_) A hw
    obtain ⟨hne, s, hs, hleft, homits⟩ := mem_expandedRules_iff.mp hr
    constructor
    · rw [← hleft]
      refine closed_words g.rules s hs (homits.form_le (fun X => mem_nullable_iff.mp) ?_)
      exact Reading.form_mono (fun B _ u hu => hu.1) hv
    · rintro rfl
      obtain ⟨X, hX⟩ := List.exists_mem_of_ne_nil _ hne
      have hempty := Reading.nil_mem_form.mp hv X hX
      cases X with
      | nonterminal B => exact hempty.2 rfl
      | terminal a => cases hempty
  · intro h
    obtain ⟨hw, hne⟩ := h
    -- the reading in which non-empty words are derived by the expanded rules as well
    refine (words_le (I := fun A => {w | w ∈ words g.rules A ∧
      (w ≠ [] → w ∈ words (g.expandedRules g.nullable) A)}) (fun r hr v hv => ?_) A hw).2 hne
    refine ⟨closed_words g.rules r hr (Reading.form_mono (fun B _ u hu => hu.1) hv), fun hv' => ?_⟩
    have hnull : ∀ B, [] ∈ words g.rules B → .nonterminal B ∈ g.nullable :=
      fun B hB => mem_nullable_iff.mpr hB
    obtain ⟨copy, hcopy, hvcopy⟩ := exists_omits (J := words (g.expandedRules g.nullable))
      (fun B hB => hnull B hB.1) (fun B u hu => hu.2) hv
    refine mem_words_iff.mpr ⟨⟨r.left, copy⟩, mem_expandedRules_iff.mpr ⟨?_, r, hr, rfl, hcopy⟩,
      rfl, hvcopy⟩
    rintro rfl
    exact hv' ((Language.mem_one v).mp hvcopy)

end Grammar

/-! ## The start symbol -/

/-- The new start symbol that the removal may introduce. -/
def Grammar.freshStart (g : Grammar) : Nonterminal := ⟨g.start.name ++ "0"⟩

/-- The start symbol occurs on a right side. -/
def Grammar.StartRecurs (g : Grammar) : Prop := ∃ r ∈ g.rules, .nonterminal g.start ∈ r.right

/-- What the removal may put in front of the expanded rules, and when. -/
inductive Grammar.Augments (g : Grammar) (options : EpsilonOptions) : Augmentation → Prop
  | lost (h : options.augmentStart = true → [] ∉ g.language) : g.Augments options ⟨g.start, [], []⟩
  | kept (h : options.augmentStart = true) (hnil : [] ∈ g.language) (hrecurs : ¬g.StartRecurs) :
      g.Augments options ⟨g.start, [⟨g.start, []⟩], []⟩
  | renewed (h : options.augmentStart = true) (hnil : [] ∈ g.language) (hrecurs : g.StartRecurs)
      (hfresh : g.freshStart.name ∉ g.symbolNames) :
      g.Augments options
        ⟨g.freshStart, [⟨g.freshStart, [.nonterminal g.start]⟩, ⟨g.freshStart, []⟩], [g.freshStart]⟩

theorem Grammar.Augments.start_cases {g : Grammar} {options : EpsilonOptions} {new : Augmentation}
    (h : g.Augments options new) : new.start = g.start ∨ new.start = g.freshStart := by
  cases h with
  | lost => exact .inl rfl
  | kept => exact .inl rfl
  | renewed => exact .inr rfl

/-- The expanded rules behind an augmentation. -/
def Grammar.expandedWith (g : Grammar) (new : Augmentation) : Grammar where
  start := new.start
  rules := new.rules ++ g.expandedRules g.nullable
  nonterminals := new.nonterminals ++ g.nonterminals
  terminals := g.terminals

namespace Grammar

variable {g : Grammar} {options : EpsilonOptions} {new : Augmentation} {w : Word}

theorem Valid.left_expanded (hg : g.Valid) {nullable : List Symbol} {r : Rule}
    (hr : r ∈ g.expandedRules nullable) : r.left ∈ g.nonterminals := by
  obtain ⟨_, s, hs, hleft, _⟩ := mem_expandedRules_iff.mp hr
  exact hleft ▸ hg.left_declared s hs

theorem Valid.right_expanded (hg : g.Valid) {nullable : List Symbol} {r : Rule}
    (hr : r ∈ g.expandedRules nullable) {X : Symbol} (hX : X ∈ r.right) : g.declares X = true := by
  obtain ⟨_, s, hs, _, homits⟩ := mem_expandedRules_iff.mp hr
  exact hg.right_declared s hs X (homits.sublist.subset hX)

theorem Valid.start_mem_of_language (hg : g.Valid) (hw : w ∈ g.language) :
    g.start ∈ g.nonterminals := by
  obtain ⟨r, hr, hleft, _⟩ := mem_words_iff.mp hw
  exact hleft ▸ hg.left_declared r hr

/-- The start symbol of the result is on a right side only if nothing was done about the empty
word. -/
theorem Augments.start_notMem_right (hg : g.Valid) (h : g.Augments options new)
    (hnil : options.augmentStart = true ∧ [] ∈ g.language) {r : Rule}
    (hr : r ∈ (g.expandedWith new).rules) : .nonterminal new.start ∉ r.right := by
  cases h with
  | lost h => exact absurd hnil.2 (h hnil.1)
  | kept _ _ hrecurs =>
    rcases List.mem_append.mp hr with hr | hr
    · obtain rfl := List.mem_singleton.mp hr
      exact List.not_mem_nil
    · exact fun hS => hrecurs (exists_mem_expandedRules_iff.mp ⟨r, hr, hS⟩)
  | renewed _ _ _ hfresh =>
    have hnot := notMem_of_fresh hfresh
    rcases List.mem_append.mp hr with hr | hr
    · have hstart := hg.start_mem_of_language hnil.2
      rcases List.mem_pair.mp hr with rfl | rfl
      · intro hS
        have he : g.freshStart = g.start := Symbol.nonterminal.inj (List.mem_singleton.mp hS)
        rw [← he] at hstart
        exact hnot hstart
      · exact List.not_mem_nil
    · exact fun hS => hnot (declares_nonterminal.mp (hg.right_expanded hr hS))

theorem Augments.language_eq (hg : g.Valid) (h : g.Augments options new) :
    w ∈ (g.expandedWith new).language ↔
      w ∈ g.language ∧ (options.augmentStart = true ∨ w ≠ []) := by
  have hexp : w ∈ words (g.expandedRules g.nullable) g.start ↔ w ∈ g.language ∧ w ≠ [] :=
    mem_words_expandedRules_iff
  by_cases hnil : options.augmentStart = true ∧ [] ∈ g.language
  · have hleft : ∀ r ∈ new.rules, r.left = new.start := by
      cases h <;> simp
    rw [language, expandedWith, mem_words_append_iff hleft fun r => h.start_notMem_right hg hnil]
    cases h with
    | lost h => exact absurd hnil.2 (h hnil.1)
    | kept =>
      rw [hexp]
      simp only [List.mem_singleton, exists_eq_left, Reading.form_nil, Language.mem_one, true_and]
      grind
    | renewed _ _ _ hfresh =>
      have hnew : w ∉ words (g.expandedRules g.nullable) g.freshStart := by
        refine notMem_words fun r hr hleft => notMem_of_fresh hfresh ?_
        exact hleft ▸ hg.left_expanded hr
      simp only [List.mem_cons, List.not_mem_nil, or_false, exists_eq_or_imp, exists_eq_left,
        Reading.form_singleton, Reading.symbol_nonterminal, Reading.form_nil, Language.mem_one,
        hexp, hnew]
      grind
  · cases h with
    | lost h =>
      rw [language, expandedWith, List.nil_append, hexp]
      grind
    | kept h hnil' => exact absurd ⟨h, hnil'⟩ hnil
    | renewed h hnil' => exact absurd ⟨h, hnil'⟩ hnil

theorem Augments.valid (hg : g.Valid) (h : g.Augments options new) :
    (g.expandedWith new).Valid := by
  have hplain : (g.expandedWith ⟨g.start, [], []⟩).Valid :=
    hg.with_rules (fun _ => hg.left_expanded) fun _ hr _ => hg.right_expanded hr
  cases h with
  | lost => exact hplain
  | kept _ hnil =>
    have hstart := hg.start_mem_of_language hnil
    refine hg.with_rules (fun r hr => ?_) fun r hr X hX => ?_
    · rcases List.mem_cons.mp hr with rfl | hr
      · exact hstart
      · exact hg.left_expanded hr
    · rcases List.mem_cons.mp hr with rfl | hr
      · exact absurd hX List.not_mem_nil
      · exact hg.right_expanded hr hX
  | renewed _ hnil _ hfresh =>
    have hstart := hg.start_mem_of_language hnil
    refine hg.extend (List.nodup_singleton g.freshStart) (by simpa using hfresh) (.refl _) rfl
      (.inr List.mem_cons_self) (fun r hr => ?_) fun r hr X hX => ?_
    · rcases List.mem_append.mp hr with hr | hr
      · rcases List.mem_pair.mp hr with rfl | rfl <;> exact List.mem_cons_self
      · exact List.mem_cons_of_mem _ (hg.left_expanded hr)
    · rcases List.mem_append.mp hr with hr | hr
      · rcases List.mem_pair.mp hr with rfl | rfl
        · obtain rfl := List.mem_singleton.mp hX
          exact declares_nonterminal.mpr (List.mem_cons_of_mem _ hstart)
        · exact absurd hX List.not_mem_nil
      · have hdecl := hg.right_expanded hr hX
        cases X with
        | terminal a => exact hdecl
        | nonterminal A =>
          exact declares_nonterminal.mpr
            (List.mem_cons_of_mem _ (declares_nonterminal.mp hdecl))

/-! ## What the removal answers -/

theorem result_removeEpsilon {nullable : List Symbol} {options : EpsilonOptions} {a : Allocator} :
    (g.removeEpsilon nullable options a).2.result = (g.withoutEpsilon nullable options a).2 := rfl

theorem allocator_removeEpsilon {nullable : List Symbol} {options : EpsilonOptions}
    {a : Allocator} :
    (g.removeEpsilon nullable options a).1 = (g.withoutEpsilon nullable options a).1 := rfl

/-- The name of the new start symbol is needed, but in use. -/
def StartTaken (g : Grammar) (options : EpsilonOptions) (a : Allocator) : Prop :=
  options.augmentStart = true ∧ [] ∈ g.language ∧ g.StartRecurs ∧
    (g.freshStart.name ∈ g.symbolNames ∨ g.freshStart ∈ a.minted)

theorem occursOnRight_expandedRules {nullable : List Symbol} :
    occursOnRight g.start (g.expandedRules nullable) = true ↔ g.StartRecurs := by
  rw [StartRecurs, ← @exists_mem_expandedRules_iff g nullable]
  simp [occursOnRight]

/-- All that the removal of the epsilon rules can do on a valid grammar. -/
theorem withoutEpsilon_cases (hg : g.Valid) (options : EpsilonOptions) (a : Allocator) :
    (∃ failure, g.overLimit? g.nullable options.maxNullablePositions = some failure ∧
      g.withoutEpsilon g.nullable options a = (a, .error failure)) ∨
    g.overLimit? g.nullable options.maxNullablePositions = none ∧
      (g.StartTaken options a ∧
        g.withoutEpsilon g.nullable options a = (a, .error (.nameTaken g.freshStart.name)) ∨
      ¬g.StartTaken options a ∧ ∃ new, g.Augments options new ∧
        g.withoutEpsilon g.nullable options a =
          ({ a with minted := a.minted ++ new.nonterminals }, .ok (g.expandedWith new))) := by
  unfold withoutEpsilon
  cases hlimit : g.overLimit? g.nullable options.maxNullablePositions with
  | some failure => exact .inl ⟨failure, rfl, rfl⟩
  | none =>
    refine .inr ⟨rfl, ?_⟩
    by_cases hask : options.augmentStart = true ∧ [] ∈ g.language
    · obtain ⟨haug, hnil⟩ := hask
      rw [if_neg (by simp [haug, start_mem_nullable_iff.mpr hnil]), Augmentation.make]
      by_cases hrecurs : g.StartRecurs
      · rw [if_pos (occursOnRight_expandedRules.mpr hrecurs), Allocator.named]
        by_cases htaken : g.freshStart.name ∈ g.symbolNames ∨ g.freshStart ∈ a.minted
        · refine .inl ⟨⟨haug, hnil, hrecurs, htaken⟩, ?_⟩
          rw [if_pos (by simpa [freshStart] using htaken)]
          rfl
        · refine .inr ⟨fun h => htaken h.2.2.2, _,
            .renewed haug hnil hrecurs fun h => htaken (.inl h), ?_⟩
          rw [if_neg (by simpa [freshStart] using htaken)]
          exact congrArg (Prod.mk _) (Augments.valid hg
            (.renewed haug hnil hrecurs fun h => htaken (.inl h))).checked
      · rw [if_neg fun h => hrecurs (occursOnRight_expandedRules.mp h)]
        refine .inr ⟨fun h => hrecurs h.2.2.1, _, .kept haug hnil hrecurs, ?_⟩
        simp only [List.append_nil]
        exact congrArg (Prod.mk _) (Augments.valid hg (.kept haug hnil hrecurs)).checked
    · have hlost : options.augmentStart = true → [] ∉ g.language := fun h hnil => hask ⟨h, hnil⟩
      refine .inr ⟨fun h => hask ⟨h.1, h.2.1⟩, _, .lost hlost, ?_⟩
      rw [if_pos (by
        rw [Bool.or_eq_true, Bool.not_eq_true', Bool.not_eq_true', ← Bool.not_eq_true,
          ← Bool.not_eq_true, List.contains_iff_mem, start_mem_nullable_iff]
        exact not_and_or.mp hask)]
      simp only [List.append_nil]
      exact congrArg (Prod.mk _) (Augments.valid hg (.lost hlost)).checked

theorem length_nullablePositions (right : List Symbol) :
    (nullablePositions g.nullable right).length =
      right.countP fun X => g.nullable.contains X := by
  rw [nullablePositions, List.length_map, ← List.countP_eq_length_filter]
  conv_rhs => rw [← List.zipIdx_map_fst 0 right, List.countP_map]
  rfl

theorem overLimit?_eq_none_iff {nullable : List Symbol} {limit : Option Int} :
    g.overLimit? nullable limit = none ↔
      ∀ m, limit = some m → ∀ r ∈ g.rules, r.right ≠ [] →
        ((nullablePositions nullable r.right).length : Int) ≤ m := by
  cases limit with
  | none => simp [overLimit?]
  | some m =>
    simp [overLimit?, Rule.isEpsilon, ← Option.eq_none_iff_forall_ne_some, List.find?_eq_none]

theorem overLimit?_eq_some {nullable : List Symbol} {limit : Option Int} {failure : Failure}
    (h : g.overLimit? nullable limit = some failure) :
    ∃ r positions m, failure = .expansionLimit r positions m := by
  cases limit with
  | none => simp [overLimit?] at h
  | some m =>
    simp only [overLimit?, Option.bind_eq_bind, Option.bind_some, Option.bind_eq_some_iff] at h
    obtain ⟨r, _, h⟩ := h
    exact ⟨r, _, m, (Option.some.inj h).symm⟩

end Grammar

end Chomsky

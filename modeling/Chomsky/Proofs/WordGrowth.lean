import Chomsky.Proofs.WordTable
import Chomsky.Proofs.ChomskyNormalForm

/-!
# Growing the words of a grammar

Passes over the rules go on until one adds nothing, and then every rule holds for the words found so
far: what was found is all that the rules derive up to the limit (`Saturates.reading_eq`). That this
comes to an end is seen from a single word. As long as not all is known about its factors, every
pass finds one of them for some nonterminal that derives it, and there are not many factors
(`Grown.exists_grow`). So the number of passes that `saturate` allows never matters, and `wordsUpTo`
lists the language of a valid grammar up to a length (`wordsUpTo_language`).
-/

namespace Chomsky

/-- The factors of a word, cut out by where they begin and how long they are. -/
def Word.factors (w : Word) : Finset Word :=
  (Finset.range (w.length + 1) ×ˢ Finset.range (w.length + 1)).image
    fun cut => (w.drop cut.1).take cut.2

theorem Word.mem_factors {u w : Word} (h : u <:+: w) : u ∈ w.factors := by
  obtain ⟨before, after, rfl⟩ := h
  refine Finset.mem_image.mpr ⟨(before.length, u.length), ?_, ?_⟩
  · simp only [Finset.mem_product, Finset.mem_range, List.length_append]
    omega
  · simp

theorem Word.infix_of_mem_factors {u w : Word} (h : u ∈ w.factors) : u <:+: w := by
  obtain ⟨cut, -, rfl⟩ := Finset.mem_image.mp h
  exact (List.take_prefix _ _).isInfix.trans (List.drop_suffix _ _).isInfix

theorem Word.card_factors_le (w : Word) : w.factors.card ≤ (w.length + 1) * (w.length + 1) := by
  refine Finset.card_image_le.trans ?_
  rw [Finset.card_product, Finset.card_range]

namespace WordTable

variable {rules : List Rule} {nonterminals : List Nonterminal} {limit passes : Nat}
  {table table' final : WordTable} {A : Nonterminal} {w : Word}

/-- Passes go on from a table until one leaves the number of words as it is. How many passes there
are is not bounded. -/
inductive Saturates {ε : Type} (pass : WordTable → Except ε WordTable)
    (nonterminals : List Nonterminal) : WordTable → WordTable → Prop
  | last {table table' : WordTable} (hpass : pass table = .ok table')
      (hsizes : table'.sizes nonterminals = table.sizes nonterminals) :
      Saturates pass nonterminals table table'
  | more {table table' final : WordTable} (hpass : pass table = .ok table')
      (hsizes : table'.sizes nonterminals ≠ table.sizes nonterminals)
      (hrest : Saturates pass nonterminals table' final) :
      Saturates pass nonterminals table final

/-- No words of any nonterminal. -/
def start (nonterminals : List Nonterminal) : WordTable :=
  .ofList (nonterminals.map fun A => (A, ∅))

theorem mem_start : A ∈ start nonterminals ↔ A ∈ nonterminals := by
  rw [start, Std.HashMap.mem_ofList]
  simp

theorem reading_start (h : nonterminals.Nodup) : (start nonterminals).reading A = 0 := by
  by_cases hA : A ∈ nonterminals
  · have hdistinct : (nonterminals.map fun B => (B, (∅ : WordSet))).Pairwise
        fun a b => (a.1 == b.1) = false := by
      rw [List.pairwise_map]
      exact h.imp fun hne => by simpa using hne
    have hlookup : (start nonterminals)[A]? = some ∅ :=
      Std.HashMap.getElem?_ofList_of_mem (beq_self_eq_true A) hdistinct (List.mem_map_of_mem hA)
    rw [reading_of_some hlookup, WordSet.language_empty]
  · exact reading_of_notMem fun h => hA (mem_start.mp h)

/-- The rules use no nonterminals but these. -/
def NamesOnly (nonterminals : List Nonterminal) (rules : List Rule) : Prop :=
  ∀ r ∈ rules, r.left ∈ nonterminals ∧ ∀ A, .nonterminal A ∈ r.right → A ∈ nonterminals

/-- A table between passes: it has the declared nonterminals, and for each of them words that the
rules derive and that are not too long. -/
structure Grown (rules : List Rule) (nonterminals : List Nonterminal) (limit : Nat)
    (table : WordTable) : Prop where
  declared : ∀ A, A ∈ table ↔ A ∈ nonterminals
  sound : ∀ A, table.reading A ≤ upTo limit (words rules A)

theorem Grown.exists_pass (h : Grown rules nonterminals limit table)
    (hdecl : NamesOnly nonterminals rules) :
    ∃ table', rules.foldlM (applyRule limit) table = .ok table' ∧
      Pass rules limit table table' := by
  refine WordTable.exists_pass limit ?_
  simpa only [h.declared, NamesOnly] using hdecl

theorem Grown.pass (h : Grown rules nonterminals limit table)
    (hpass : Pass rules limit table table') : Grown rules nonterminals limit table' where
  declared A := (hpass.declared A).trans (h.declared A)
  sound := hpass.sound (words rules) (closed_words rules) h.sound

/-! ## When nothing is left to find -/

/-- If a pass finds nothing among some words, and all factors of these words are among them, then
all of them that the rules derive had been found. -/
theorem Pass.settled (hpass : Pass rules limit table table') {P : Word → Prop}
    (hfactor : ∀ u w, u <:+: w → P w → P u) (hshort : ∀ w, P w → w.length ≤ limit)
    (hnone : ∀ A w, P w → w ∈ table'.reading A → w ∈ table.reading A) (hP : P w)
    (hw : w ∈ words rules A) : w ∈ table.reading A := by
  -- the words without the property do not count, so they are in the reading of every nonterminal
  let I : Reading := fun A => {w | P w → w ∈ table.reading A}
  have hform : ∀ α w, P w → w ∈ I.form α → w ∈ table.reading.form α := by
    intro α
    induction α with
    | nil => exact fun _ _ h => h
    | cons X α ih =>
      intro w hP hw
      rw [Reading.form_cons] at hw ⊢
      obtain ⟨u, hu, v, hv, rfl⟩ := Language.mem_mul.mp hw
      have hPu : P u := hfactor u _ (List.prefix_append u v).isInfix hP
      have hPv : P v := hfactor v _ (List.suffix_append u v).isInfix hP
      refine Language.append_mem_mul ?_ (ih v hPv hv)
      cases X with
      | terminal a => exact hu
      | nonterminal B => exact hu hPu
  have hclosed : I.Closed rules := fun r hr w hw hP =>
    hnone r.left w hP (hpass.applied r hr ⟨hform r.right w hP hw, hshort w hP⟩)
  exact words_le hclosed A hw hP

/-- A pass leaves the number of words as it is just if it finds no words. -/
theorem Pass.sizes_eq_iff (hpass : Pass rules limit table table')
    (hdecl : ∀ A, A ∈ table ↔ A ∈ nonterminals) :
    table'.sizes nonterminals = table.sizes nonterminals ↔
      ∀ A, table'.reading A ≤ table.reading A := by
  rw [sizes, sizes, List.map_inj_left]
  refine forall_congr' fun A => ?_
  by_cases hA : A ∈ table
  · obtain ⟨found, hfound⟩ := exists_words hA
    obtain ⟨found', hfound'⟩ := exists_words ((hpass.declared A).mpr hA)
    have hgrows := hpass.grows A
    rw [reading_of_some hfound, reading_of_some hfound'] at hgrows ⊢
    rw [hfound, hfound', imp_iff_right ((hdecl A).mp hA)]
    constructor
    · intro hsize w
      exact WordSet.mem_of_size_le (fun _ h => hgrows h) (Nat.le_of_eq hsize)
    · intro hle
      exact Nat.le_antisymm (WordSet.size_le fun _ h => hle h) (WordSet.size_le fun _ h => hgrows h)
  · have hA' : A ∉ table' := fun h => hA ((hpass.declared A).mp h)
    rw [reading_of_notMem hA']
    constructor
    · exact fun _ _ hw => absurd hw (Language.notMem_zero _)
    · exact fun _ h => absurd ((hdecl A).mpr h) hA

/-- Where passes end, the table has all words up to the limit. -/
theorem Saturates.reading_eq (hdecl : NamesOnly nonterminals rules)
    (h : Saturates (rules.foldlM (applyRule limit)) nonterminals table final)
    (htable : Grown rules nonterminals limit table) :
    (∀ A, A ∈ final ↔ A ∈ nonterminals) ∧ ∀ A, final.reading A = upTo limit (words rules A) := by
  have hexists : ∀ {t t' : WordTable}, Grown rules nonterminals limit t →
      rules.foldlM (applyRule limit) t = .ok t' → Pass rules limit t t' := by
    intro t t' ht heq
    obtain ⟨t'', heq', hpass⟩ := ht.exists_pass hdecl
    rw [heq] at heq'
    cases heq'
    exact hpass
  induction h with
  | last heq hsizes =>
    have hpass := hexists htable heq
    have hgrown := htable.pass hpass
    have hnone := (hpass.sizes_eq_iff htable.declared).mp hsizes
    refine ⟨hgrown.declared, fun A => le_antisymm (hgrown.sound A) fun w hw => ?_⟩
    refine hpass.grows A (hpass.settled (P := fun w => w.length ≤ limit) ?_ (fun _ h => h)
      (fun B w _ h => hnone B h) hw.2 hw.1)
    exact fun u w huw hw => huw.length_le.trans hw
  | more heq hsizes _ ih => exact ih (htable.pass (hexists htable heq))

/-! ## How long it takes -/

open Classical in
/-- What is not known yet about a word: the nonterminals that derive a factor of it for which the
factor was not found. -/
noncomputable def missing (rules : List Rule) (nonterminals : List Nonterminal) (table : WordTable)
    (w : Word) : Finset (Nonterminal × Word) :=
  (nonterminals.toFinset ×ˢ w.factors).filter fun known =>
    known.2 ∈ words rules known.1 ∧ known.2 ∉ table.reading known.1

open Classical in
theorem mem_missing {known : Nonterminal × Word} :
    known ∈ missing rules nonterminals table w ↔ (known.1 ∈ nonterminals ∧ known.2 ∈ w.factors) ∧
      known.2 ∈ words rules known.1 ∧ known.2 ∉ table.reading known.1 := by
  rw [missing, Finset.mem_filter, Finset.mem_product, List.mem_toFinset]

/-- What a pass finds was missing before. -/
theorem Grown.missing_of_found (h : Grown rules nonterminals limit table)
    (hpass : Pass rules limit table table') {v : Word} (hv : v <:+: w)
    (hfound : v ∈ table'.reading A) (hnot : v ∉ table.reading A) :
    (A, v) ∈ missing rules nonterminals table w := by
  have hgrown := h.pass hpass
  have hA : A ∈ nonterminals := by
    by_contra hA
    rw [reading_of_notMem fun hmem => hA ((hgrown.declared A).mp hmem)] at hfound
    exact Language.notMem_zero v hfound
  exact mem_missing.mpr ⟨⟨hA, Word.mem_factors hv⟩, (hgrown.sound A hfound).1, hnot⟩

theorem Pass.missing_subset (hpass : Pass rules limit table table')
    (nonterminals : List Nonterminal) (w : Word) :
    missing rules nonterminals table' w ⊆ missing rules nonterminals table w := by
  intro known hknown
  rw [mem_missing] at hknown ⊢
  obtain ⟨hmem, hderived, hnot⟩ := hknown
  exact ⟨hmem, hderived, fun h => hnot (hpass.grows _ h)⟩

/-- A pass finds something about a word unless everything is known about it. -/
theorem Grown.missing_lt (h : Grown rules nonterminals limit table)
    (hpass : Pass rules limit table table') (hw : w.length ≤ limit)
    (hmissing : (missing rules nonterminals table w).Nonempty) :
    (missing rules nonterminals table' w).card < (missing rules nonterminals table w).card := by
  refine Finset.card_lt_card ((hpass.missing_subset nonterminals w).ssubset_of_ne fun heq => ?_)
  have hnone : ∀ A v, v <:+: w → v ∈ table'.reading A → v ∈ table.reading A := by
    intro A v hv hfound
    by_contra hnot
    have hmem := h.missing_of_found hpass hv hfound hnot
    rw [← heq, mem_missing] at hmem
    exact hmem.2.2 hfound
  obtain ⟨⟨A, u⟩, hu⟩ := hmissing
  rw [mem_missing] at hu
  obtain ⟨⟨_, hfactor⟩, hderived, hnot⟩ := hu
  refine hnot (hpass.settled (P := fun u => u <:+: w) (fun _ _ => List.IsInfix.trans) ?_ hnone
    (Word.infix_of_mem_factors hfactor) hderived)
  exact fun u hu => hu.length_le.trans hw

open Classical in
theorem card_missing_lt (hw : w.length ≤ limit) :
    (missing rules nonterminals table w).card < enoughPasses nonterminals limit := by
  have hcard : (missing rules nonterminals table w).card ≤
      nonterminals.length * ((limit + 1) * (limit + 2)) := by
    refine (Finset.card_filter_le _ _).trans ?_
    rw [Finset.card_product]
    refine Nat.mul_le_mul (List.toFinset_card_le _) (w.card_factors_le.trans ?_)
    exact Nat.mul_le_mul (by omega) (by omega)
  rw [← Nat.mul_assoc] at hcard
  exact Nat.lt_succ_of_le hcard

/-- Passes end by themselves before as many as are missing for any word were made. -/
theorem Grown.exists_grow (h : Grown rules nonterminals limit table)
    (hdecl : NamesOnly nonterminals rules)
    (hpasses : ∀ w, w.length ≤ limit → (missing rules nonterminals table w).card < passes) :
    ∃ final, grow (rules.foldlM (applyRule limit)) nonterminals passes table = .ok final ∧
      Saturates (rules.foldlM (applyRule limit)) nonterminals table final := by
  induction passes generalizing table with
  | zero => exact absurd (hpasses [] (Nat.zero_le limit)) (Nat.not_lt_zero _)
  | succ passes ih =>
    obtain ⟨next, hnext, hpass⟩ := h.exists_pass hdecl
    rw [grow, hnext]
    show ∃ final, (if next.sizes nonterminals = table.sizes nonterminals then _ else _) = _ ∧ _
    by_cases hsizes : next.sizes nonterminals = table.sizes nonterminals
    · exact ⟨next, if_pos hsizes, .last hnext hsizes⟩
    · obtain ⟨A, v, hfound, hnot⟩ : ∃ A v, v ∈ next.reading A ∧ v ∉ table.reading A := by
        rw [hpass.sizes_eq_iff h.declared] at hsizes
        push Not at hsizes
        obtain ⟨A, hA⟩ := hsizes
        exact ⟨A, Set.not_subset.mp hA⟩
      have hv := (hpass.sound _ (closed_words rules) h.sound A hfound).2
      have hpositive := hpasses v hv
      have hmem := Finset.card_pos.mpr ⟨_, h.missing_of_found hpass List.infix_rfl hfound hnot⟩
      have hpasses' : ∀ w, w.length ≤ limit →
          (missing rules nonterminals next w).card < passes := by
        intro w hw
        have hbound := hpasses w hw
        have hsub := Finset.card_le_card (hpass.missing_subset nonterminals w)
        rcases (missing rules nonterminals table w).eq_empty_or_nonempty with hempty | hmissing
        · rw [hempty, Finset.card_empty] at hsub
          omega
        · have hlt := h.missing_lt hpass hw hmissing
          omega
      obtain ⟨final, hfinal, hsaturates⟩ := ih (h.pass hpass) hpasses'
      exact ⟨final, (if_neg hsizes).trans hfinal, .more hnext hsizes hsaturates⟩

theorem grown_start (h : nonterminals.Nodup) :
    Grown rules nonterminals limit (start nonterminals) where
  declared _ := mem_start
  sound _ := by
    rw [reading_start h]
    exact fun w hw => absurd hw (Language.notMem_zero w)

/-- The number of passes that are allowed is always enough. -/
theorem exists_saturate (hnodup : nonterminals.Nodup) (hdecl : NamesOnly nonterminals rules)
    (limit : Nat) :
    ∃ final, saturate (rules.foldlM (applyRule limit)) nonterminals limit = .ok final ∧
      Saturates (rules.foldlM (applyRule limit)) nonterminals (start nonterminals) final :=
  (grown_start hnodup).exists_grow hdecl fun _ => card_missing_lt

theorem exists_wordsOf {start : Nonterminal} (h : start ∈ table) :
    ∃ ws, table.wordsOf start = .ok ws ∧ ws.Nodup ∧ ∀ w, w ∈ ws ↔ w ∈ table.reading start := by
  obtain ⟨found, hfound⟩ := exists_words h
  refine ⟨Word.sort found.toList, ?_, ?_, fun w => ?_⟩
  · rw [wordsOf, hfound]
  · rw [Word.sort, (List.mergeSort_perm _ _).nodup_iff]
    exact found.distinct_toList.imp fun hne => by simpa using hne
  · rw [Word.sort, List.mem_mergeSort, Std.HashSet.mem_toList, reading_of_some hfound,
      WordSet.mem_language]

end WordTable

namespace Grammar

variable {g : Grammar}

theorem Valid.namesOnly (hg : g.Valid) : WordTable.NamesOnly g.nonterminals g.rules := fun r hr =>
  ⟨hg.left_declared r hr, fun _ hA => declares_nonterminal.mp (hg.right_declared r hr _ hA)⟩

/-- The passes over the rules of a valid grammar end by themselves, and the words that are listed
then are those of its language up to the length. -/
theorem wordsUpTo_language (hg : g.Valid) (n : Nat) :
    ∃ table ws,
      WordTable.Saturates (g.rules.foldlM (WordTable.applyRule n)) g.nonterminals
        (WordTable.start g.nonterminals) table ∧
      g.wordsUpTo n = .ok ws ∧ (g.isEmpty = false → table.wordsOf g.start = .ok ws) ∧
      ws.Nodup ∧ ∀ w, w ∈ ws ↔ w ∈ g.language ∧ w.length ≤ n := by
  obtain ⟨table, htable, hsaturates⟩ :=
    WordTable.exists_saturate hg.nonterminals_nodup hg.namesOnly n
  obtain ⟨hdecl, hreading⟩ :=
    hsaturates.reading_eq hg.namesOnly (WordTable.grown_start hg.nonterminals_nodup)
  refine ⟨table, ?_⟩
  by_cases hempty : g.isEmpty = true
  · refine ⟨[], hsaturates, ?_, fun h => ?_, List.nodup_nil, fun w => ?_⟩
    · rw [wordsUpTo, hempty]
      rfl
    · rw [hempty] at h
      cases h
    · simp [notMem_language_of_isEmpty hempty]
  · have hstart : g.start ∈ table :=
      (hdecl g.start).mpr (hg.start_declared.resolve_left hempty)
    obtain ⟨ws, hws, hnodup, hmem⟩ := WordTable.exists_wordsOf hstart
    refine ⟨ws, hsaturates, ?_, fun _ => hws, hnodup, fun w => ?_⟩
    · rw [Bool.not_eq_true] at hempty
      rw [wordsUpTo, hempty, if_neg (by omega)]
      show (WordTable.saturate _ g.nonterminals (n : Int).toNat >>= _) = _
      rw [Int.toNat_natCast, htable]
      exact hws
    · rw [hmem, hreading]
      rfl

theorem pair_mem_words_brackets : [⟨"("⟩, ⟨")"⟩] ∈ words brackets.rules ⟨"S"⟩ := by
  refine closed_words brackets.rules
    ⟨⟨"S"⟩, [.terminal ⟨"("⟩, .nonterminal ⟨"S"⟩, .terminal ⟨")"⟩]⟩ (by decide) ?_
  simp only [Reading.form_cons, Reading.form_nil, mul_one, Reading.symbol_terminal]
  have hinner : [] ++ [⟨")"⟩] ∈ words brackets.rules ⟨"S"⟩ * {[⟨")"⟩]} :=
    Language.append_mem_mul nil_mem_words_brackets rfl
  have hopening : [⟨"("⟩] ∈ ({[⟨"("⟩]} : Language Terminal) := rfl
  exact Language.append_mem_mul hopening hinner

/-- Up to length two there is the empty word and one pair of brackets, but no pair in a pair. -/
theorem wordsUpTo_language_brackets : ∃ ws, brackets.wordsUpTo 2 = .ok ws ∧
    [] ∈ ws ∧ [⟨"("⟩, ⟨")"⟩] ∈ ws ∧ [⟨"("⟩, ⟨"("⟩, ⟨")"⟩, ⟨")"⟩] ∉ ws := by
  obtain ⟨_, ws, _, hws, _, _, hmem⟩ := wordsUpTo_language valid_brackets 2
  refine ⟨ws, hws, (hmem _).mpr ⟨nil_mem_words_brackets, by decide⟩,
    (hmem _).mpr ⟨pair_mem_words_brackets, by decide⟩, fun h => ?_⟩
  exact absurd ((hmem _).mp h).2 (by decide)

end Grammar

end Chomsky

import Chomsky.Proofs.Validity
import Chomsky.Proofs.Derivation

/-!
# Tables of words

A table is a reading: every nonterminal is read as the words that were found for it. In these terms
a right side is walked through by multiplying languages and dropping what is too long
(`exists_extend`), and applying a rule adds the words that its right side is read as
(`exists_applyRule`). A pass over rules adds all this and nothing else (`exists_pass`).
-/

namespace Chomsky

/-- The words of a language that are not longer than the limit. -/
def upTo (limit : Nat) (L : Language Terminal) : Language Terminal :=
  {w | w ∈ L ∧ w.length ≤ limit}

section UpTo

variable {limit : Nat} {L M : Language Terminal} {w : Word}

@[simp] theorem mem_upTo : w ∈ upTo limit L ↔ w ∈ L ∧ w.length ≤ limit := Iff.rfl

theorem upTo_mono (h : L ≤ M) : upTo limit L ≤ upTo limit M := fun _ hw => ⟨h hw.1, hw.2⟩

theorem upTo_eq_self (h : ∀ w ∈ L, w.length ≤ limit) : upTo limit L = L := by
  ext w
  exact and_iff_left_of_imp (h w)

/-- A part that is too long makes the whole too long. -/
theorem upTo_upTo_mul : upTo limit (upTo limit L * M) = upTo limit (L * M) := by
  ext w
  simp only [mem_upTo, Language.mem_mul]
  constructor
  · intro h
    obtain ⟨⟨u, ⟨hu, -⟩, v, hv, rfl⟩, hlen⟩ := h
    exact ⟨⟨u, hu, v, hv, rfl⟩, hlen⟩
  · intro h
    obtain ⟨⟨u, hu, v, hv, rfl⟩, hlen⟩ := h
    have hfirst : u.length ≤ limit := by rw [List.length_append] at hlen; omega
    exact ⟨⟨u, ⟨hu, hfirst⟩, v, hv, rfl⟩, hlen⟩

end UpTo

namespace WordSet

variable {s t : WordSet} {v w : Word}

/-- The words of a set as a language. -/
def language (s : WordSet) : Language Terminal := {w | w ∈ s}

@[simp] theorem mem_language : w ∈ s.language ↔ w ∈ s := Iff.rfl

@[simp] theorem language_empty : (∅ : WordSet).language = 0 := by
  ext w
  simp

@[simp] theorem language_singleton : ({v} : WordSet).language = {v} := by
  ext w
  rw [mem_language, Std.HashSet.singleton_eq_insert, Std.HashSet.mem_insert]
  simp only [Std.HashSet.not_mem_empty, or_false, beq_iff_eq]
  exact eq_comm

/-- A fold whose steps add the words with some property adds the words that have it at one step. -/
theorem mem_fold_iff {step : WordSet → Word → WordSet} {P : Word → Prop}
    (hstep : ∀ s v, w ∈ step s v ↔ w ∈ s ∨ P v) : w ∈ t.fold step s ↔ w ∈ s ∨ ∃ v ∈ t, P v := by
  rw [Std.HashSet.fold_eq_foldl_toList]
  simp only [← Std.HashSet.mem_toList (m := t)]
  induction t.toList generalizing s with
  | nil => simp
  | cons v l ih =>
    rw [List.foldl_cons, ih, hstep, or_assoc]
    simp

theorem toList_subperm (h : ∀ w ∈ s, w ∈ t) : s.toList.Subperm t.toList := by
  have hnodup : s.toList.Nodup := s.distinct_toList.imp fun hne => by simpa using hne
  refine hnodup.subperm fun w hw => ?_
  rw [Std.HashSet.mem_toList] at hw ⊢
  exact h w hw

theorem size_le (h : ∀ w ∈ s, w ∈ t) : s.size ≤ t.size := by
  have hlen := (toList_subperm h).length_le
  rwa [Std.HashSet.length_toList, Std.HashSet.length_toList] at hlen

/-- A set that has the words of another one, and is no larger, has no other words. -/
theorem mem_of_size_le (h : ∀ w ∈ s, w ∈ t) (hsize : t.size ≤ s.size) (hw : w ∈ t) : w ∈ s := by
  have hperm : s.toList.Perm t.toList := (toList_subperm h).perm_of_length_le (by simpa using hsize)
  rw [← Std.HashSet.mem_toList] at hw ⊢
  exact hperm.mem_iff.mpr hw

end WordSet

namespace WordTable

variable {table table' : WordTable} {limit : Nat} {heads tails : WordSet} {A : Nonterminal}
  {w : Word}

/-- Every nonterminal is read as the words that were found for it. -/
def reading (table : WordTable) : Reading := fun A => (table[A]?.getD ∅).language

theorem reading_of_some {words : WordSet} (h : table[A]? = some words) :
    table.reading A = words.language := by
  rw [reading, h]
  rfl

/-- Nothing was found for a nonterminal that is not in the table. -/
theorem reading_of_notMem (h : A ∉ table) : table.reading A = 0 := by
  rw [reading, Std.HashMap.getElem?_eq_none h]
  exact WordSet.language_empty

theorem exists_words (h : A ∈ table) : ∃ words, table[A]? = some words :=
  Option.isSome_iff_exists.mp (Std.HashMap.mem_iff_isSome_getElem?.mp h)

/-! ## Right sides -/

theorem language_concatenations (hheads : ∀ v ∈ heads, v.length ≤ limit) (tails : WordSet) :
    (concatenations limit heads tails).language =
      upTo limit (heads.language * tails.language) := by
  ext w
  rw [WordSet.mem_language, concatenations, WordSet.mem_fold_iff
    (P := fun v => ∃ u ∈ tails, u.length ≤ limit - v.length ∧ v ++ u = w)]
  · simp only [Std.HashSet.not_mem_empty, false_or, mem_upTo, Language.mem_mul,
      WordSet.mem_language]
    constructor
    · intro h
      obtain ⟨v, hv, u, hu, hroom, rfl⟩ := h
      have hlen := hheads v hv
      refine ⟨⟨v, hv, u, hu, rfl⟩, ?_⟩
      rw [List.length_append]
      omega
    · intro h
      obtain ⟨⟨v, hv, u, hu, rfl⟩, hlen⟩ := h
      rw [List.length_append] at hlen
      exact ⟨v, hv, u, hu, by omega, rfl⟩
  · intro found v
    refine WordSet.mem_fold_iff fun found u => ?_
    by_cases hroom : u.length ≤ limit - v.length
    · rw [if_pos hroom, Std.HashSet.mem_insert, beq_iff_eq, or_comm]
      simp [hroom]
    · rw [if_neg hroom]
      simp [hroom]

theorem exists_symbolWords {X : Symbol} (h : ∀ A, X = .nonterminal A → A ∈ table) :
    ∃ words, table.symbolWords X = .ok words ∧ words.language = table.reading.symbol X := by
  cases X with
  | terminal a => exact ⟨{[a]}, rfl, WordSet.language_singleton⟩
  | nonterminal A =>
    obtain ⟨words, hwords⟩ := exists_words (h A rfl)
    refine ⟨words, ?_, (reading_of_some hwords).symm⟩
    rw [symbolWords, hwords]

/-- Walking through a right side multiplies the languages of its symbols. -/
theorem exists_extend (limit : Nat) {right : List Symbol} (heads : WordSet)
    (hright : ∀ A, .nonterminal A ∈ right → A ∈ table) (hheads : ∀ v ∈ heads, v.length ≤ limit) :
    ∃ words, extend table.symbolWords limit heads right = .ok words ∧
      words.language = upTo limit (heads.language * table.reading.form right) := by
  induction right generalizing heads with
  | nil =>
    refine ⟨heads, rfl, ?_⟩
    rw [Reading.form_nil, mul_one]
    exact (upTo_eq_self hheads).symm
  | cons X right ih =>
    rw [extend]
    by_cases hempty : heads.isEmpty = true
    · refine ⟨heads, if_pos hempty, ?_⟩
      have hzero : heads.language = 0 := by
        ext w
        simpa using Std.HashSet.isEmpty_iff_forall_not_mem.mp hempty w
      rw [hzero, zero_mul]
      exact (upTo_eq_self fun w hw => absurd hw (Language.notMem_zero w)).symm
    · obtain ⟨tails, htails, hlanguage⟩ := exists_symbolWords (X := X) fun A hA =>
        hright A (hA ▸ List.mem_cons_self)
      have hconcat := language_concatenations hheads tails
      have hshort : ∀ v ∈ concatenations limit heads tails, v.length ≤ limit := fun v hv => by
        rw [← WordSet.mem_language, hconcat] at hv
        exact hv.2
      obtain ⟨words, hwords, heq⟩ := ih _ (fun A hA => hright A (List.mem_cons_of_mem _ hA)) hshort
      refine ⟨words, ?_, ?_⟩
      · rw [if_neg hempty, htails]
        exact hwords
      · rw [heq, hconcat, upTo_upTo_mul, hlanguage, Reading.form_cons, mul_assoc]

/-! ## Rules -/

theorem mem_reading_add {B : Nonterminal} {words : WordSet} (hA : A ∈ table) :
    w ∈ (table.add A words).reading B ↔ w ∈ table.reading B ∨ B = A ∧ w ∈ words := by
  rw [reading, add, Std.HashMap.getElem?_modify]
  by_cases hB : A = B
  · obtain rfl := hB
    obtain ⟨known, hknown⟩ := exists_words hA
    rw [if_pos (beq_self_eq_true A), reading_of_some hknown, hknown]
    show w ∈ words.fold _ known ↔ _
    rw [WordSet.mem_fold_iff (P := (· = w)) fun s v => by
      rw [Std.HashSet.mem_insert, beq_iff_eq, or_comm]]
    simp
  · rw [if_neg (by simpa using hB)]
    simp [reading, Ne.symm hB]

/-- What applying a rule changes. -/
theorem exists_applyRule (limit : Nat) {r : Rule} (hleft : r.left ∈ table)
    (hright : ∀ A, .nonterminal A ∈ r.right → A ∈ table) :
    ∃ table', applyRule limit table r = .ok table' ∧ (∀ A, A ∈ table' ↔ A ∈ table) ∧
      ∀ A w, w ∈ table'.reading A ↔
        w ∈ table.reading A ∨ A = r.left ∧ w ∈ upTo limit (table.reading.form r.right) := by
  obtain ⟨words, hwords, hlanguage⟩ := exists_extend limit {[]} hright fun v hv => by
    rw [← WordSet.mem_language, WordSet.language_singleton] at hv
    obtain rfl := hv
    exact Nat.zero_le limit
  refine ⟨table.add r.left words, ?_, fun A => ?_, fun A w => ?_⟩
  · rw [applyRule, hwords, if_neg (by simpa using hleft)]
    rfl
  · rw [add, Std.HashMap.mem_modify]
  · rw [mem_reading_add hleft, ← WordSet.mem_language, hlanguage, WordSet.language_singleton]
    show _ ∨ _ ∧ w ∈ upTo limit (1 * _) ↔ _
    rw [one_mul]

/-! ## Passes -/

/-- What a pass over rules does to a table: every rule holds for the words from before the pass, and
nothing is found that a reading in which the rules hold does not have. -/
structure Pass (rules : List Rule) (limit : Nat) (table table' : WordTable) : Prop where
  declared : ∀ A, A ∈ table' ↔ A ∈ table
  grows : ∀ A, table.reading A ≤ table'.reading A
  applied : ∀ r ∈ rules, upTo limit (table.reading.form r.right) ≤ table'.reading r.left
  sound : ∀ I : Reading, I.Closed rules → (∀ A, table.reading A ≤ upTo limit (I A)) →
    ∀ A, table'.reading A ≤ upTo limit (I A)

theorem exists_pass (limit : Nat) {rules : List Rule}
    (hdecl : ∀ r ∈ rules, r.left ∈ table ∧ ∀ A, .nonterminal A ∈ r.right → A ∈ table) :
    ∃ table', rules.foldlM (applyRule limit) table = .ok table' ∧
      Pass rules limit table table' := by
  induction rules generalizing table with
  | nil => exact ⟨table, rfl, fun _ => Iff.rfl, fun _ => le_rfl, by simp, fun _ _ h => h⟩
  | cons r rules ih =>
    obtain ⟨hleft, hright⟩ := hdecl r List.mem_cons_self
    obtain ⟨next, hnext, hmem, hreading⟩ := exists_applyRule limit hleft hright
    have hdecl' : ∀ s ∈ rules, s.left ∈ next ∧ ∀ A, .nonterminal A ∈ s.right → A ∈ next := by
      simp only [hmem]
      exact fun s hs => hdecl s (List.mem_cons_of_mem r hs)
    obtain ⟨table', htable', hpass⟩ := ih hdecl'
    have hgrows : ∀ A, table.reading A ≤ next.reading A := fun A w hw =>
      (hreading A w).mpr (.inl hw)
    refine ⟨table', ?_, fun A => ?_, fun A => ?_, ?_, fun I hI hsound => ?_⟩
    · rw [List.foldlM_cons, hnext]
      exact htable'
    · rw [hpass.declared, hmem]
    · exact (hgrows A).trans (hpass.grows A)
    · intro s hs
      rcases List.mem_cons.mp hs with rfl | hs
      · intro w hw
        exact hpass.grows _ ((hreading _ w).mpr (.inr ⟨rfl, hw⟩))
      · exact (upTo_mono (Reading.form_mono fun A _ => hgrows A)).trans (hpass.applied s hs)
    · refine hpass.sound I (fun s hs => hI s (List.mem_cons_of_mem r hs)) fun A w hw => ?_
      rcases (hreading A w).mp hw with hold | ⟨rfl, hnew⟩
      · exact hsound A hold
      · have hform : table.reading.form r.right ≤ I.form r.right :=
          Reading.form_mono fun B _ => (hsound B).trans fun _ h => h.1
        exact upTo_mono (hform.trans (hI r List.mem_cons_self)) hnew

end WordTable

end Chomsky

import Chomsky.Failure
import Mathlib.Data.List.Nodup

/-!
# What validity means

`Grammar.Valid` says in full what the checks of `Grammar.defect?` look for one after the other. A
check answers the grammar itself exactly if it is valid (`checked_eq_ok_iff`), so an operation that
ends with a check succeeds once its result is shown valid.
-/

namespace Chomsky

theorem firstRepeated?_go_eq_none_iff {α : Type} [BEq α] [LawfulBEq α] (seen l : List α) :
    firstRepeated?.go seen l = none ↔ l.Nodup ∧ ∀ a ∈ l, a ∉ seen := by
  induction l generalizing seen with
  | nil => simp [firstRepeated?.go]
  | cons a l ih =>
    unfold firstRepeated?.go
    by_cases ha : a ∈ seen
    · simp [ha]
    · rw [if_neg (by simpa using ha), ih, List.nodup_cons, List.forall_mem_cons]
      constructor
      · intro h
        obtain ⟨hl, hseen⟩ := h
        exact ⟨⟨fun h => hseen a h List.mem_cons_self, hl⟩, ha,
          fun b hb h => hseen b hb (List.mem_cons_of_mem _ h)⟩
      · intro h
        obtain ⟨⟨hal, hl⟩, -, hseen⟩ := h
        refine ⟨hl, fun b hb h => ?_⟩
        rcases List.mem_cons.mp h with rfl | h
        · exact hal hb
        · exact hseen b hb h

theorem firstRepeated?_eq_none_iff {α : Type} [BEq α] [LawfulBEq α] {l : List α} :
    firstRepeated? l = none ↔ l.Nodup := by
  rw [firstRepeated?, firstRepeated?_go_eq_none_iff]
  simp

namespace Grammar

variable {g : Grammar}

@[simp] theorem declares_nonterminal {A : Nonterminal} :
    g.declares (.nonterminal A) = true ↔ A ∈ g.nonterminals := by simp [declares]

theorem isEmpty_iff : g.isEmpty = true ↔ g.nonterminals = [] ∧ g.rules = [] := by
  simp [isEmpty, List.isEmpty_iff]

theorem isEmpty_eq_false_of_mem {A : Nonterminal} (hA : A ∈ g.nonterminals) : g.isEmpty = false := by
  rw [Bool.eq_false_iff, ne_eq, isEmpty_iff]
  exact fun he => List.ne_nil_of_mem hA he.1

theorem mem_symbolNames {name : String} :
    name ∈ g.symbolNames ↔ ⟨name⟩ ∈ g.nonterminals ∨ ⟨name⟩ ∈ g.terminals := by
  simp only [symbolNames, List.mem_append, List.mem_map]
  constructor
  · intro h
    rcases h with ⟨A, hA, rfl⟩ | ⟨a, ha, rfl⟩
    · exact .inl hA
    · exact .inr ha
  · intro h
    rcases h with hA | ha
    · exact .inl ⟨_, hA, rfl⟩
    · exact .inr ⟨_, ha, rfl⟩

theorem notMem_of_fresh {X : Nonterminal} (h : X.name ∉ g.symbolNames) : X ∉ g.nonterminals :=
  fun hX => h (mem_symbolNames.mpr (.inl hX))

/-- Nothing is declared twice, and what is used is declared. Only the start symbol of the empty
grammar need not be. -/
structure Valid (g : Grammar) : Prop where
  nonterminals_nodup : g.nonterminals.Nodup
  terminals_nodup : g.terminals.Nodup
  names_disjoint : ∀ A ∈ g.nonterminals, ∀ a ∈ g.terminals, A.name ≠ a.name
  start_declared : g.isEmpty = true ∨ g.start ∈ g.nonterminals
  left_declared : ∀ r ∈ g.rules, r.left ∈ g.nonterminals
  right_declared : ∀ r ∈ g.rules, ∀ X ∈ r.right, g.declares X = true

theorem sharedNames_eq_nil_iff :
    g.sharedNames = [] ↔ ∀ A ∈ g.nonterminals, ∀ a ∈ g.terminals, A.name ≠ a.name := by
  simp only [sharedNames, List.eq_nil_iff_forall_not_mem, List.mem_mergeSort, List.mem_filter,
    List.mem_eraseDups, List.mem_map, List.contains_iff_mem]
  constructor
  · intro h A hA a ha hname
    exact h a.name ⟨⟨A, hA, hname⟩, ha⟩
  · rintro h _ ⟨⟨A, hA, rfl⟩, ha⟩
    exact h A hA _ ha rfl

theorem ruleDefect?_eq_none_iff {r : Rule} :
    g.ruleDefect? r = none ↔ r.left ∈ g.nonterminals ∧ ∀ X ∈ r.right, g.declares X = true := by
  unfold ruleDefect?
  by_cases h : r.left ∈ g.nonterminals <;> simp [h]

theorem referenceDefect?_eq_none_iff :
    g.referenceDefect? = none ↔
      (g.isEmpty = true ∨ g.start ∈ g.nonterminals) ∧
        ∀ r ∈ g.rules, r.left ∈ g.nonterminals ∧ ∀ X ∈ r.right, g.declares X = true := by
  unfold referenceDefect?
  by_cases he : g.isEmpty = true
  · have hrules : g.rules = [] := (isEmpty_iff.mp he).2
    simp [he, hrules]
  · by_cases hs : g.start ∈ g.nonterminals <;> simp [he, hs, ruleDefect?_eq_none_iff]

theorem defect?_eq_none_iff : g.defect? = none ↔ g.Valid := by
  unfold defect?
  simp only [Option.orElse_eq_orElse, Option.orElse_eq_or, Option.or_eq_none_iff,
    Option.map_eq_none_iff, firstRepeated?_eq_none_iff, referenceDefect?_eq_none_iff]
  constructor
  · intro h
    obtain ⟨hN, hT, hshared, hstart, hrules⟩ := h
    refine ⟨hN, hT, sharedNames_eq_nil_iff.mp ?_, hstart, fun r hr => (hrules r hr).1,
      fun r hr => (hrules r hr).2⟩
    by_contra h
    simp [h] at hshared
  · intro h
    obtain ⟨hN, hT, hnames, hstart, hleft, hright⟩ := h
    have hshared := sharedNames_eq_nil_iff.mpr hnames
    exact ⟨hN, hT, by simp [hshared], hstart, fun r hr => ⟨hleft r hr, hright r hr⟩⟩

theorem checked_eq_ok_iff {r : Grammar} : g.checked = .ok r ↔ g.Valid ∧ r = g := by
  rw [checked, validated, ← defect?_eq_none_iff]
  cases h : g.defect? <;> simp [Except.mapError, eq_comm]

theorem Valid.checked (h : g.Valid) : g.checked = .ok g := checked_eq_ok_iff.mpr ⟨h, rfl⟩

/-- Without nonterminals there are no rules. -/
theorem Valid.isEmpty_iff_nonterminals (h : g.Valid) : g.isEmpty = true ↔ g.nonterminals = [] := by
  rw [isEmpty_iff]
  refine and_iff_left_of_imp fun hnil => List.eq_nil_iff_forall_not_mem.mpr fun r hr => ?_
  have hleft := h.left_declared r hr
  rw [hnil] at hleft
  exact List.not_mem_nil hleft

/-- Names that are not in use may be declared, and then used. -/
theorem Valid.extend (h : g.Valid) {new : List Nonterminal} (hnew : new.Nodup)
    (hfresh : ∀ X ∈ new, X.name ∉ g.symbolNames) {r : Grammar}
    (hN : r.nonterminals.Perm (new ++ g.nonterminals)) (hT : r.terminals = g.terminals)
    (hstart : r.isEmpty = true ∨ r.start ∈ r.nonterminals)
    (hleft : ∀ s ∈ r.rules, s.left ∈ r.nonterminals)
    (hright : ∀ s ∈ r.rules, ∀ X ∈ s.right, r.declares X = true) : r.Valid where
  nonterminals_nodup := by
    rw [hN.nodup_iff]
    refine hnew.append h.nonterminals_nodup fun X hX hX' => ?_
    exact hfresh X hX (mem_symbolNames.mpr (.inl hX'))
  terminals_nodup := hT ▸ h.terminals_nodup
  names_disjoint := by
    rw [hT]
    intro A hA a ha hname
    rcases List.mem_append.mp (hN.mem_iff.mp hA) with hA | hA
    · refine hfresh A hA (mem_symbolNames.mpr (.inr ?_))
      rwa [hname]
    · exact h.names_disjoint A hA a ha hname
  start_declared := hstart
  left_declared := hleft
  right_declared := hright

theorem Valid.with_rules (h : g.Valid) {rules : List Rule}
    (hleft : ∀ r ∈ rules, r.left ∈ g.nonterminals)
    (hright : ∀ r ∈ rules, ∀ X ∈ r.right, g.declares X = true) :
    ({ g with rules } : Grammar).Valid := by
  refine h.extend .nil (by simp) (.refl _) rfl ?_ hleft hright
  refine h.start_declared.imp_left fun he => ?_
  have hN : g.nonterminals = [] := (isEmpty_iff.mp he).1
  rw [hN] at hleft
  have hR : rules = [] := List.eq_nil_iff_forall_not_mem.mpr fun r hr => by simpa using hleft r hr
  exact isEmpty_iff.mpr ⟨hN, hR⟩

theorem Valid.empty (h : g.Valid) :
    ({ g with rules := [], nonterminals := [] } : Grammar).Valid where
  nonterminals_nodup := .nil
  terminals_nodup := h.terminals_nodup
  names_disjoint := by simp
  start_declared := .inl rfl
  left_declared := by simp
  right_declared := by simp

end Grammar

end Chomsky

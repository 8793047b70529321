import Chomsky.Nullable
import Mathlib.Data.List.Basic
import Mathlib.Data.List.Sublists

/-!
# Leaving out nullable symbols

The expansions of a right side are made from selections of positions. Here they are described
without positions: an expansion is what is left of the right side after some nullable symbols were
left out (`Omits`), as long as something is left (`mem_expansions_iff`).
-/

namespace Chomsky

variable {α : Type}

/-! ## Selections -/

theorem mem_choose_iff {k : Nat} {l J : List α} : J ∈ choose k l ↔ J.Sublist l ∧ J.length = k := by
  induction l generalizing k J with
  | nil =>
    cases k with
    | zero => simp [choose]
    | succ k =>
      simp only [choose, List.not_mem_nil, List.sublist_nil, false_iff]
      intro h
      obtain ⟨rfl, h⟩ := h
      simp at h
  | cons a l ih =>
    cases k with
    | zero =>
      rw [choose, List.mem_singleton, List.length_eq_zero_iff]
      exact ⟨fun h => ⟨h ▸ List.nil_sublist _, h⟩, And.right⟩
    | succ k =>
      rw [choose, List.mem_append, List.mem_map, ih]
      constructor
      · intro h
        rcases h with ⟨J', hJ', rfl⟩ | ⟨hsub, hlen⟩
        · obtain ⟨hsub, hlen⟩ := ih.mp hJ'
          exact ⟨hsub.cons_cons a, by simp [hlen]⟩
        · exact ⟨hsub.cons a, hlen⟩
      · intro h
        obtain ⟨hsub, hlen⟩ := h
        cases hsub with
        | cons _ hsub => exact .inr ⟨hsub, hlen⟩
        | cons_cons _ hsub => exact .inl ⟨_, ih.mpr ⟨hsub, by simpa using hlen⟩, rfl⟩

theorem mem_selections_iff {l J : List α} : J ∈ selections l ↔ J.Sublist l := by
  simp only [selections, List.mem_flatMap, List.mem_range, mem_choose_iff]
  constructor
  · intro h
    obtain ⟨_, _, h, _⟩ := h
    exact h
  · intro h; exact ⟨J.length, by have := h.length_le; omega, h, rfl⟩

/-! ## Omission -/

variable {nullable right : List α}

/-- The second list is the first one after some of these symbols were left out. -/
inductive Omits (nullable : List α) : List α → List α → Prop
  | nil : Omits nullable [] []
  | keep (X : α) {right copy : List α} (h : Omits nullable right copy) :
      Omits nullable (X :: right) (X :: copy)
  | drop {X : α} (hX : X ∈ nullable) {right copy : List α} (h : Omits nullable right copy) :
      Omits nullable (X :: right) copy

namespace Omits

variable {copy : List α}

theorem refl (right : List α) : Omits nullable right right := by
  induction right with
  | nil => exact .nil
  | cons X right ih => exact .keep X ih

theorem sublist (h : Omits nullable right copy) : copy.Sublist right := by
  induction h with
  | nil => exact .slnil
  | keep X _ ih => exact ih.cons_cons X
  | drop _ _ ih => exact ih.cons _

end Omits

/-! ## Positions -/

theorem dropPositions_cons (J : List Nat) (X : α) (right : List α) :
    dropPositions J (X :: right) =
      (if J.contains 0 then [] else [X]) ++
        (right.zipIdx.filter fun p => !J.contains (p.2 + 1)).map Prod.fst := by
  rw [dropPositions, List.zipIdx_cons', List.filter_cons, List.filter_map]
  split <;> simp_all [Function.comp_def]

theorem dropPositions_zero_cons (J : List Nat) (X : α) (right : List α) :
    dropPositions (0 :: J.map Nat.succ) (X :: right) = dropPositions J right := by
  rw [dropPositions_cons, dropPositions]
  simp

theorem dropPositions_succ (J : List Nat) (X : α) (right : List α) :
    dropPositions (J.map Nat.succ) (X :: right) = X :: dropPositions J right := by
  rw [dropPositions_cons, dropPositions]
  simp

theorem dropPositions_nil (right : List α) : dropPositions [] right = right := by
  simp [dropPositions, List.filter_true]

variable [BEq α]

theorem nullablePositions_cons (X : α) :
    nullablePositions nullable (X :: right) =
      (if nullable.contains X then [0] else []) ++
        (nullablePositions nullable right).map Nat.succ := by
  rw [nullablePositions, List.zipIdx_cons', List.filter_cons, List.filter_map, nullablePositions]
  split <;> simp [Function.comp_def]

variable [LawfulBEq α] {copy : List α}

/-- Leaving out symbols is dropping a selection of the nullable positions. -/
theorem exists_dropPositions_iff :
    (∃ J, J.Sublist (nullablePositions nullable right) ∧ dropPositions J right = copy) ↔
      Omits nullable right copy := by
  induction right generalizing copy with
  | nil =>
    constructor
    · intro h
      obtain ⟨J, _, rfl⟩ := h
      exact .nil
    · intro h; cases h; exact ⟨[], List.nil_sublist _, rfl⟩
  | cons X right ih =>
    rw [nullablePositions_cons]
    constructor
    · intro h
      obtain ⟨J, hJ, rfl⟩ := h
      obtain ⟨J₀, J₁, rfl, h₀, h₁⟩ := List.sublist_append_iff.mp hJ
      obtain ⟨J', hJ', rfl⟩ := List.sublist_map_iff.mp h₁
      by_cases hX : X ∈ nullable
      · rw [if_pos (by simpa using hX)] at h₀
        rcases List.sublist_singleton.mp h₀ with rfl | rfl
        · rw [List.nil_append, dropPositions_succ]
          exact .keep X (ih.mp ⟨J', hJ', rfl⟩)
        · rw [List.singleton_append, dropPositions_zero_cons]
          exact .drop hX (ih.mp ⟨J', hJ', rfl⟩)
      · rw [if_neg (by simpa using hX), List.sublist_nil] at h₀
        rw [h₀, List.nil_append, dropPositions_succ]
        exact .keep X (ih.mp ⟨J', hJ', rfl⟩)
    · intro h
      cases h with
      | keep _ h =>
        obtain ⟨J, hJ, rfl⟩ := ih.mpr h
        exact ⟨J.map Nat.succ, (hJ.map _).trans (List.sublist_append_right _ _),
          dropPositions_succ J X right⟩
      | drop hX h =>
        obtain ⟨J, hJ, rfl⟩ := ih.mpr h
        refine ⟨0 :: J.map Nat.succ, ?_, dropPositions_zero_cons J X right⟩
        rw [if_pos (by simpa using hX)]
        exact (hJ.map _).cons_cons 0

/-- The expansions are what is left after an omission, but never nothing. -/
theorem mem_expansions_iff (hne : right ≠ []) :
    copy ∈ expansions nullable right ↔ copy ≠ [] ∧ Omits nullable right copy := by
  simp only [expansions, List.mem_append, List.mem_filter, List.mem_map, mem_selections_iff,
    List.mem_singleton, Bool.not_eq_true', List.isEmpty_eq_false_iff]
  constructor
  · intro h
    rcases h with ⟨⟨J, ⟨hJ, _⟩, rfl⟩, hcopy⟩ | rfl
    · exact ⟨hcopy, exists_dropPositions_iff.mp ⟨J, hJ, rfl⟩⟩
    · exact ⟨hne, .refl _⟩
  · intro h
    obtain ⟨hcopy, h⟩ := h
    obtain ⟨J, hJ, rfl⟩ := exists_dropPositions_iff.mpr h
    by_cases hJ' : J = []
    · rw [hJ', dropPositions_nil]
      exact .inr rfl
    · exact .inl ⟨⟨J, ⟨hJ, hJ'⟩, rfl⟩, hcopy⟩

end Chomsky

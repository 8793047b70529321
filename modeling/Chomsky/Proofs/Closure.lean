import Chomsky.Closure
import Mathlib.Data.List.Nodup

/-!
# What follows from clauses

`Clause.closure` lists the least set that holds what is known and the conclusion of every clause whose
premises it holds: it is such a set (`closure_closed`), and it lies in every property that is one
(`closure_sound`). The order of the clauses does not matter.

What a clause does to the list (`apply_cases`) is kept by a pass, and so by all passes; a pass that
adds nothing leaves no clause that could (`pass_closed`).
-/

namespace Chomsky

namespace Clause

variable {α : Type} [BEq α] [LawfulBEq α] {known : List α} {clauses : List (Clause α)} {a : α}

theorem isReady_iff {c : Clause α} : c.isReady known = true ↔ ∀ p ∈ c.premises, p ∈ known := by
  simp [isReady]

/-! ## One clause -/

theorem apply_cases (known : List α) (c : Clause α) :
    apply known c = known ∧ (c.isReady known = true → c.conclusion ∈ known) ∨
      apply known c = known ++ [c.conclusion] ∧ c.isReady known = true ∧ c.conclusion ∉ known := by
  unfold apply
  by_cases hnew : c.conclusion ∈ known
  · exact .inl ⟨by simp [hnew], fun _ => hnew⟩
  · cases hready : c.isReady known with
    | false => exact .inl ⟨by simp, nofun⟩
    | true => exact .inr ⟨by simp [hnew], rfl, hnew⟩

/-! ## One pass -/

theorem length_le_pass (known : List α) (clauses : List (Clause α)) :
    known.length ≤ (pass known clauses).length := by
  induction clauses generalizing known with
  | nil => exact Nat.le_refl _
  | cons c clauses ih =>
    have hone : known.length ≤ (apply known c).length := by
      rcases apply_cases known c with ⟨h, _⟩ | ⟨h, _⟩ <;> simp [h]
    exact Nat.le_trans hone (ih (apply known c))

theorem pass_sound {P : α → Prop} (hknown : ∀ b ∈ known, P b)
    (hclause : ∀ c ∈ clauses, (∀ p ∈ c.premises, P p) → P c.conclusion) :
    ∀ b ∈ pass known clauses, P b := by
  induction clauses generalizing known with
  | nil => exact hknown
  | cons c clauses ih =>
    obtain ⟨hc, hclauses⟩ := List.forall_mem_cons.mp hclause
    refine ih (fun b hb => ?_) hclauses
    rcases apply_cases known c with ⟨h, _⟩ | ⟨h, hready, _⟩
    · exact hknown b (h ▸ hb)
    · rw [h, List.mem_append, List.mem_singleton] at hb
      rcases hb with hb | rfl
      · exact hknown b hb
      · exact hc fun p hp => hknown p (isReady_iff.mp hready p hp)

theorem nodup_pass (h : known.Nodup) : (pass known clauses).Nodup := by
  induction clauses generalizing known with
  | nil => exact h
  | cons c clauses ih =>
    have hone : (apply known c).Nodup := by
      rcases apply_cases known c with ⟨he, _⟩ | ⟨he, _, hnew⟩
      · rwa [he]
      · rw [he, ← List.concat_eq_append, List.nodup_concat]
        exact ⟨hnew, h⟩
    exact ih hone

/-- When a pass adds nothing, no clause in it did: what was known stays known up to the end. -/
theorem pass_closed (h : (pass known clauses).length = known.length) :
    ∀ c ∈ clauses, (∀ p ∈ c.premises, p ∈ known) → c.conclusion ∈ known := by
  induction clauses generalizing known with
  | nil => exact fun _ hc => absurd hc List.not_mem_nil
  | cons c clauses ih =>
    rw [pass, List.foldl_cons] at h
    rcases apply_cases known c with ⟨he, hc⟩ | ⟨he, _⟩
    · rw [he] at h
      exact List.forall_mem_cons.mpr ⟨fun hp => hc (isReady_iff.mpr hp), ih h⟩
    · have hlonger := length_le_pass (apply known c) clauses
      rw [pass, h, he, List.length_append, List.length_singleton] at hlonger
      exact absurd hlonger (Nat.not_succ_le_self _)

/-! ## All passes -/

theorem known_subset_closure (known : List α) (clauses : List (Clause α)) (h : a ∈ known) :
    a ∈ closure known clauses := by
  fun_induction closure known clauses with
  | case1 => exact h
  | case2 known _ _ _ ih => exact ih (mem_pass h)

/-- Nothing is listed that does not follow. -/
theorem closure_sound {P : α → Prop} (hknown : ∀ b ∈ known, P b)
    (hclause : ∀ c ∈ clauses, (∀ p ∈ c.premises, P p) → P c.conclusion)
    (h : a ∈ closure known clauses) : P a := by
  fun_induction closure known clauses with
  | case1 => exact hknown a h
  | case2 known _ _ _ ih => exact ih (pass_sound hknown hclause) h

/-- No clause is left out, because the last pass adds nothing. -/
theorem closure_closed (known : List α) (clauses : List (Clause α)) {c : Clause α}
    (hc : c ∈ clauses) (h : ∀ p ∈ c.premises, p ∈ closure known clauses) :
    c.conclusion ∈ closure known clauses := by
  fun_induction closure known clauses with
  | case1 known _ hlast => exact pass_closed hlast c hc h
  | case2 known _ _ _ ih => exact ih h

theorem nodup_closure (clauses : List (Clause α)) (h : known.Nodup) :
    (closure known clauses).Nodup := by
  fun_induction closure known clauses with
  | case1 => exact h
  | case2 known _ _ _ ih => exact ih (nodup_pass h)

end Clause

end Chomsky

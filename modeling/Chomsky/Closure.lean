/-!
# Closure under clauses

A clause says that its conclusion holds once all its premises hold. `Clause.closure known clauses`
lists what follows from `known`. It passes over the clauses until a pass adds nothing; what a clause
adds is known to the clauses behind it in the same pass.
-/

namespace Chomsky

structure Clause (α : Type) where
  premises : List α
  conclusion : α

namespace Clause

variable {α : Type} [BEq α]

/-- Whether all premises are known. -/
def isReady (known : List α) (c : Clause α) : Bool := c.premises.all known.contains

/-- Adds the conclusion if it is new and all premises are known. -/
def apply (known : List α) (c : Clause α) : List α :=
  if !known.contains c.conclusion && c.isReady known then known ++ [c.conclusion] else known

/-- One pass over the clauses. -/
def pass (known : List α) (clauses : List (Clause α)) : List α := clauses.foldl apply known

/-- The clauses whose conclusion is not known. -/
def pending (known : List α) (clauses : List (Clause α)) : List (Clause α) :=
  clauses.filter fun c => !known.contains c.conclusion

variable {known : List α} {clauses : List (Clause α)}

theorem mem_apply {a : α} (c : Clause α) (h : a ∈ known) : a ∈ apply known c := by
  unfold apply
  split
  · exact List.mem_append_left _ h
  · exact h

theorem mem_pass {a : α} (h : a ∈ known) : a ∈ pass known clauses := by
  induction clauses generalizing known with
  | nil => exact h
  | cons c clauses ih => exact ih (mem_apply c h)

section Lawful

variable [LawfulBEq α]

/-- A pass that makes the list longer adds the conclusion of some clause. -/
theorem exists_added (h : (pass known clauses).length ≠ known.length) :
    ∃ c ∈ clauses, c.conclusion ∉ known ∧ c.conclusion ∈ pass known clauses := by
  induction clauses generalizing known with
  | nil => exact absurd rfl h
  | cons c clauses ih =>
    by_cases hnew : (!known.contains c.conclusion && c.isReady known) = true
    · have hadded : c.conclusion ∈ apply known c := by
        rw [apply, if_pos hnew]
        exact List.mem_append_right _ List.mem_cons_self
      have hunknown : c.conclusion ∉ known := by simpa using (Bool.and_eq_true_iff.mp hnew).1
      have hlater : c.conclusion ∈ pass (apply known c) clauses := mem_pass hadded
      exact ⟨c, List.mem_cons_self, hunknown, hlater⟩
    · have hsame : apply known c = known := if_neg hnew
      have hpass : pass known (c :: clauses) = pass known clauses := congrArg (pass · clauses) hsame
      rw [hpass] at h ⊢
      obtain ⟨d, hd, hadded⟩ := ih h
      exact ⟨d, List.mem_cons_of_mem c hd, hadded⟩

/-- A pass that adds something leaves fewer clauses pending, so there is a last pass. -/
theorem length_pending_lt (h : (pass known clauses).length ≠ known.length) :
    (pending (pass known clauses) clauses).length < (pending known clauses).length := by
  obtain ⟨c, hc, hnew, hadded⟩ := exists_added h
  have hfewer : pending (pass known clauses) clauses =
      (pending known clauses).filter fun c => !(pass known clauses).contains c.conclusion := by
    rw [pending, pending, List.filter_filter]
    refine List.filter_congr fun d _ => ?_
    cases hd : known.contains d.conclusion with
    | false => simp
    | true => simpa using mem_pass (List.contains_iff_mem.mp hd)
  rw [hfewer]
  refine List.length_filter_lt_length_iff_exists.mpr ⟨c, ?_, by simpa using hadded⟩
  exact List.mem_filter.mpr ⟨hc, by simpa using hnew⟩

end Lawful

/-- Everything that follows from what is known, the known things first. -/
def closure [LawfulBEq α] (known : List α) (clauses : List (Clause α)) : List α :=
  let later := pass known clauses
  if h : later.length = known.length then known
  else
    have := length_pending_lt h
    closure later clauses
termination_by (pending known clauses).length

end Clause

end Chomsky

import Chomsky.Allocator
import Mathlib.Data.List.Nodup

/-!
# Minting numbered nonterminals

Different numbers give different names. So a number is free or not whatever was minted on the way to
it, and `Allocator.freshList` stops at the first of its numbers that is not free (`freshList_cases`).
-/

namespace Chomsky

namespace Allocator

variable {a : Allocator} {taken : List String} {i j n : Nat}

theorem numbered_injective (a : Allocator) : Function.Injective a.numbered := by
  intro i j h
  have hname : a.stem ++ toString i = a.stem ++ toString j := Nonterminal.mk.inj h
  have hrepr : i.repr = j.repr := (String.append_right_inj _).mp hname
  rw [← Nat.ofDigitChars_ten_toDigits (n := i), ← Nat.ofDigitChars_ten_toDigits (n := j),
    ← Nat.toList_repr, ← Nat.toList_repr, hrepr]

/-- Nothing has the name that goes with the number. -/
def Free (a : Allocator) (taken : List String) (i : Nat) : Prop :=
  (a.numbered i).name ∉ taken ∧ a.numbered i ∉ a.minted

/-- The next `n` numbers are free. -/
def FreeNext (a : Allocator) (taken : List String) (n : Nat) : Prop :=
  ∀ i, a.counter < i → i ≤ a.counter + n → a.Free taken i

/-- The allocator once it has used the next `n` numbers. -/
def after (a : Allocator) (n : Nat) : Allocator :=
  { a with
    counter := a.counter + n
    minted := a.minted ++ (List.range' (a.counter + 1) n).map a.numbered }

@[simp] theorem counter_after : (a.after n).counter = a.counter + n := rfl

@[simp] theorem numbered_after : (a.after n).numbered = a.numbered := rfl

@[simp] theorem after_zero : a.after 0 = a := by simp [after]

theorem after_one_after : (a.after 1).after n = a.after (n + 1) := by
  simp [after, List.range'_succ, numbered, Nat.add_comm, Nat.add_left_comm]

theorem mintedSince_after :
    a.mintedSince (a.after n) = (List.range' (a.counter + 1) n).map a.numbered := by
  rw [mintedSince, after, List.drop_left]

theorem mem_mintedSince_after {A : Nonterminal} :
    A ∈ a.mintedSince (a.after n) ↔ ∃ i, a.counter < i ∧ i ≤ a.counter + n ∧ a.numbered i = A := by
  rw [mintedSince_after, List.mem_map]
  simp only [List.mem_range'_1, and_assoc]
  constructor
  · intro h
    obtain ⟨i, hi, hn, hA⟩ := h
    exact ⟨i, by omega, by omega, hA⟩
  · intro h
    obtain ⟨i, hi, hn, hA⟩ := h
    exact ⟨i, by omega, by omega, hA⟩

theorem nodup_mintedSince_after : (a.mintedSince (a.after n)).Nodup := by
  rw [mintedSince_after]
  exact List.Nodup.map a.numbered_injective List.nodup_range'

theorem free_after_one_iff (h : a.counter + 1 < i) : (a.after 1).Free taken i ↔ a.Free taken i := by
  have hne : a.numbered i ≠ a.numbered (a.counter + 1) := by
    intro heq
    have := a.numbered_injective heq
    omega
  simp [Free, after, numbered] at hne ⊢
  grind

theorem freeNext_succ_iff :
    a.FreeNext taken (n + 1) ↔ a.Free taken (a.counter + 1) ∧ (a.after 1).FreeNext taken n := by
  constructor
  · intro h
    refine ⟨h _ (by omega) (by omega), fun i hi hn => ?_⟩
    rw [counter_after] at hi hn
    exact (free_after_one_iff hi).mpr (h i (by omega) (by omega))
  · intro h i hi hn
    obtain ⟨hfirst, hrest⟩ := h
    by_cases heq : i = a.counter + 1
    · rw [heq]
      exact hfirst
    · have hlt : a.counter + 1 < i := by omega
      exact (free_after_one_iff hlt).mp (hrest i (by simpa using hlt) (by simp; omega))

theorem fresh_of_free (h : a.Free taken (a.counter + 1)) :
    a.fresh taken = (a.after 1, .ok (a.numbered (a.counter + 1))) := by
  obtain ⟨hname, hminted⟩ := h
  rw [fresh, named, if_neg (by simp [hname, hminted])]
  rfl

theorem fresh_of_not_free (h : ¬a.Free taken (a.counter + 1)) :
    a.fresh taken = ({ a with counter := a.counter + 1 },
      .error (.nameTaken (a.numbered (a.counter + 1)).name)) := by
  rw [Free, not_and_or, not_not, not_not] at h
  rw [fresh, named, if_pos (by simpa using h)]

theorem freshList_of_free (h : a.Free taken (a.counter + 1)) :
    a.freshList taken (n + 1) = (a.after 1).freshList taken n := by
  rw [freshList, fresh_of_free h]

theorem freshList_of_not_free (h : ¬a.Free taken (a.counter + 1)) :
    a.freshList taken (n + 1) = ({ a with counter := a.counter + 1 },
      .error (.nameTaken (a.numbered (a.counter + 1)).name)) := by
  rw [freshList, fresh_of_not_free h]

/-- All that minting several numbers can do. -/
theorem freshList_cases (a : Allocator) (taken : List String) (n : Nat) :
    a.FreeNext taken n ∧ a.freshList taken n = (a.after n, .ok ()) ∨
    ∃ k < n, a.FreeNext taken k ∧ ¬a.Free taken (a.counter + k + 1) ∧
      a.freshList taken n = ({ a.after k with counter := a.counter + k + 1 },
        .error (.nameTaken (a.numbered (a.counter + k + 1)).name)) := by
  induction n generalizing a with
  | zero =>
    left
    refine ⟨fun i hi hn => ?_, ?_⟩
    · omega
    · rw [freshList, after_zero]
  | succ n ih =>
    by_cases hfree : a.Free taken (a.counter + 1)
    · rw [freshList_of_free hfree]
      rcases ih (a.after 1) with ⟨hnext, heq⟩ | ⟨k, hk, hnext, hnot, heq⟩
      · left
        refine ⟨freeNext_succ_iff.mpr ⟨hfree, hnext⟩, ?_⟩
        rw [heq, after_one_after]
      · right
        have hnum : (a.after 1).counter + k + 1 = a.counter + (k + 1) + 1 := by simp; omega
        rw [hnum] at hnot heq
        refine ⟨k + 1, by omega, freeNext_succ_iff.mpr ⟨hfree, hnext⟩, ?_, ?_⟩
        · rwa [free_after_one_iff (by omega)] at hnot
        · rw [heq, after_one_after, numbered_after]
    · right
      refine ⟨0, by omega, fun i hi hn => ?_, hfree, ?_⟩
      · omega
      · rw [freshList_of_not_free hfree, after_zero]

end Allocator

end Chomsky

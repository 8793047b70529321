import Chomsky.Proofs.Minting
import Mathlib.Data.Finset.Card

/-!
# Runs of an allocator

Calls for numbered nonterminals and for nonterminals of a given name may follow each other in any order,
and each comes with its own taken names. Every call either fails for a name that is in use, or introduces
the name that it asks for (`Call.apply_cases`); all that holds of a whole run follows from this by
induction over the calls. Consecutive calls for numbered nonterminals ask for different names, so only
as many of them can fail as there are names in use (`exists_ok_of_replicate`).
-/

namespace Chomsky

namespace Allocator

/-- A call for a new nonterminal, with the names that are taken when it is made. -/
inductive Call where
  | fresh (taken : List String)
  | named (name : String) (taken : List String)
deriving DecidableEq, Repr

namespace Call

def taken : Call → List String
  | fresh taken => taken
  | named _ taken => taken

def isFresh : Call → Bool
  | fresh _ => true
  | named _ _ => false

/-- The name that the call asks the allocator for. -/
def name (a : Allocator) : Call → String
  | fresh _ => (a.numbered (a.counter + 1)).name
  | named name _ => name

def apply (a : Allocator) : Call → Allocator × Except Failure Nonterminal
  | fresh taken => a.fresh taken
  | named name taken => a.named name taken

/-- The name that is asked for is taken, or was introduced before. -/
def InUse (c : Call) (a : Allocator) : Prop := c.name a ∈ c.taken ∨ ⟨c.name a⟩ ∈ a.minted

/-- The allocator once it has counted the call. -/
def count (c : Call) (a : Allocator) : Allocator :=
  { a with counter := a.counter + if c.isFresh then 1 else 0 }

/-- All that a call can do. -/
theorem apply_cases (c : Call) (a : Allocator) :
    c.InUse a ∧ c.apply a = (c.count a, .error (.nameTaken (c.name a))) ∨
    ¬c.InUse a ∧ c.apply a =
      ({ c.count a with minted := a.minted ++ [⟨c.name a⟩] }, .ok ⟨c.name a⟩) := by
  by_cases huse : c.InUse a
  · refine .inl ⟨huse, ?_⟩
    rw [InUse] at huse
    cases c with
    | fresh taken =>
      rw [← not_not (a := _ ∨ _), not_or] at huse
      exact fresh_of_not_free huse
    | named name taken =>
      change name ∈ taken ∨ ⟨name⟩ ∈ a.minted at huse
      rw [apply, Allocator.named, if_pos (by simpa using huse)]
      rfl
  · refine .inr ⟨huse, ?_⟩
    rw [InUse, not_or] at huse
    cases c with
    | fresh taken =>
      exact fresh_of_free huse
    | named name taken =>
      change name ∉ taken ∧ ⟨name⟩ ∉ a.minted at huse
      rw [apply, Allocator.named, if_neg (by simpa using huse)]
      rfl

variable {c : Call} {a : Allocator}

theorem apply_eq_error_iff :
    (∃ failure, (c.apply a).2 = .error failure) ↔ c.InUse a := by
  rcases c.apply_cases a with ⟨huse, heq⟩ | ⟨huse, heq⟩
  · rw [heq]
    exact ⟨fun _ => huse, fun _ => ⟨_, rfl⟩⟩
  · rw [heq]
    refine ⟨fun h => ?_, fun h => absurd h huse⟩
    obtain ⟨failure, h⟩ := h
    cases h

theorem of_apply_error {failure : Failure} (h : (c.apply a).2 = .error failure) :
    failure = .nameTaken (c.name a) ∧ (c.apply a).1.minted = a.minted := by
  rcases c.apply_cases a with ⟨_, heq⟩ | ⟨_, heq⟩
  · rw [heq] at h ⊢
    cases h
    exact ⟨rfl, rfl⟩
  · rw [heq] at h
    cases h

theorem of_apply_ok {X : Nonterminal} (h : (c.apply a).2 = .ok X) :
    X.name = c.name a ∧ X.name ∉ c.taken ∧ X ∉ a.minted := by
  rcases c.apply_cases a with ⟨_, heq⟩ | ⟨huse, heq⟩
  · rw [heq] at h
    cases h
  · rw [heq] at h
    cases h
    exact ⟨rfl, not_or.mp huse⟩

theorem minted_apply : (c.apply a).1.minted = a.minted ++ (c.apply a).2.toOption.toList := by
  rcases c.apply_cases a with ⟨_, heq⟩ | ⟨_, heq⟩
  · rw [heq]
    exact (List.append_nil _).symm
  · rw [heq]
    rfl

theorem counter_apply : (c.apply a).1.counter = a.counter + if c.isFresh then 1 else 0 := by
  rcases c.apply_cases a with ⟨_, heq⟩ | ⟨_, heq⟩ <;> rw [heq] <;> rfl

theorem nodup_apply (h : a.minted.Nodup) : (c.apply a).1.minted.Nodup := by
  rw [minted_apply]
  cases hanswer : (c.apply a).2 with
  | error failure => simpa [Except.toOption] using h
  | ok X =>
    have hnew := (of_apply_ok hanswer).2.2
    have hdisjoint : a.minted.Disjoint [X] := List.disjoint_singleton.mpr hnew
    exact h.append (List.nodup_singleton X) hdisjoint

end Call

/-! ## Runs -/

/-- The allocator after these calls, whether they fail or not. -/
def run (a : Allocator) (calls : List Call) : Allocator :=
  calls.foldl (fun a c => (c.apply a).1) a

/-- What the calls answer, one after the other. -/
def answers (a : Allocator) : List Call → List (Except Failure Nonterminal)
  | [] => []
  | c :: calls => (c.apply a).2 :: (c.apply a).1.answers calls

variable {a : Allocator} {calls : List Call} {taken : List String}

@[simp] theorem run_cons (c : Call) : a.run (c :: calls) = (c.apply a).1.run calls := rfl

theorem minted_run (a : Allocator) (calls : List Call) :
    (a.run calls).minted = a.minted ++ (a.answers calls).filterMap Except.toOption := by
  induction calls generalizing a with
  | nil => exact (List.append_nil _).symm
  | cons c calls ih =>
    rw [run_cons, ih, Call.minted_apply, answers, List.filterMap_cons, List.append_assoc]
    cases (c.apply a).2 <;> rfl

theorem counter_run (a : Allocator) (calls : List Call) :
    (a.run calls).counter = a.counter + calls.countP Call.isFresh := by
  induction calls generalizing a with
  | nil => rfl
  | cons c calls ih =>
    rw [run_cons, ih, Call.counter_apply, List.countP_cons]
    omega

theorem nodup_run (h : a.minted.Nodup) (calls : List Call) : (a.run calls).minted.Nodup := by
  induction calls generalizing a with
  | nil => exact h
  | cons c calls ih => exact ih (Call.nodup_apply h)

/-- Nothing is introduced whose name is taken at that time. -/
theorem notMem_taken_of_answer {c : Call} {X : Nonterminal}
    (h : (c, .ok X) ∈ calls.zip (a.answers calls)) : X.name ∉ c.taken := by
  induction calls generalizing a with
  | nil => exact absurd h List.not_mem_nil
  | cons d calls ih =>
    rw [answers, List.zip_cons_cons] at h
    rcases List.mem_cons.mp h with h | h
    · obtain ⟨rfl, hanswer⟩ := Prod.mk.inj h
      exact (Call.of_apply_ok hanswer.symm).2.1
    · exact ih h

/-! ## Trying again -/

/-- Calls that fail one after the other have come upon one name in use each. -/
theorem not_free_of_answers {n : Nat}
    (h : ∀ X, .ok X ∉ a.answers (List.replicate n (.fresh taken))) {i : Nat} (hi : a.counter < i)
    (hn : i ≤ a.counter + n) : ¬a.Free taken i := by
  induction n generalizing a with
  | zero => omega
  | succ n ih =>
    rw [List.replicate_succ, answers] at h
    have hfirst : ¬a.Free taken (a.counter + 1) := by
      intro hfree
      refine h (a.numbered (a.counter + 1)) (List.mem_cons.mpr (.inl ?_))
      rw [Call.apply, fresh_of_free hfree]
    rw [Call.apply, fresh_of_not_free hfirst] at h
    by_cases heq : i = a.counter + 1
    · rw [heq]
      exact hfirst
    · -- a failed call changes the counter only, and that has no part in what is free
      have hrest : ∀ X, .ok X ∉ ({ a with counter := a.counter + 1 } : Allocator).answers
          (List.replicate n (.fresh taken)) := fun X hX => h X (List.mem_cons_of_mem _ hX)
      have hlt : a.counter + 1 < i := by omega
      have hle : i ≤ a.counter + 1 + n := by omega
      have hnot := ih hrest hlt hle
      exact hnot

/-- The names that a numbered nonterminal cannot have. -/
def usedNames (a : Allocator) (taken : List String) : Finset String :=
  taken.toFinset ∪ (a.minted.map Nonterminal.name).toFinset

theorem mem_usedNames_of_not_free {i : Nat} (h : ¬a.Free taken i) :
    (a.numbered i).name ∈ a.usedNames taken := by
  rw [Free, not_and_or, not_not, not_not] at h
  rw [usedNames, Finset.mem_union, List.mem_toFinset, List.mem_toFinset]
  exact h.imp_right fun hminted => List.mem_map_of_mem hminted

theorem card_usedNames_le (a : Allocator) (taken : List String) :
    (a.usedNames taken).card ≤ taken.toFinset.card + a.minted.length := by
  have hunion := Finset.card_union_le taken.toFinset (a.minted.map Nonterminal.name).toFinset
  have hminted := List.toFinset_card_le (a.minted.map Nonterminal.name)
  rw [List.length_map] at hminted
  rw [usedNames]
  omega

/-- With more calls than there are names in use, one succeeds. -/
theorem exists_ok_of_replicate {n : Nat} (h : taken.toFinset.card + a.minted.length < n) :
    ∃ X, .ok X ∈ a.answers (List.replicate n (.fresh taken)) := by
  by_contra hnone
  push Not at hnone
  have hmaps : ∀ k ∈ Finset.range n,
      (a.numbered (a.counter + 1 + k)).name ∈ a.usedNames taken := by
    intro k hk
    have hlt := Finset.mem_range.mp hk
    exact mem_usedNames_of_not_free (not_free_of_answers hnone (by omega) (by omega))
  have hinj : Set.InjOn (fun k => (a.numbered (a.counter + 1 + k)).name) (Finset.range n) := by
    intro j _ k _ heq
    have hnumber := a.numbered_injective (congrArg Nonterminal.mk heq)
    omega
  have hcard := Finset.card_le_card_of_injOn _ hmaps hinj
  have hused := a.card_usedNames_le taken
  rw [Finset.card_range] at hcard
  omega

/-- Whatever calls were made before: no name was introduced twice or while it was taken, and the
counter has counted the calls for numbered nonterminals, the failed ones among them. The next call
fails just if its name is in use, and then introduces nothing. Calls for numbered nonterminals do not
go on to fail for ever. -/
theorem run_calls {stem : String} (h : ofStem stem = .ok a) (calls : List Call) :
    (a.run calls).minted.Nodup ∧
    (a.run calls).minted = (a.answers calls).filterMap Except.toOption ∧
    (∀ c X, (c, .ok X) ∈ calls.zip (a.answers calls) → X.name ∉ c.taken) ∧
    (a.run calls).counter = calls.countP Call.isFresh ∧
    (∀ c : Call,
      ((∃ failure, (c.apply (a.run calls)).2 = .error failure) ↔
        c.name (a.run calls) ∈ c.taken ∨ ⟨c.name (a.run calls)⟩ ∈ (a.run calls).minted) ∧
      ∀ failure, (c.apply (a.run calls)).2 = .error failure →
        failure = .nameTaken (c.name (a.run calls)) ∧
          (c.apply (a.run calls)).1.minted = (a.run calls).minted) ∧
    ∀ taken, ∃ X, .ok X ∈ (a.run calls).answers
      (List.replicate (taken.toFinset.card + (a.run calls).minted.length + 1) (.fresh taken)) := by
  obtain ⟨hminted, hcounter⟩ : a.minted = [] ∧ a.counter = 0 := by
    rw [ofStem] at h
    split at h
    · cases h
    · cases h
      exact ⟨rfl, rfl⟩
  refine ⟨nodup_run (by simp [hminted]) calls, ?_, fun c X => notMem_taken_of_answer, ?_,
    fun c => ⟨Call.apply_eq_error_iff, fun failure => Call.of_apply_error⟩,
    fun taken => exists_ok_of_replicate (Nat.lt_succ_self _)⟩
  · rw [minted_run, hminted, List.nil_append]
  · rw [counter_run, hcounter, Nat.zero_add]

/-- The first numbered nonterminal has a name that is taken, and the second one that was introduced. -/
def collidingCalls : List Call :=
  [.named "X2" ["X1"], .fresh ["X1"], .fresh [], .fresh ["X1"]]

/-- After two calls that failed, the third one for a numbered nonterminal succeeds; and so does one of
the next four, though the next name is taken as well. -/
theorem run_calls_colliding :
    ofStem "X" = .ok standard ∧ (standard.run collidingCalls).minted = [⟨"X2"⟩, ⟨"X3"⟩] ∧
      (standard.run collidingCalls).minted.Nodup ∧ (standard.run collidingCalls).counter = 3 ∧
      ∃ X, .ok X ∈ (standard.run collidingCalls).answers (List.replicate 4 (.fresh ["X4"])) := by
  have hstem : ofStem "X" = .ok standard := by cbv
  have hminted : (standard.run collidingCalls).minted = [⟨"X2"⟩, ⟨"X3"⟩] := by cbv
  obtain ⟨hnodup, _, _, hcounter, _, hretry⟩ := run_calls hstem collidingCalls
  refine ⟨hstem, hminted, hnodup, hcounter, ?_⟩
  have hX := hretry ["X4"]
  rw [hminted] at hX
  exact hX

end Allocator

end Chomsky

import Chomsky.Proofs.Preorder
import Chomsky.Proofs.UnaryRules

/-!
# The unary closure

A nonterminal comes with those that one or more unary rules lead to, and these stand in the order of
a single recursive walk (`unaryClosure_walk`), although a new walk starts from each direct successor.
-/

namespace Chomsky

namespace Grammar

variable {g : Grammar} {A : Nonterminal} {roots l : List Nonterminal}

theorem Valid.successors_unaryMap (hg : g.Valid) (A : Nonterminal) :
    g.unaryMap.successors A = g.unarySuccessors A := by
  by_cases hA : A ∈ g.nonterminals
  · rw [Graph.successors, List.lookup_graph g.unarySuccessors hA, Option.getD_some]
  · have hnone : ∀ l : List Nonterminal, (∀ B ∈ l, UnaryStep g.rules A B) → l = [] := fun l h =>
      List.eq_nil_iff_forall_not_mem.mpr fun B hB => hA (hg.step_left_mem (h B hB))
    rw [hnone (g.unarySuccessors A) fun _ => mem_unarySuccessors_iff.mp,
      hnone (g.unaryMap.successors A) fun _ hB =>
        hg.edge_unaryMap_iff.mp (Graph.edge_iff_mem_successors.mpr hB)]

/-- Separate walks from each of the roots come to the same as one walk from all of them. -/
theorem Valid.visits_of_reachedFrom (hg : g.Valid) (hroots : ∀ A ∈ roots, A ∈ g.nonterminals)
    (h : reachedFrom g.unaryMap roots = .ok l) : Graph.Visits g.unarySuccessors [] roots l := by
  obtain ⟨walk, hwalk, hok⟩ := hg.exists_walks hroots
  obtain rfl := Except.ok.inj (hok.symm.trans h)
  have hvisits : ∀ A ∈ roots, Graph.Visits g.unarySuccessors [] [A] (walk A) := by
    intro A hA
    have hstack := Graph.visits_of_walk (hwalk A hA).1
    rwa [funext hg.successors_unaryMap] at hstack
  have hclosed : ∀ A ∈ roots, ∀ B ∈ walk A, ∀ C ∈ g.unarySuccessors B, C ∈ walk A := by
    intro A hA B hB C hC
    have hreach : UnaryReach g.rules A B := ((hwalk A hA).2 B).mp hB
    exact ((hwalk A hA).2 C).mpr (hreach.tail (mem_unarySuccessors_iff.mp hC))
  exact Graph.visits_flatten hvisits hclosed fun _ h => absurd h List.not_mem_nil

/-- Each declared nonterminal comes with what one or more unary rules lead to, each once, and so with
itself only on a circle of unary rules. The order is that of one recursive walk that starts from the
right sides of its unary rules and shares the visited nodes. -/
theorem unaryClosure_walk (hg : g.Valid) :
    ∃ closure, g.unaryClosure = .ok closure ∧ closure.map Prod.fst = g.nonterminals ∧
      ∀ A ∈ g.nonterminals, ∃ l, closure.lookup A = some l ∧ l.Nodup ∧
        (∀ B, B ∈ l ↔ Relation.TransGen (UnaryStep g.rules) A B) ∧
        (A ∈ l ↔ ∃ B, UnaryStep g.rules A B ∧ UnaryReach g.rules B A) ∧
        ∀ l', Graph.Visits g.unarySuccessors [] (g.unarySuccessors A) l' ↔ l' = l := by
  obtain ⟨reached, hok, hmem⟩ := hg.exists_reached
  refine ⟨_, hg.unaryClosure_eq hok, by simp [Function.comp_def], fun A hA => ?_⟩
  have hvisits : Graph.Visits g.unarySuccessors [] (g.unarySuccessors A) (reached A) :=
    hg.visits_of_reachedFrom (fun _ => hg.unarySuccessors_declared) (hok A)
  refine ⟨reached A, List.lookup_graph reached hA, hvisits.nodup .nil, hmem A, ?_, fun l' => ?_⟩
  · exact (hmem A A).trans Relation.TransGen.head'_iff
  · constructor
    · intro h
      exact h.unique hvisits
    · rintro rfl
      exact hvisits

/-- Unary rules lead from `B` to `C` by two ways and back to `A`, the longer way being the first. -/
def crossing : Grammar where
  start := ⟨"A"⟩
  rules := [
    ⟨⟨"A"⟩, [.nonterminal ⟨"B"⟩]⟩, ⟨⟨"A"⟩, [.nonterminal ⟨"C"⟩]⟩, ⟨⟨"B"⟩, [.nonterminal ⟨"D"⟩]⟩,
    ⟨⟨"B"⟩, [.nonterminal ⟨"C"⟩]⟩, ⟨⟨"D"⟩, [.nonterminal ⟨"C"⟩]⟩, ⟨⟨"C"⟩, [.nonterminal ⟨"A"⟩]⟩,
    ⟨⟨"C"⟩, [.terminal ⟨"c"⟩]⟩]
  nonterminals := [⟨"A"⟩, ⟨"B"⟩, ⟨"C"⟩, ⟨"D"⟩]
  terminals := [⟨"c"⟩]

/-- `A` lies on a circle and comes with itself, behind all that the walk from `B` goes through. -/
theorem unaryClosure_walk_crossing :
    Relation.TransGen (UnaryStep crossing.rules) ⟨"A"⟩ ⟨"A"⟩ ∧
      Graph.Visits crossing.unarySuccessors [] [⟨"B"⟩, ⟨"C"⟩]
        [⟨"B"⟩, ⟨"D"⟩, ⟨"C"⟩, ⟨"A"⟩] := by
  have hvalid : crossing.Valid := defect?_eq_none_iff.mp (by cbv)
  obtain ⟨closure, hok, _, hwalk⟩ := unaryClosure_walk hvalid
  obtain ⟨l, hl, _, hmem, _, hvisits⟩ := hwalk ⟨"A"⟩ List.mem_cons_self
  have hclosure : crossing.unaryClosure.toOption.bind (·.lookup ⟨"A"⟩) =
      some [⟨"B"⟩, ⟨"D"⟩, ⟨"C"⟩, ⟨"A"⟩] := by cbv
  rw [hok] at hclosure
  obtain rfl := Option.some.inj (hl.symm.trans hclosure)
  exact ⟨(hmem _).mp (by decide), (hvisits _).mpr rfl⟩

end Grammar

end Chomsky

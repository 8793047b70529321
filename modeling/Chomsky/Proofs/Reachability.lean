import Chomsky.Graph
import Mathlib.Logic.Relation

/-!
# What a walk reaches

In a graph that has a node for every successor, `Graph.preorder` never stops early, and it lists
exactly what can be reached from its root (`preorder_reaches`). The invariant of the walk is that
every successor of a visited node is visited or waits on the stack.
-/

namespace Chomsky

namespace Graph

variable {α : Type} [DecidableEq α] {g : Graph α} {visited stack : List α} {a b : α}

def Edge (g : Graph α) (a b : α) : Prop := ∃ next, g.lookup a = some next ∧ b ∈ next

/-- `b` can be reached from `a` in any number of steps. -/
def Reaches (g : Graph α) : α → α → Prop := Relation.ReflTransGen g.Edge

/-- Every successor is a node. -/
def Total (g : Graph α) : Prop := ∀ a b, g.Edge a b → b ∈ g.nodes

theorem exists_lookup (h : a ∈ g.nodes) : ∃ next, g.lookup a = some next := by
  induction g with
  | nil => exact absurd h List.not_mem_nil
  | cons entry g ih =>
    by_cases ha : a = entry.1
    · exact ⟨entry.2, by rw [List.lookup_cons, ha, beq_self_eq_true]⟩
    · rw [List.lookup_cons, beq_false_of_ne ha]
      exact ih ((List.mem_cons.mp h).resolve_left ha)

/-- The invariant of a walk: a successor of a visited node is visited or waits on the stack. -/
def Frontier (g : Graph α) (visited stack : List α) : Prop :=
  ∀ a ∈ visited, ∀ b, g.Edge a b → b ∈ visited ∨ b ∈ stack

theorem Frontier.skip (h : g.Frontier visited (a :: stack)) (ha : a ∈ visited) :
    g.Frontier visited stack := by
  intro b hb c hbc
  rcases h b hb c hbc with hc | hc
  · exact .inl hc
  · rcases List.mem_cons.mp hc with rfl | hc
    · exact .inl ha
    · exact .inr hc

theorem Frontier.visit (h : g.Frontier visited (a :: stack)) {next : List α}
    (hnext : ∀ b, g.Edge a b ↔ b ∈ next) : g.Frontier (visited ++ [a]) (next ++ stack) := by
  intro b hb c hbc
  rcases List.mem_append.mp hb with hb | hb
  · rcases h b hb c hbc with hc | hc
    · exact .inl (List.mem_append_left _ hc)
    · rcases List.mem_cons.mp hc with rfl | hc
      · exact .inl (List.mem_append_right _ List.mem_cons_self)
      · exact .inr (List.mem_append_right _ hc)
  · obtain rfl := List.mem_singleton.mp hb
    exact .inr (List.mem_append_left _ ((hnext c).mp hbc))

/-- The list holds what can be reached from the visited nodes and the stack, and nothing else. -/
structure Covers (g : Graph α) (visited stack l : List α) : Prop where
  visited_mem : ∀ a ∈ visited, a ∈ l
  stack_mem : ∀ a ∈ stack, a ∈ l
  closed : ∀ a ∈ l, ∀ b, g.Edge a b → b ∈ l
  reached : ∀ b ∈ l, b ∈ visited ∨ ∃ a ∈ stack, g.Reaches a b

theorem Covers.skip {l : List α} (h : g.Covers visited stack l) (ha : a ∈ visited) :
    g.Covers visited (a :: stack) l where
  visited_mem := h.visited_mem
  stack_mem b hb := by
    rcases List.mem_cons.mp hb with rfl | hb
    · exact h.visited_mem b ha
    · exact h.stack_mem b hb
  closed := h.closed
  reached b hb := by
    rcases h.reached b hb with hb | ⟨c, hc, hcb⟩
    · exact .inl hb
    · exact .inr ⟨c, List.mem_cons_of_mem _ hc, hcb⟩

theorem Covers.visit {l next : List α} (h : g.Covers (visited ++ [a]) (next ++ stack) l)
    (hnext : ∀ b, g.Edge a b ↔ b ∈ next) : g.Covers visited (a :: stack) l where
  visited_mem b hb := h.visited_mem b (List.mem_append_left _ hb)
  stack_mem b hb := by
    rcases List.mem_cons.mp hb with rfl | hb
    · exact h.visited_mem b (List.mem_append_right _ List.mem_cons_self)
    · exact h.stack_mem b (List.mem_append_right _ hb)
  closed := h.closed
  reached b hb := by
    rcases h.reached b hb with hb | ⟨c, hc, hcb⟩
    · rcases List.mem_append.mp hb with hb | hb
      · exact .inl hb
      · obtain rfl := List.mem_singleton.mp hb
        exact .inr ⟨b, List.mem_cons_self, .refl⟩
    · rcases List.mem_append.mp hc with hc | hc
      · exact .inr ⟨a, List.mem_cons_self, .head ((hnext c).mpr hc) hcb⟩
      · exact .inr ⟨c, List.mem_cons_of_mem _ hc, hcb⟩

theorem walk_covers (hg : g.Total) (hstack : ∀ a ∈ stack, a ∈ g.nodes)
    (hfrontier : g.Frontier visited stack) :
    ∃ l, g.walk visited stack = .ok l ∧ g.Covers visited stack l := by
  fun_induction g.walk visited stack with
  | case1 visited =>
    refine ⟨visited, rfl, fun _ h => h, by simp, fun a ha b hab => ?_, fun _ => .inl⟩
    exact (hfrontier a ha b hab).resolve_right List.not_mem_nil
  | case2 visited a stack hv ih =>
    obtain ⟨l, hl, hc⟩ := ih (fun b hb => hstack b (List.mem_cons_of_mem _ hb)) (hfrontier.skip hv)
    exact ⟨l, hl, hc.skip hv⟩
  | case3 visited a stack hv hnone =>
    obtain ⟨next, hnext⟩ := exists_lookup (hstack a List.mem_cons_self)
    rw [hnone] at hnext
    cases hnext
  | case4 visited a stack hv next hnext _ ih =>
    have hedge : ∀ b, g.Edge a b ↔ b ∈ next := fun b => by simp [Edge, hnext]
    have hnodes : ∀ b ∈ next ++ stack, b ∈ g.nodes := fun b hb => by
      rcases List.mem_append.mp hb with hb | hb
      · exact hg a b ((hedge b).mpr hb)
      · exact hstack b (List.mem_cons_of_mem _ hb)
    obtain ⟨l, hl, hc⟩ := ih hnodes (hfrontier.visit hedge)
    exact ⟨l, hl, hc.visit hedge⟩

theorem Covers.mem_iff {l : List α} (h : g.Covers [] [a] l) : b ∈ l ↔ g.Reaches a b := by
  constructor
  · intro hb
    rcases h.reached b hb with hb | ⟨c, hc, hr⟩
    · exact absurd hb List.not_mem_nil
    · obtain rfl := List.mem_singleton.mp hc
      exact hr
  · intro hr
    induction hr with
    | refl => exact h.stack_mem a List.mem_cons_self
    | tail _ hbc ih => exact h.closed _ ih _ hbc

/-- A walk from a node lists exactly what can be reached from it. -/
theorem preorder_reaches (hg : g.Total) (ha : a ∈ g.nodes) :
    ∃ l, g.preorder a = .ok l ∧ ∀ b, b ∈ l ↔ g.Reaches a b := by
  have hfrontier : g.Frontier [] [a] := fun _ h => absurd h List.not_mem_nil
  obtain ⟨l, hl, hc⟩ := walk_covers hg (by simpa using ha) hfrontier
  exact ⟨l, hl, fun b => hc.mem_iff⟩

end Graph

end Chomsky

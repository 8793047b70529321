import Chomsky.Proofs.Reachability
import Chomsky.Proofs.Duplicates

/-!
# Walks in preorder

`Graph.walk` keeps the nodes to come on a stack. The walk that it stands for is recursive
(`Visits`): a new node is visited, then all below its successors, then the rest. Nodes that are
visited already and closed under successors change nothing in such a walk except that they are
skipped (`Visits.merge`), so a walk from several roots meets the nodes in the order in which separate
walks from each of them do, repetitions dropped (`visits_flatten`).
-/

namespace Chomsky

namespace Graph

variable {α : Type}

/-- A recursive walk from the nodes of a list, the first one first, that skips visited nodes: before
it and after it these nodes are visited, in this order. -/
inductive Visits (next : α → List α) : List α → List α → List α → Prop
  | done {visited : List α} : Visits next visited [] visited
  | skip {visited rest out : List α} {a : α} (ha : a ∈ visited) (h : Visits next visited rest out) :
      Visits next visited (a :: rest) out
  | visit {visited rest mid out : List α} {a : α} (ha : a ∉ visited)
      (below : Visits next (visited ++ [a]) (next a) mid) (h : Visits next mid rest out) :
      Visits next visited (a :: rest) out

section Visits

variable {next : α → List α} {visited rest rest' mid out out' v : List α} {a : α}

namespace Visits

theorem append (h : Visits next visited rest mid) (h' : Visits next mid rest' out) :
    Visits next visited (rest ++ rest') out := by
  induction h with
  | done => exact h'
  | skip ha _ ih => exact .skip ha (ih h')
  | visit ha below _ _ ih => exact .visit ha below (ih h')

theorem exists_of_append (h : Visits next visited (rest ++ rest') out) :
    ∃ mid, Visits next visited rest mid ∧ Visits next mid rest' out := by
  induction rest generalizing visited with
  | nil => exact ⟨visited, .done, h⟩
  | cons a rest ih =>
    cases h with
    | skip ha h =>
      obtain ⟨mid, hrest, hrest'⟩ := ih h
      exact ⟨mid, .skip ha hrest, hrest'⟩
    | visit ha below h =>
      obtain ⟨mid, hrest, hrest'⟩ := ih h
      exact ⟨mid, .visit ha below hrest, hrest'⟩

/-- Nothing is left to chance in a walk. -/
theorem unique (h : Visits next visited rest out) (h' : Visits next visited rest out') :
    out = out' := by
  induction h generalizing out' with
  | done =>
    cases h'
    rfl
  | skip ha _ ih =>
    cases h' with
    | skip _ h' => exact ih h'
    | visit ha' _ _ => exact absurd ha ha'
  | visit ha _ _ ihbelow ih =>
    cases h' with
    | skip ha' _ => exact absurd ha' ha
    | visit _ below' h' =>
      obtain rfl := ihbelow below'
      exact ih h'

theorem of_visited (h : ∀ a ∈ rest, a ∈ visited) : Visits next visited rest visited := by
  induction rest with
  | nil => exact .done
  | cons a rest ih =>
    exact .skip (h a List.mem_cons_self) (ih fun b hb => h b (List.mem_cons_of_mem _ hb))

theorem nodup (h : Visits next visited rest out) (hv : visited.Nodup) : out.Nodup := by
  induction h with
  | done => exact hv
  | skip _ _ ih => exact ih hv
  | visit ha _ _ ihbelow ih =>
    refine ih (ihbelow (List.nodup_append.mpr ⟨hv, List.nodup_singleton _, ?_⟩))
    rintro b hb c hc rfl
    exact ha (List.mem_singleton.mp hc ▸ hb)

end Visits

variable [DecidableEq α]

theorem eraseDups_concat_of_mem {l : List α} (h : a ∈ l) : (l ++ [a]).eraseDups = l.eraseDups := by
  have hmem : l.elem a = true := List.elem_eq_true_of_mem h
  rw [List.eraseDups_append, List.removeAll, List.filter_cons, hmem]
  simp

theorem eraseDups_concat_of_notMem {l : List α} (h : a ∉ l) :
    (l ++ [a]).eraseDups = l.eraseDups ++ [a] := by
  have hmem : l.elem a = false := by simpa using h
  rw [List.eraseDups_append, List.removeAll, List.filter_cons, hmem]
  rfl

/-- Nodes that are visited before, together with all below them, are skipped, and everything else
comes in the same order. -/
theorem Visits.merge (h : Visits next visited rest out) (hv : ∀ a ∈ v, ∀ b ∈ next a, b ∈ v) :
    Visits next (v ++ visited).eraseDups rest (v ++ out).eraseDups := by
  induction h with
  | done => exact .done
  | skip ha _ ih => exact .skip (List.mem_eraseDups.mpr (List.mem_append_right _ ha)) ih
  | @visit visited rest mid out a ha below _ ihbelow ih =>
    rw [← List.append_assoc] at ihbelow
    by_cases hav : a ∈ v
    · rw [eraseDups_concat_of_mem (List.mem_append_left _ hav)] at ihbelow
      have hnext : ∀ b ∈ next a, b ∈ (v ++ visited).eraseDups := fun b hb =>
        List.mem_eraseDups.mpr (List.mem_append_left _ (hv a hav b hb))
      rw [ihbelow.unique (.of_visited hnext)] at ih
      exact .skip (List.mem_eraseDups.mpr (List.mem_append_left _ hav)) ih
    · have hnew : a ∉ v ++ visited := by simp [hav, ha]
      rw [eraseDups_concat_of_notMem hnew] at ihbelow
      exact .visit (fun h => hnew (List.mem_eraseDups.mp h)) ihbelow ih

/-- One walk from several roots meets the nodes that walks from each of them meet, in this order. -/
theorem visits_flatten {walk : α → List α} {roots : List α}
    (hwalk : ∀ a ∈ roots, Visits next [] [a] (walk a))
    (hclosed : ∀ a ∈ roots, ∀ b ∈ walk a, ∀ c ∈ next b, c ∈ walk a)
    (hv : ∀ a ∈ v, ∀ b ∈ next a, b ∈ v) :
    Visits next v.eraseDups roots (v ++ (roots.map walk).flatten).eraseDups := by
  induction roots generalizing v with
  | nil => simpa using Visits.done
  | cons a roots ih =>
    have hfirst := (hwalk a List.mem_cons_self).merge hv
    have hv' : ∀ b ∈ v ++ walk a, ∀ c ∈ next b, c ∈ v ++ walk a := by
      intro b hb c hc
      rcases List.mem_append.mp hb with hb | hb
      · exact List.mem_append_left _ (hv b hb c hc)
      · exact List.mem_append_right _ (hclosed a List.mem_cons_self b hb c hc)
    have hrest := ih (fun b hb => hwalk b (List.mem_cons_of_mem _ hb))
      (fun b hb => hclosed b (List.mem_cons_of_mem _ hb)) hv'
    rw [List.append_nil] at hfirst
    rw [List.append_assoc] at hrest
    exact hfirst.append hrest

end Visits

variable [DecidableEq α] {g : Graph α} {visited stack l : List α} {a b : α}

def successors (g : Graph α) (a : α) : List α := (g.lookup a).getD []

theorem edge_iff_mem_successors : g.Edge a b ↔ b ∈ g.successors a := by
  unfold Edge successors
  cases g.lookup a <;> simp

/-- The walk with a stack is the recursive one: what lies on top of the stack is done with before
what lies below. -/
theorem visits_of_walk (h : g.walk visited stack = .ok l) :
    Visits g.successors visited stack l := by
  fun_induction g.walk visited stack with
  | case1 visited =>
    obtain rfl := Except.ok.inj h
    exact .done
  | case2 visited a stack hv ih => exact .skip hv (ih h)
  | case3 => cases h
  | case4 visited a stack hv next hnext _ ih =>
    obtain ⟨mid, hbelow, hrest⟩ := (ih h).exists_of_append
    have hsuccessors : g.successors a = next := by rw [successors, hnext, Option.getD_some]
    exact .visit hv (hsuccessors ▸ hbelow) hrest

end Graph

end Chomsky

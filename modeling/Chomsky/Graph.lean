/-!
# Graphs and orders of appearance

A graph maps nodes to their successors, in order. `Graph.preorder` visits what can be reached from a
node, each node once, a node before its successors and the first successor with all below it before
the second. The stack holds the nodes to visit next, so long chains need no deep recursion.
-/

namespace Chomsky

/-- Each node with its successors. -/
abbrev Graph (α : Type) := List (α × List α)

namespace Graph

variable {α : Type} [DecidableEq α]

def nodes (g : Graph α) : List α := g.map Prod.fst

theorem mem_nodes_of_lookup {g : Graph α} {a : α} {next : List α} (h : g.lookup a = some next) :
    a ∈ g.nodes := by
  induction g with
  | nil => simp at h
  | cons entry g ih =>
    by_cases ha : a = entry.1
    · simp [nodes, ha]
    · rw [List.lookup_cons, beq_false_of_ne ha] at h
      exact List.mem_cons_of_mem _ (ih h)

/-- The nodes that have not been visited. -/
def unvisited (g : Graph α) (visited : List α) : List α := g.nodes.filter (· ∉ visited)

theorem unvisited_concat_lt {g : Graph α} {visited : List α} {a : α} (hg : a ∈ g.nodes)
    (hv : a ∉ visited) :
    (g.unvisited (visited ++ [a])).length < (g.unvisited visited).length := by
  have h : g.unvisited (visited ++ [a]) = (g.unvisited visited).filter (· ≠ a) := by
    simp only [unvisited, List.filter_filter]
    congr 1
    funext b
    by_cases hb : b ∈ visited <;> by_cases hba : b = a <;> simp [hb, hba]
  rw [h]
  exact List.length_filter_lt_length_iff_exists.mpr
    ⟨a, List.mem_filter.mpr ⟨hg, by simpa using hv⟩, by simp⟩

/-- Visits the nodes of the stack, the first one first, after those visited already. A node that the
graph lacks stops the walk. -/
def walk (g : Graph α) (visited : List α) : List α → Except α (List α)
  | [] => .ok visited
  | a :: stack =>
    if hv : a ∈ visited then walk g visited stack
    else
      match hg : g.lookup a with
      | none => .error a
      | some next =>
        have := unvisited_concat_lt (mem_nodes_of_lookup hg) hv
        walk g (visited ++ [a]) (next ++ stack)
termination_by stack => ((g.unvisited visited).length, stack.length)

/-- The nodes that can be reached from `root`, in preorder; or a node that the graph lacks. -/
def preorder (g : Graph α) (root : α) : Except α (List α) := g.walk [] [root]

end Graph

/-- The elements by their keys, the keys in order of appearance and under each its elements in
order. -/
def groupBy {α β : Type} [BEq β] (key : α → β) (l : List α) : List (β × List α) :=
  (l.map key).eraseDups.map fun k => (k, l.filter (key · == k))

end Chomsky

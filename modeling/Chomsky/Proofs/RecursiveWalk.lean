import Chomsky.Proofs.Preorder

/-!
# The walk with a stack and the recursive walk

`Graph.traverse` runs the recursion that a preorder is defined by: a new node is visited, then all
below its successors, then the rest. `Graph.walk` does the same with a stack on every graph, up to
the node at which it stops if the graph lacks one (`walk_eq_traverse`), because it is done with what
lies on top of the stack before it looks at what lies below (`walk_append`).

A stack can hold a node many times, and nodes that are visited already. The walk still ends, since a
node either leaves the stack or is a new one, and there are no more than the graph has.
-/

namespace Chomsky

namespace Graph

variable {α : Type} [DecidableEq α] {g : Graph α} {visited visited' next stack l : List α} {a : α}

/-! ## One step of the walk -/

theorem walk_skip (g : Graph α) (stack : List α) (hv : a ∈ visited) :
    g.walk visited (a :: stack) = g.walk visited stack := by
  rw [walk, dif_pos hv]

/-- A new node makes room on the stack for its successors. -/
theorem walk_new (g : Graph α) (stack : List α) (hv : a ∉ visited) :
    g.walk visited (a :: stack) =
      (g.lookup a).elim (.error a) fun next => g.walk (visited ++ [a]) (next ++ stack) := by
  generalize htop : a :: stack = nodes
  fun_cases g.walk visited nodes with
  | case1 => cases htop
  | case2 b _ hmem =>
    obtain ⟨rfl, rfl⟩ := List.cons.inj htop
    exact absurd hmem hv
  | case3 b _ _ hnone =>
    obtain ⟨rfl, rfl⟩ := List.cons.inj htop
    rw [hnone, Option.elim_none]
  | case4 b _ _ next hsome =>
    obtain ⟨rfl, rfl⟩ := List.cons.inj htop
    rw [hsome, Option.elim_some]

/-- The walk is done with the top of the stack before it looks at what lies below. -/
theorem walk_append (g : Graph α) (visited stack rest : List α) :
    g.walk visited (stack ++ rest) = g.walk visited stack >>= fun mid => g.walk mid rest := by
  fun_induction g.walk visited stack with
  | case1 visited => rfl
  | case2 visited a stack hv ih => rw [List.cons_append, walk_skip g _ hv, ih]
  | case3 visited a stack hv hnone =>
    rw [List.cons_append, walk_new g _ hv, hnone]
    rfl
  | case4 visited a stack hv next hnext _ ih =>
    rw [List.cons_append, walk_new g _ hv, hnext, Option.elim_some, ← List.append_assoc, ih]

/-! ## The recursive walk -/

theorem length_unvisited_le (h : visited ⊆ visited') :
    (g.unvisited visited').length ≤ (g.unvisited visited).length := by
  have hsub : (g.unvisited visited').Sublist (g.unvisited visited) := by
    refine List.monotone_filter_right _ fun b hb => ?_
    rw [decide_eq_true_eq] at hb ⊢
    exact fun hv => hb (h hv)
  exact hsub.length_le

/-- Visits the nodes of a list, the first one first, each followed by all below its successors, after
those visited already. A node that the graph lacks stops the walk. That no visited node is lost is
what the recursion ends by. -/
def traverse (g : Graph α) (visited : List α) :
    List α → Except α { out : List α // visited ⊆ out }
  | [] => .ok ⟨visited, List.Subset.refl visited⟩
  | a :: rest =>
    if hv : a ∈ visited then traverse g visited rest
    else
      match hg : g.lookup a with
      | none => .error a
      | some next => do
        have := unvisited_concat_lt (mem_nodes_of_lookup hg) hv
        let ⟨below, hbelow⟩ ← traverse g (visited ++ [a]) next
        have := length_unvisited_le (g := g) hbelow
        let ⟨out, hout⟩ ← traverse g below rest
        return ⟨out, fun _ hb => hout (hbelow (List.mem_append_left _ hb))⟩
termination_by rest => ((g.unvisited visited).length, rest.length)

/-- The walk with a stack is the recursive one, on every graph. -/
theorem walk_eq_traverse (g : Graph α) (visited stack : List α) :
    g.walk visited stack = (g.traverse visited stack).map Subtype.val := by
  fun_induction g.traverse visited stack with
  | case1 visited =>
    rw [walk]
    rfl
  | case2 visited a rest hv ih => rw [walk_skip g rest hv, ih]
  | case3 visited a rest hv hnone =>
    rw [walk_new g rest hv, hnone]
    rfl
  | case4 visited a rest hv next hnext _ ihbelow ih =>
    -- the successors lie on top of `rest`, so all below `a` is visited before it
    rw [walk_new g rest hv, hnext, Option.elim_some, walk_append, ihbelow]
    cases g.traverse (visited ++ [a]) next with
    | error b => rfl
    | ok below =>
      obtain ⟨below, hbelow⟩ := below
      change g.walk below rest = _
      rw [ih below hbelow]
      change _ = Except.map Subtype.val (g.traverse below rest >>= _)
      cases g.traverse below rest <;> rfl

/-- A graph is total if every node in the lists of successors has an entry of its own. -/
theorem total_of_entries (h : ∀ entry ∈ g, ∀ b ∈ entry.2, b ∈ g.nodes) : g.Total := by
  rintro a b ⟨next, hnext, hb⟩
  obtain ⟨before, after, rfl, -⟩ := List.lookup_eq_some_iff.mp hnext
  exact h (a, next) (List.mem_append_right _ List.mem_cons_self) b hb

/-- In a graph that has a node for every successor, `Graph.preorder` answers with the nodes that can
be reached from the root, each once, in the order of the recursive walk. -/
theorem preorder_recursive (hg : g.Total) {root : α} (hroot : root ∈ g.nodes) :
    ∃ l, g.preorder root = .ok l ∧ (g.traverse [] [root]).map Subtype.val = .ok l ∧ l.Nodup ∧
      ∀ a, a ∈ l ↔ g.Reaches root a := by
  obtain ⟨l, hl, hmem⟩ := preorder_reaches hg hroot
  have hrecursive : (g.traverse [] [root]).map Subtype.val = .ok l := by
    rw [← walk_eq_traverse]
    exact hl
  exact ⟨l, hl, hrecursive, (visits_of_walk hl).nodup List.nodup_nil, hmem⟩

/-- Circles, a node that is its own successor, a successor that is listed twice, and a node out of
reach. The successors of `1` stand in another order than those of `0`. -/
def tangle : Graph Nat := [(0, [1, 2, 3, 1]), (1, [1, 3, 2]), (2, [0]), (3, []), (4, [0])]

/-- `3` is visited below `1`, and so before `2`, which waits on the stack since `0` was visited. -/
theorem preorder_recursive_tangle :
    tangle.Total ∧ 0 ∈ tangle.nodes ∧ tangle.preorder 0 = .ok [0, 1, 3, 2] ∧
      (tangle.traverse [] [0]).map Subtype.val = .ok [0, 1, 3, 2] ∧
      ∀ a, a ∈ [0, 1, 3, 2] ↔ tangle.Reaches 0 a := by
  have htotal : tangle.Total := total_of_entries (by decide)
  have hroot : 0 ∈ tangle.nodes := by decide
  obtain ⟨l, hl, hrecursive, -, hmem⟩ := preorder_recursive htotal hroot
  have horder : tangle.preorder 0 = .ok [0, 1, 3, 2] := by cbv
  obtain rfl := Except.ok.inj (horder.symm.trans hl)
  exact ⟨htotal, hroot, hl, hrecursive, hmem⟩

end Graph

end Chomsky

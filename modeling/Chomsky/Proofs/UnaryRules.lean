import Chomsky.Proofs.Derivation
import Chomsky.Proofs.Reachability
import Chomsky.Proofs.Shape
import Chomsky.Proofs.Validity
import Chomsky.UnaryRules

/-!
# Removing unary rules

A nonterminal gets the rules of all that unary rules lead to from it. On a valid grammar this never
fails (`withoutUnary_eq`), which rules come out is said without graphs (`UnaryCopies.mem_iff`), and
every nonterminal keeps its words (`UnaryCopies.words_eq`), however the unary rules run in circles.
-/

namespace Chomsky

/-- A unary rule leads from the first nonterminal to the second. -/
def UnaryStep (rules : List Rule) (A B : Nonterminal) : Prop := ⟨A, [.nonterminal B]⟩ ∈ rules

def UnaryReach (rules : List Rule) : Nonterminal → Nonterminal → Prop :=
  Relation.ReflTransGen (UnaryStep rules)

/-- What unary rules lead to has no other words. -/
theorem UnaryReach.words_le {rules : List Rule} {A B : Nonterminal} (h : UnaryReach rules A B) :
    words rules B ≤ words rules A := by
  induction h with
  | refl => exact le_refl _
  | tail _ hstep ih =>
    refine le_trans ?_ ih
    have hclosed := closed_words rules _ hstep
    rwa [Reading.form_singleton] at hclosed

theorem Rule.unaryTarget?_eq_some_iff {r : Rule} {B : Nonterminal} :
    r.unaryTarget? = some B ↔ r.right = [.nonterminal B] := by
  obtain ⟨_, right⟩ := r
  rcases right with _ | ⟨⟨⟩ | ⟨⟩, _ | ⟨_, _⟩⟩ <;> simp [unaryTarget?]

theorem mapM_eq_ok {ε α β : Type} {f : α → Except ε β} {F : α → β} {l : List α}
    (h : ∀ a ∈ l, f a = .ok (F a)) : l.mapM f = .ok (l.map F) := by
  induction l with
  | nil => rfl
  | cons a l ih =>
    rw [List.mapM_cons, h a List.mem_cons_self, ih fun b hb => h b (List.mem_cons_of_mem _ hb)]
    rfl

theorem lookup_groupBy {α β : Type} [BEq β] [LawfulBEq β] (key : α → β) (l : List α) (k : β) :
    ((groupBy key l).lookup k).getD [] = l.filter (key · == k) := by
  unfold groupBy
  by_cases hk : k ∈ (l.map key).eraseDups
  · rw [List.lookup_graph (fun k => l.filter (key · == k)) hk, Option.getD_some]
  · have hnone : ((l.map key).eraseDups.map fun k => (k, l.filter (key · == k))).lookup k = none := by
      rw [List.lookup_eq_none_iff]
      intro p hp
      obtain ⟨j, hj, rfl⟩ := List.mem_map.mp hp
      rw [bne_iff_ne]
      rintro rfl
      exact hk hj
    rw [hnone, Option.getD_none]
    refine (List.filter_eq_nil_iff.mpr fun a ha hak => hk ?_).symm
    rw [← eq_of_beq hak]
    exact List.mem_eraseDups.mpr (List.mem_map_of_mem ha)

namespace Grammar

variable {g : Grammar} {A B : Nonterminal}

theorem mem_unarySuccessors_iff : B ∈ g.unarySuccessors A ↔ UnaryStep g.rules A B := by
  simp only [unarySuccessors, List.mem_eraseDups, List.mem_filterMap, List.mem_filter,
    decide_eq_true_eq, Rule.unaryTarget?_eq_some_iff, UnaryStep]
  constructor
  · intro h
    obtain ⟨⟨left, right⟩, ⟨hr, rfl⟩, rfl⟩ := h
    exact hr
  · intro h
    exact ⟨_, ⟨h, rfl⟩, rfl⟩

theorem Valid.unaryGraph_eq (hg : g.Valid) :
    g.unaryGraph = .ok (g.nonterminals.map fun A => (A, g.unarySuccessors A)) := by
  have hnone : (g.rules.find? fun r => r.isUnary && !g.nonterminals.contains r.left) = none := by
    rw [List.find?_eq_none]
    intro r hr
    simp [hg.left_declared r hr]
  rw [unaryGraph, hnone]

abbrev unaryMap (g : Grammar) : Graph Nonterminal :=
  g.nonterminals.map fun A => (A, g.unarySuccessors A)

theorem nodes_unaryMap : g.unaryMap.nodes = g.nonterminals := by
  simp [Graph.nodes, Function.comp_def]

theorem Valid.edge_unaryMap_iff (hg : g.Valid) : g.unaryMap.Edge A B ↔ UnaryStep g.rules A B := by
  rw [← mem_unarySuccessors_iff]
  constructor
  · intro h
    obtain ⟨next, hnext, hB⟩ := h
    have hA := Graph.mem_nodes_of_lookup hnext
    rw [nodes_unaryMap] at hA
    rw [List.lookup_graph g.unarySuccessors hA] at hnext
    obtain rfl := Option.some.inj hnext
    exact hB
  · intro h
    have hA : A ∈ g.nonterminals := hg.left_declared _ (mem_unarySuccessors_iff.mp h)
    exact ⟨_, List.lookup_graph g.unarySuccessors hA, h⟩

theorem Valid.reaches_unaryMap_iff (hg : g.Valid) :
    g.unaryMap.Reaches A B ↔ UnaryReach g.rules A B := by
  rw [Graph.Reaches, UnaryReach, funext₂ fun A B => propext (hg.edge_unaryMap_iff (A := A) (B := B))]

theorem Valid.step_left_mem (hg : g.Valid) (h : UnaryStep g.rules A B) : A ∈ g.nonterminals :=
  hg.left_declared _ h

theorem Valid.step_mem (hg : g.Valid) (h : UnaryStep g.rules A B) : B ∈ g.nonterminals :=
  declares_nonterminal.mp (hg.right_declared _ h _ List.mem_cons_self)

theorem Valid.total_unaryMap (hg : g.Valid) : g.unaryMap.Total := fun _ _ h => by
  rw [nodes_unaryMap]
  exact hg.step_mem (hg.edge_unaryMap_iff.mp h)

/-- There is a walk from each of the roots, and their repetitions are dropped. -/
theorem Valid.exists_walks (hg : g.Valid) {roots : List Nonterminal}
    (hroots : ∀ A ∈ roots, A ∈ g.nonterminals) :
    ∃ walk : Nonterminal → List Nonterminal,
      (∀ A ∈ roots,
        g.unaryMap.preorder A = .ok (walk A) ∧ ∀ B, B ∈ walk A ↔ UnaryReach g.rules A B) ∧
      reachedFrom g.unaryMap roots = .ok (roots.map walk).flatten.eraseDups := by
  have hwalk : ∀ A, ∃ l, A ∈ roots →
      g.unaryMap.preorder A = .ok l ∧ ∀ B, B ∈ l ↔ UnaryReach g.rules A B := by
    intro A
    by_cases hA : A ∈ roots
    · obtain ⟨l, hl, hmem⟩ := Graph.preorder_reaches hg.total_unaryMap
        (nodes_unaryMap ▸ hroots A hA)
      exact ⟨l, fun _ => ⟨hl, fun B => (hmem B).trans hg.reaches_unaryMap_iff⟩⟩
    · exact ⟨[], fun h => absurd h hA⟩
  choose walk hwalk using hwalk
  refine ⟨walk, hwalk, ?_⟩
  rw [reachedFrom, mapM_eq_ok (F := walk) fun A hA => by rw [(hwalk A hA).1]; rfl]
  rfl

theorem Valid.reachedFrom_ok (hg : g.Valid) {roots : List Nonterminal}
    (hroots : ∀ A ∈ roots, A ∈ g.nonterminals) :
    ∃ l, reachedFrom g.unaryMap roots = .ok l ∧
      ∀ B, B ∈ l ↔ ∃ A ∈ roots, UnaryReach g.rules A B := by
  obtain ⟨walk, hwalk, hok⟩ := hg.exists_walks hroots
  refine ⟨_, hok, fun B => ?_⟩
  rw [List.mem_eraseDups, List.mem_flatten]
  constructor
  · intro h
    obtain ⟨_, hl, hB⟩ := h
    obtain ⟨A, hA, rfl⟩ := List.mem_map.mp hl
    exact ⟨A, hA, ((hwalk A hA).2 B).mp hB⟩
  · intro h
    obtain ⟨A, hA, hB⟩ := h
    exact ⟨walk A, List.mem_map_of_mem hA, ((hwalk A hA).2 B).mpr hB⟩

theorem Valid.unaryClosure_eq (hg : g.Valid) {reached : Nonterminal → List Nonterminal}
    (hreached : ∀ A, reachedFrom g.unaryMap (g.unarySuccessors A) = .ok (reached A)) :
    g.unaryClosure = .ok (g.nonterminals.map fun A => (A, reached A)) := by
  rw [unaryClosure, hg.unaryGraph_eq]
  show (g.nonterminals.map fun A => (A, g.unarySuccessors A)).mapM _ = _
  rw [mapM_eq_ok (F := fun entry => (entry.1, reached entry.1)) fun entry hentry => ?_, List.map_map]
  · rfl
  · obtain ⟨A, _, rfl⟩ := List.mem_map.mp hentry
    show (reachedFrom g.unaryMap (g.unarySuccessors A) >>= _) = _
    rw [hreached A]
    rfl

theorem Valid.unarySuccessors_declared (hg : g.Valid) (h : B ∈ g.unarySuccessors A) :
    B ∈ g.nonterminals := hg.step_mem (mem_unarySuccessors_iff.mp h)

theorem Valid.exists_reached (hg : g.Valid) :
    ∃ reached : Nonterminal → List Nonterminal,
      (∀ A, reachedFrom g.unaryMap (g.unarySuccessors A) = .ok (reached A)) ∧
        ∀ A B, B ∈ reached A ↔ Relation.TransGen (UnaryStep g.rules) A B := by
  have hreach : ∀ A, ∃ l, reachedFrom g.unaryMap (g.unarySuccessors A) = .ok l ∧
      ∀ B, B ∈ l ↔ Relation.TransGen (UnaryStep g.rules) A B := by
    intro A
    obtain ⟨l, hl, hmem⟩ := hg.reachedFrom_ok fun B => hg.unarySuccessors_declared
    refine ⟨l, hl, fun B => (hmem B).trans ?_⟩
    rw [Relation.TransGen.head'_iff]
    simp only [mem_unarySuccessors_iff]
    rfl
  choose reached hreached using hreach
  exact ⟨reached, fun A => (hreached A).1, fun A => (hreached A).2⟩

/-! ## The rules that come out -/

def properRules (g : Grammar) : List Rule := g.rules.filter fun r => !r.isUnary

/-- The copies that stand behind the rules that stay. -/
structure UnaryCopies (g : Grammar) (copies : List Rule) : Prop where
  nodup : copies.Nodup
  notMem : ∀ r ∈ copies, r ∉ g.properRules
  mem_iff : ∀ r, r ∈ g.properRules ++ copies ↔
    r.isUnary = false ∧ ∃ B, UnaryReach g.rules r.left B ∧ ⟨B, r.right⟩ ∈ g.rules

theorem mem_properRules_iff {r : Rule} : r ∈ g.properRules ↔ r ∈ g.rules ∧ r.isUnary = false := by
  simp [properRules]

theorem mem_unaryCopies_iff {reached : Nonterminal → List Nonterminal} {r : Rule} :
    r ∈ unaryCopies g.properRules (g.nonterminals.map fun A => (A, reached A)) ↔
      r.left ∈ g.nonterminals ∧ ∃ B ∈ reached r.left, ⟨B, r.right⟩ ∈ g.properRules := by
  simp only [unaryCopies, lookup_groupBy, List.mem_flatMap, List.mem_map, List.mem_filter,
    beq_iff_eq]
  constructor
  · intro h
    obtain ⟨_, ⟨A, hA, rfl⟩, B, hB, s, ⟨hs, rfl⟩, rfl⟩ := h
    exact ⟨hA, s.left, hB, hs⟩
  · intro h
    obtain ⟨hA, B, hB, hr⟩ := h
    exact ⟨_, ⟨r.left, hA, rfl⟩, B, hB, ⟨B, r.right⟩, ⟨hr, rfl⟩, rfl⟩

/-- Rules that are added one after the other are added once, and only if they were not there. -/
theorem exists_foldl_addNew (rules copies : List Rule) :
    ∃ added, copies.foldl addNew rules = rules ++ added ∧ added.Nodup ∧
      ∀ r, r ∈ added ↔ r ∈ copies ∧ r ∉ rules := by
  induction copies generalizing rules with
  | nil => exact ⟨[], (List.append_nil _).symm, .nil, fun r => by simp⟩
  | cons c copies ih =>
    by_cases hc : c ∈ rules
    · obtain ⟨added, hfold, hnodup, hmem⟩ := ih rules
      refine ⟨added, ?_, hnodup, fun r => ?_⟩
      · rw [List.foldl_cons, addNew, if_pos (List.contains_iff_mem.mpr hc), hfold]
      · rw [hmem, List.mem_cons]
        refine and_congr_left fun hr => (or_iff_right ?_).symm
        rintro rfl
        exact hr hc
    · obtain ⟨added, hfold, hnodup, hmem⟩ := ih (rules ++ [c])
      refine ⟨c :: added, ?_, List.nodup_cons.mpr ⟨fun h => ?_, hnodup⟩, fun r => ?_⟩
      · rw [List.foldl_cons, addNew, if_neg (mt List.contains_iff_mem.mp hc), hfold,
          List.append_assoc, List.singleton_append]
      · exact ((hmem c).mp h).2 (List.mem_append_right _ List.mem_cons_self)
      · rw [List.mem_cons, List.mem_cons, hmem, List.mem_append, List.mem_singleton]
        by_cases hr : r = c
        · subst hr
          simp [hc]
        · simp [hr]

theorem Valid.exists_unaryCopies (hg : g.Valid) {reached : Nonterminal → List Nonterminal}
    (hreached : ∀ A B, B ∈ reached A ↔ Relation.TransGen (UnaryStep g.rules) A B) :
    ∃ copies, g.UnaryCopies copies ∧
      (unaryCopies g.properRules (g.nonterminals.map fun A => (A, reached A))).foldl addNew
        g.properRules = g.properRules ++ copies := by
  obtain ⟨copies, hfold, hnodup, hadded⟩ := exists_foldl_addNew g.properRules
    (unaryCopies g.properRules (g.nonterminals.map fun A => (A, reached A)))
  refine ⟨copies, ⟨hnodup, fun r hr => ((hadded r).mp hr).2, fun r => ?_⟩, hfold⟩
  have hmem : r ∈ g.properRules ++ copies ↔ r ∈ g.properRules ∨ r.left ∈ g.nonterminals ∧
      ∃ B ∈ reached r.left, ⟨B, r.right⟩ ∈ g.properRules := by
    rw [List.mem_append, hadded, mem_unaryCopies_iff]
    by_cases hr : r ∈ g.properRules <;> simp [hr]
  rw [hmem]
  constructor
  · intro h
    rcases h with h | ⟨_, B, hB, h⟩
    · obtain ⟨hr, hunary⟩ := mem_properRules_iff.mp h
      exact ⟨hunary, r.left, .refl, hr⟩
    · obtain ⟨hr, hunary⟩ := mem_properRules_iff.mp h
      exact ⟨hunary, B, ((hreached _ _).mp hB).to_reflTransGen, hr⟩
  · intro h
    obtain ⟨hunary, B, hreach, hr⟩ := h
    have hproper : ⟨B, r.right⟩ ∈ g.properRules := mem_properRules_iff.mpr ⟨hr, hunary⟩
    rcases Relation.reflTransGen_iff_eq_or_transGen.mp hreach with heq | htrans
    · subst heq
      exact .inl hproper
    · obtain ⟨C, hstep, _⟩ := Relation.TransGen.head'_iff.mp htrans
      exact .inr ⟨hg.step_left_mem hstep, B, (hreached _ _).mpr htrans, hproper⟩

namespace UnaryCopies

variable {copies : List Rule}

theorem left_declared (h : g.UnaryCopies copies) (hg : g.Valid) {r : Rule}
    (hr : r ∈ g.properRules ++ copies) : r.left ∈ g.nonterminals := by
  obtain ⟨_, B, hreach, hB⟩ := (h.mem_iff r).mp hr
  rcases hreach.cases_head with heq | ⟨C, hstep, _⟩
  · subst heq
    exact hg.left_declared _ hB
  · exact hg.step_left_mem hstep

theorem valid (h : g.UnaryCopies copies) (hg : g.Valid) :
    ({ g with rules := g.properRules ++ copies } : Grammar).Valid := by
  refine hg.with_rules (fun r hr => h.left_declared hg hr) fun r hr => ?_
  obtain ⟨_, B, _, hB⟩ := (h.mem_iff r).mp hr
  exact hg.right_declared ⟨B, r.right⟩ hB

theorem words_eq (h : g.UnaryCopies copies) : words (g.properRules ++ copies) = words g.rules := by
  refine funext fun A => le_antisymm (words_le (fun r hr => ?_) A) (words_le (fun r hr => ?_) A)
  · obtain ⟨_, B, hreach, hB⟩ := (h.mem_iff r).mp hr
    exact (closed_words g.rules _ hB).trans hreach.words_le
  · cases hunary : r.isUnary with
    | false => exact closed_words _ r ((h.mem_iff r).mpr ⟨hunary, r.left, .refl, hr⟩)
    | true =>
      -- the words of `B` come from rules of `B`, and `A` has all of these
      obtain ⟨A, right⟩ := r
      obtain ⟨B, rfl⟩ := Rule.isUnary_iff.mp hunary
      intro w hw
      rw [Reading.form_singleton] at hw
      obtain ⟨s, hs, rfl, hform⟩ := mem_words_iff.mp hw
      obtain ⟨hproper, C, hreach, hC⟩ := (h.mem_iff s).mp hs
      exact mem_words_iff.mpr ⟨⟨A, s.right⟩,
        (h.mem_iff _).mpr ⟨hproper, C, .head hr hreach, hC⟩, rfl, hform⟩

end UnaryCopies

theorem withoutUnary_eq (hg : g.Valid) :
    ∃ copies, g.UnaryCopies copies ∧
      g.withoutUnary = .ok { g with rules := g.properRules ++ copies } := by
  obtain ⟨reached, hok, hreached⟩ := hg.exists_reached
  obtain ⟨copies, hcopies, hfold⟩ := hg.exists_unaryCopies hreached
  refine ⟨copies, hcopies, ?_⟩
  rw [withoutUnary, hg.unaryClosure_eq hok]
  show Grammar.checked { g with rules := _ } = _
  rw [← (hcopies.valid hg).checked, ← hfold]
  rfl

end Grammar

end Chomsky

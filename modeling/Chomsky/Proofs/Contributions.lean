import Chomsky.Proofs.RuleRemoval

/-!
# What each rule contributes

Once the epsilon rules are removed, every other rule stands for the ways of leaving out some of the
positions that hold a nullable symbol. The expansions of a right side are, as a multiset, the
remainders of its sets of such positions, one for each set that leaves something
(`expansions_eq_remainders`). So a rule with `k` such positions counts for `2 ^ k` rules, or one less if
nothing else is on its right side (`card_filter_remainder`), and a limit on `k` bounds the size of the
result (`length_expandedRules_le`). The nullable symbols may be any symbols here, and a symbol that
stands at several positions counts at each.
-/

namespace Chomsky

/-! ## Selections -/

theorem choose_perm_sublistsLen {α : Type} (k : Nat) (l : List α) :
    (choose k l).Perm (l.sublistsLen k) := by
  induction l generalizing k with
  | nil => cases k <;> exact .refl _
  | cons a l ih =>
    cases k with
    | zero => rw [choose, List.sublistsLen_zero]
    | succ k =>
      rw [choose, List.sublistsLen_succ_cons]
      exact List.perm_append_comm.trans ((ih (k + 1)).append ((ih k).map _))

theorem selections_perm_sublists {α : Type} (l : List α) : (selections l).Perm l.sublists := by
  have hlen : (selections l).Perm ((List.range (l.length + 1)).flatMap fun k => l.sublistsLen k) :=
    List.Perm.flatMap_left _ fun k _ => choose_perm_sublistsLen k l
  exact hlen.trans ((List.range_bind_sublistsLen_perm l).trans (List.sublists_perm_sublists' l).symm)

/-- The selection of nothing comes first, and only once. -/
theorem selections_eq_cons {α : Type} (l : List α) :
    selections l = [] :: (selections l).filter fun J => !J.isEmpty := by
  have hlater : ∀ J ∈ (List.range l.length).flatMap (fun k => choose (k + 1) l), J ≠ [] := by
    rintro J hJ rfl
    obtain ⟨k, _, hk⟩ := List.mem_flatMap.mp hJ
    exact absurd (mem_choose_iff.mp hk).2 (Nat.succ_ne_zero k).symm
  have hfirst : selections l = [] :: (List.range l.length).flatMap (fun k => choose (k + 1) l) := by
    rw [selections, List.range_succ_eq_map, List.flatMap_cons, List.flatMap_map]
    cases l <;> rfl
  rw [hfirst, List.filter_cons_of_neg (by simp), List.filter_eq_self.mpr]
  intro J hJ
  simpa using hlater J hJ

/-! ## Positions -/

theorem zipIdx_eq_map_finRange {α : Type} (l : List α) :
    l.zipIdx = (List.finRange l.length).map fun i => (l[i], i.val) := by
  refine List.ext_getElem (by simp) fun n _ _ => ?_
  simp

/-- The positions at which a right side holds one of the symbols. -/
def positionsOf (symbols right : List Symbol) : Finset (Fin right.length) :=
  Finset.univ.filter fun i => right[i] ∈ symbols

/-- What is left of a right side without these positions. -/
def remainder (right : List Symbol) (J : Finset (Fin right.length)) : List Symbol :=
  ((List.finRange right.length).filter fun i => i ∉ J).map fun i => right[i]

variable {symbols right : List Symbol}

/-- The same positions in order. -/
def positionList (symbols right : List Symbol) : List (Fin right.length) :=
  (List.finRange right.length).filter fun i => right[i] ∈ symbols

theorem val_positionsOf : (positionsOf symbols right).val = (positionList symbols right : Multiset _) :=
  rfl

theorem nullablePositions_eq_map :
    nullablePositions symbols right = (positionList symbols right).map Fin.val := by
  rw [nullablePositions, zipIdx_eq_map_finRange, List.filter_map, List.map_map]
  refine congrArg (List.map _) (List.filter_congr fun i _ => ?_)
  simp

theorem length_nullablePositions_eq_card :
    (nullablePositions symbols right).length = (positionsOf symbols right).card := by
  rw [nullablePositions_eq_map, List.length_map]
  rfl

theorem dropPositions_map_val (J : List (Fin right.length)) :
    dropPositions (J.map Fin.val) right =
      ((List.finRange right.length).filter fun i => i ∉ J).map fun i => right[i] := by
  rw [dropPositions, zipIdx_eq_map_finRange, List.filter_map, List.map_map]
  refine congrArg (List.map _) (List.filter_congr fun i _ => ?_)
  have hcontains : (J.map Fin.val).contains i.val = decide (i ∈ J) := by
    rw [Bool.eq_iff_iff, List.contains_iff_mem, decide_eq_true_iff,
      List.mem_map_of_injective Fin.val_injective]
  rw [decide_not, ← hcontains]
  rfl

/-! ## Expansions -/

/-- The whole right side stands for the selection of nothing. -/
theorem expansions_perm (hne : right ≠ []) : (expansions symbols right).Perm
    (((selections (nullablePositions symbols right)).map (dropPositions · right)).filter
      fun copy => copy ≠ []) := by
  have hnonempty : (fun copy : List Symbol => !copy.isEmpty) = fun copy => decide (copy ≠ []) := by
    funext copy
    cases copy <;> rfl
  conv_rhs => rw [selections_eq_cons, List.map_cons, dropPositions_nil, List.filter_cons,
    if_pos (decide_eq_true hne)]
  rw [expansions, hnonempty]
  exact List.perm_append_singleton _ _

theorem map_val_powerset {α β : Type} (s : Finset α) (f : Multiset α → β) :
    s.powerset.val.map (fun J => f J.val) = s.val.powerset.map f := by
  rw [Finset.powerset, Multiset.map_pmap]
  exact Multiset.pmap_eq_map _ _ _ _

/-- The remainders of all sets of positions, with the sets taken from a list. -/
theorem map_remainder_powerset : (positionsOf symbols right).powerset.val.map (remainder right) =
    ((positionList symbols right).sublists.map fun J => dropPositions (J.map Fin.val) right :
      List (List Symbol)) := by
  refine (map_val_powerset _ fun J : Multiset (Fin right.length) =>
    ((List.finRange right.length).filter fun i => i ∉ J).map fun i => right[i]).trans ?_
  rw [val_positionsOf, Multiset.powerset_coe, Multiset.map_coe, List.map_map]
  refine congrArg _ (List.map_congr_left fun J _ => ?_)
  rw [dropPositions_map_val]
  rfl

/-- There is one expansion for each set of positions that leaves something. -/
theorem expansions_eq_remainders (hne : right ≠ []) :
    (expansions symbols right : Multiset (List Symbol)) =
      ((positionsOf symbols right).powerset.filter fun J => remainder right J ≠ []).val.map
        (remainder right) := by
  have hselections : ((selections (nullablePositions symbols right)).map (dropPositions · right)).Perm
      ((positionList symbols right).sublists.map fun J => dropPositions (J.map Fin.val) right) := by
    have hperm := (selections_perm_sublists (nullablePositions symbols right)).map (dropPositions · right)
    rw [nullablePositions_eq_map, List.sublists_map, List.map_map] at hperm
    rwa [nullablePositions_eq_map]
  rw [Multiset.coe_eq_coe.mpr ((expansions_perm hne).trans (hselections.filter _)),
    ← Multiset.filter_coe, ← map_remainder_powerset, Multiset.filter_map, Finset.filter_val]
  rfl

/-! ## How many there are -/

theorem remainder_eq_nil_iff {J : Finset (Fin right.length)} :
    remainder right J = [] ↔ J = Finset.univ := by
  simp [remainder, Finset.eq_univ_iff_forall]

/-- All sets of positions leave something, unless the whole right side may be left out. -/
theorem card_filter_remainder (symbols right : List Symbol) :
    ((positionsOf symbols right).powerset.filter fun J => remainder right J ≠ []).card =
      if (positionsOf symbols right).card < right.length then 2 ^ (positionsOf symbols right).card
      else 2 ^ (positionsOf symbols right).card - 1 := by
  have herase : ((positionsOf symbols right).powerset.filter fun J => remainder right J ≠ []) =
      (positionsOf symbols right).powerset.erase Finset.univ := by
    ext J
    rw [Finset.mem_filter, Finset.mem_erase, ne_eq, remainder_eq_nil_iff, and_comm]
  have huniv : Finset.univ ∈ (positionsOf symbols right).powerset ↔
      ¬(positionsOf symbols right).card < right.length := by
    rw [Finset.mem_powerset, Finset.univ_subset_iff, ← Finset.card_eq_iff_eq_univ, Fintype.card_fin]
    have hle := card_finset_fin_le (positionsOf symbols right)
    omega
  rw [herase]
  split
  · next hlt =>
    rw [Finset.erase_eq_of_notMem fun h => huniv.mp h hlt, Finset.card_powerset]
  · next hall => rw [Finset.card_erase_of_mem (huniv.mpr hall), Finset.card_powerset]

theorem length_expansions (hne : right ≠ []) : (expansions symbols right).length =
    if (positionsOf symbols right).card < right.length then 2 ^ (positionsOf symbols right).card
    else 2 ^ (positionsOf symbols right).card - 1 := by
  have hcard := congrArg Multiset.card (@expansions_eq_remainders symbols right hne)
  rw [Multiset.coe_card, Multiset.card_map] at hcard
  exact hcard.trans (card_filter_remainder symbols right)

/-! ## Rules -/

/-- What a rule stands for once the epsilon rules are removed. -/
def Rule.contribution (symbols : List Symbol) (s : Rule) : List Rule :=
  if s.isEpsilon then [] else s.expansions symbols

namespace Rule

variable {s : Rule}

theorem contribution_of_epsilon (h : s.right = []) : s.contribution symbols = [] :=
  if_pos (isEpsilon_iff.mpr h)

theorem contribution_of_ne (h : s.right ≠ []) : s.contribution symbols = s.expansions symbols :=
  if_neg (mt isEpsilon_iff.mp h)

/-- The rules of the remainders, as often as there are sets of positions for them. -/
theorem contribution_eq_remainders (h : s.right ≠ []) :
    (s.contribution symbols : Multiset Rule) =
      ((positionsOf symbols s.right).powerset.filter fun J => remainder s.right J ≠ []).val.map
        fun J => ⟨s.left, remainder s.right J⟩ := by
  rw [contribution_of_ne h, expansions, ← Multiset.map_coe, expansions_eq_remainders h,
    Multiset.map_map]
  rfl

theorem length_contribution (h : s.right ≠ []) : (s.contribution symbols).length =
    if (positionsOf symbols s.right).card < s.right.length then
      2 ^ (positionsOf symbols s.right).card
    else 2 ^ (positionsOf symbols s.right).card - 1 := by
  rw [contribution_of_ne h, expansions, List.length_map, length_expansions h]

theorem length_contribution_le (h : s.right ≠ []) :
    (s.contribution symbols).length ≤ 2 ^ (positionsOf symbols s.right).card := by
  rw [length_contribution h]
  split
  · exact le_refl _
  · exact Nat.sub_le _ 1

end Rule

namespace Grammar

variable {g : Grammar} {options : EpsilonOptions} {a : Allocator}

theorem expandedRules_eq_flatMap :
    g.expandedRules symbols = g.rules.flatMap (Rule.contribution symbols) := by
  rw [expandedRules]
  induction g.rules with
  | nil => rfl
  | cons s rules ih =>
    rw [List.flatMap_cons, ← ih, List.filter_cons, Rule.contribution]
    cases s.isEpsilon <;> rfl

theorem length_expandedRules_le {m : Nat}
    (h : ∀ s ∈ g.rules, s.right ≠ [] → (positionsOf symbols s.right).card ≤ m) :
    (g.expandedRules symbols).length ≤ 2 ^ m * g.rules.countP fun s => !s.isEpsilon := by
  rw [expandedRules_eq_flatMap]
  generalize g.rules = rules at h ⊢
  induction rules with
  | nil => exact Nat.zero_le _
  | cons s rules ih =>
    obtain ⟨hs, hrules⟩ := List.forall_mem_cons.mp h
    have hlater := ih hrules
    rw [List.flatMap_cons, List.length_append, List.countP_cons]
    by_cases hright : s.right = []
    · rw [Rule.contribution_of_epsilon hright, if_neg (by simp [Rule.isEpsilon, hright])]
      simpa using hlater
    · have hone : (s.contribution symbols).length ≤ 2 ^ m :=
        (Rule.length_contribution_le hright).trans (Nat.pow_le_pow_right (by decide) (hs hright))
      rw [if_pos (by simpa [Rule.isEpsilon] using hright), Nat.mul_add, Nat.mul_one]
      omega

/-! ## What the removal answers without an augmentation -/

theorem withoutEpsilon_of_within (hg : g.Valid) (haugment : options.augmentStart = false)
    (h : g.overLimit? symbols options.maxNullablePositions = none) :
    (g.withoutEpsilon symbols options a).2 = .ok { g with rules := g.expandedRules symbols } := by
  have hvalid : ({ g with rules := g.expandedRules symbols } : Grammar).Valid :=
    hg.with_rules (fun _ => hg.left_expanded) fun _ hr _ => hg.right_expanded hr
  unfold withoutEpsilon
  rw [h, haugment]
  exact hvalid.checked

theorem withoutEpsilon_of_overLimit {failure : Failure}
    (h : g.overLimit? symbols options.maxNullablePositions = some failure) :
    (g.withoutEpsilon symbols options a).2 = .error failure := by
  rw [withoutEpsilon, h]

theorem overLimit?_eq_none_iff_card {m : Nat} : g.overLimit? symbols (some (m : Int)) = none ↔
    ∀ s ∈ g.rules, s.right ≠ [] → (positionsOf symbols s.right).card ≤ m := by
  simp [overLimit?_eq_none_iff, length_nullablePositions_eq_card]

/-- The rules that each rule contributes, and how many; and what a limit on the positions of a rule
changes. -/
theorem removeEpsilon_contributions (hg : g.Valid) (symbols : List Symbol) (a : Allocator) :
    ∃ (r : Grammar) (contribution : Rule → List Rule),
      (g.removeEpsilon symbols { augmentStart := false } a).2.result = .ok r ∧
      r.start = g.start ∧ r.nonterminals = g.nonterminals ∧ r.terminals = g.terminals ∧
      r.rules = g.rules.flatMap contribution ∧
      (∀ s ∈ g.rules, s.right = [] → contribution s = []) ∧
      (∀ s ∈ g.rules, s.right ≠ [] →
        (contribution s : Multiset Rule) =
          ((positionsOf symbols s.right).powerset.filter fun J => remainder s.right J ≠ []).val.map
            (fun J => ⟨s.left, remainder s.right J⟩) ∧
        (contribution s).length =
          if (positionsOf symbols s.right).card < s.right.length then
            2 ^ (positionsOf symbols s.right).card
          else 2 ^ (positionsOf symbols s.right).card - 1) ∧
      ∀ m : Nat,
        ((∃ s positions limit, (g.removeEpsilon symbols
            { augmentStart := false, maxNullablePositions := some m } a).2.result =
              .error (.expansionLimit s positions limit)) ↔
          ∃ s ∈ g.rules, s.right ≠ [] ∧ m < (positionsOf symbols s.right).card) ∧
        ((∀ s ∈ g.rules, s.right ≠ [] → (positionsOf symbols s.right).card ≤ m) →
          (g.removeEpsilon symbols
            { augmentStart := false, maxNullablePositions := some m } a).2.result = .ok r ∧
          r.rules.length ≤ 2 ^ m * g.rules.countP fun s => !s.isEpsilon) := by
  simp only [result_removeEpsilon]
  refine ⟨{ g with rules := g.expandedRules symbols }, Rule.contribution symbols,
    withoutEpsilon_of_within hg rfl rfl, rfl, rfl, rfl, expandedRules_eq_flatMap,
    fun s _ => Rule.contribution_of_epsilon,
    fun s _ hright => ⟨Rule.contribution_eq_remainders hright, Rule.length_contribution hright⟩,
    fun m => ⟨?_, fun hwithin => ⟨?_, length_expandedRules_le hwithin⟩⟩⟩
  · constructor
    · intro h
      obtain ⟨s, positions, limit, hresult⟩ := h
      by_contra hnone
      push Not at hnone
      rw [withoutEpsilon_of_within hg rfl (overLimit?_eq_none_iff_card.mpr hnone)] at hresult
      cases hresult
    · intro h
      obtain ⟨s, hs, hright, hlt⟩ := h
      cases hlimit : g.overLimit? symbols (some (m : Int)) with
      | none => exact absurd (overLimit?_eq_none_iff_card.mp hlimit s hs hright) (by omega)
      | some failure =>
        obtain ⟨t, positions, limit, rfl⟩ := overLimit?_eq_some hlimit
        exact ⟨t, positions, limit, withoutEpsilon_of_overLimit hlimit⟩
  · exact withoutEpsilon_of_within hg rfl (overLimit?_eq_none_iff_card.mpr hwithin)

/-- The same symbol at two positions, once with something between them and once without. -/
def twins : Grammar where
  start := ⟨"S"⟩
  rules := [
    ⟨⟨"S"⟩, [.nonterminal ⟨"A"⟩, .terminal ⟨"b"⟩, .nonterminal ⟨"A"⟩]⟩,
    ⟨⟨"S"⟩, [.nonterminal ⟨"A"⟩, .nonterminal ⟨"A"⟩]⟩, ⟨⟨"A"⟩, []⟩]
  nonterminals := [⟨"S"⟩, ⟨"A"⟩]
  terminals := [⟨"b"⟩]

/-- Four rules and three, two of which are equal. The limit is the number of positions in a rule. -/
theorem removeEpsilon_contributions_twins :
    ∃ r, (twins.removeEpsilon [.nonterminal ⟨"A"⟩] { augmentStart := false }
        .standard).2.result = .ok r ∧
      r.rules.length = 7 ∧
      (∃ s positions limit, (twins.removeEpsilon [.nonterminal ⟨"A"⟩]
        { augmentStart := false, maxNullablePositions := some 1 } .standard).2.result =
          .error (.expansionLimit s positions limit)) ∧
      (twins.removeEpsilon [.nonterminal ⟨"A"⟩]
        { augmentStart := false, maxNullablePositions := some 2 } .standard).2.result = .ok r := by
  have hvalid : twins.Valid := defect?_eq_none_iff.mp (by cbv)
  obtain ⟨r, contribution, hr, _, _, _, hrules, hepsilon, hcontribution, hlimit⟩ :=
    removeEpsilon_contributions hvalid [.nonterminal ⟨"A"⟩] .standard
  have hapart : (contribution
      ⟨⟨"S"⟩, [.nonterminal ⟨"A"⟩, .terminal ⟨"b"⟩, .nonterminal ⟨"A"⟩]⟩).length = 4 :=
    (hcontribution _ (by decide) (by decide)).2
  have htogether : (contribution ⟨⟨"S"⟩, [.nonterminal ⟨"A"⟩, .nonterminal ⟨"A"⟩]⟩).length = 3 :=
    (hcontribution _ (by decide) (by decide)).2
  have hnone : contribution ⟨⟨"A"⟩, []⟩ = [] := hepsilon _ (by decide) rfl
  refine ⟨r, hr, ?_, (hlimit 1).1.mpr ⟨_, List.mem_cons_self, by decide, by decide⟩,
    ((hlimit 2).2 (by decide)).1⟩
  rw [hrules]
  simp only [twins, List.flatMap_cons, List.flatMap_nil, List.length_append, hapart, htogether, hnone,
    List.length_nil]

end Grammar

end Chomsky

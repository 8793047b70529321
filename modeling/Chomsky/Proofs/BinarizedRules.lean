import Chomsky.Proofs.BinarizationLayout
import Chomsky.Proofs.ChomskyNormalForm

/-!
# The rules of a binarized grammar

Every part of a binarized grammar ends with a rule of the nonterminal that its rule belongs to, and has
one rule in front of it for each nonterminal that is new with the part (`Part.exists_rules`). So each
new nonterminal has exactly one rule, and there are as many rules more as there are new nonterminals.
How many that are, and which names they have, is settled before binarization begins (`binarize_mints`).
-/

namespace Chomsky

namespace Binarization

variable {name : Nat → Nonterminal} {start left : Nonterminal} {nonterminals names : List Nonterminal}
  {rules : List Rule} {part : Part} {τ : Naming}

/-- A rule for each pair, and a last one that derives the nonterminals through them. -/
theorem exists_pairUp (left : Nonterminal) (hlen : names.length = nonterminals.length - 2) :
    ∃ front right, pairUp left nonterminals names = front ++ [⟨left, right⟩] ∧
      front.map Rule.left = names ∧ Derives front right (nonterminals.map .nonterminal) := by
  induction names generalizing nonterminals with
  | nil => exact ⟨[], _, pairUp_nil left nonterminals, rfl, .refl⟩
  | cons X names ih =>
    obtain ⟨first, second, third, rest, rfl⟩ := exists_long hlen
    have hlen' : names.length = (X :: third :: rest).length - 2 := by simpa using hlen
    obtain ⟨front, right, heq, hleft, hderives⟩ := ih hlen'
    refine ⟨⟨X, [.nonterminal first, .nonterminal second]⟩ :: front, right, ?_, ?_, ?_⟩
    · rw [pairUp_cons, heq]
      rfl
    · rw [List.map_cons, hleft]
    · refine (hderives.mono fun _ => List.mem_cons_of_mem _).tail ?_
      exact .step List.mem_cons_self [] ((third :: rest).map .nonterminal)

theorem right_of_mem_pairUp {s : Rule} (hs : s ∈ pairUp left nonterminals names) :
    ∃ l : List Nonterminal, s.right = l.map .nonterminal := by
  fun_induction pairUp left nonterminals names with
  | case1 first second third rest X names ih =>
    rcases List.mem_cons.mp hs with rfl | hs
    · exact ⟨[first, second], rfl⟩
    · exact ih hs
  | case2 => exact ⟨_, congrArg Rule.right (List.mem_singleton.mp hs)⟩

/-- A rule for each new nonterminal of a part, and a last one in place of its rule. -/
theorem Part.exists_rules (hlen : part.pairs.length = part.rule.right.length - 2) :
    ∃ front right, part.rules τ start = front ++ [⟨part.rule.left, right⟩] ∧
      front.map Rule.left = part.minted ∧
      (keeps start part.rule = true → right = part.rule.right) ∧
      (keeps start part.rule = false →
        Derives front right ((part.rule.right.map τ.symbol).map .nonterminal)) := by
  have hisolated : (part.isolated.map fun q => (⟨q.2, [.terminal q.1]⟩ : Rule)).map Rule.left =
      part.isolated.map Prod.snd := by
    rw [List.map_map]
    rfl
  cases hkeeps : keeps start part.rule with
  | true =>
    have hshort := length_le_one_of_keeps hkeeps
    have hpairs : part.pairs = [] := List.eq_nil_of_length_eq_zero (by omega)
    refine ⟨part.isolated.map fun q => ⟨q.2, [.terminal q.1]⟩, part.rule.right, ?_, ?_,
      fun _ => rfl, fun h => Bool.noConfusion h⟩
    · rw [Part.rules, layout, if_pos hkeeps]
    · rw [hisolated, Part.minted, hpairs, List.append_nil]
  | false =>
    have hlen' : part.pairs.length = (part.rule.right.map τ.symbol).length - 2 := by
      rwa [List.length_map]
    obtain ⟨front, right, heq, hleft, hderives⟩ := exists_pairUp part.rule.left hlen'
    refine ⟨(part.isolated.map fun q => ⟨q.2, [.terminal q.1]⟩) ++ front, right, ?_, ?_,
      fun h => Bool.noConfusion h, fun _ => hderives.mono fun _ => List.mem_append_right _⟩
    · rw [Part.rules, layout, hkeeps, if_neg Bool.false_ne_true, heq, List.append_assoc]
    · rw [List.map_append, hisolated, hleft, Part.minted]

end Binarization

namespace Grammar

open Binarization (Naming Part)

variable {g r : Grammar} {a : Allocator} {τ : Naming} {parts : List Part} {X : Nonterminal}

theorem Layout.map_left (h : g.Layout a τ parts) :
    (g.binarizedWith a).rules.map Rule.left =
      parts.flatMap fun part => part.minted ++ [part.rule.left] := by
  rw [h.rules_eq, List.map_flatMap]
  refine List.flatMap_congr fun part hpart => ?_
  obtain ⟨front, right, heq, hleft, _⟩ := Part.exists_rules (h.length_pairs part hpart)
  rw [heq, List.map_append, hleft]
  rfl

/-- The left sides are those of the grammar, and the new nonterminals. -/
theorem left_binarizedWith_perm (g : Grammar) (a : Allocator) :
    ((g.binarizedWith a).rules.map Rule.left).Perm (g.introduced a ++ g.rules.map Rule.left) := by
  obtain ⟨τ, parts, hlayout⟩ := exists_layout g a
  have hold : parts.flatMap (fun part => [part.rule.left]) = g.rules.map Rule.left := by
    rw [← hlayout.rule_eq, List.map_map, ← List.flatMap_pure_eq_map]
    rfl
  rw [hlayout.map_left, ← hlayout.minted_eq, ← hold]
  exact (List.flatMap_append_perm parts _ _).symm

theorem length_introduced (g : Grammar) (a : Allocator) : (g.introduced a).length = g.mintCount := by
  rw [introduced, Allocator.mintedSince_after, List.length_map, List.length_range']

theorem length_rules_binarizedWith (g : Grammar) (a : Allocator) :
    (g.binarizedWith a).rules.length = g.rules.length + g.mintCount := by
  have hlength := (left_binarizedWith_perm g a).length_eq
  rw [List.length_map, List.length_append, List.length_map, length_introduced] at hlength
  omega

theorem notMem_of_introduced (hfree : a.FreeNext g.symbolNames g.mintCount)
    (hX : X ∈ g.introduced a) : X ∉ g.nonterminals := by
  obtain ⟨i, hi, hn, rfl⟩ := Allocator.mem_mintedSince_after.mp hX
  exact notMem_of_fresh (hfree i hi hn).1

/-- A new nonterminal has one rule. -/
theorem count_left_introduced (hg : g.Valid) (hfree : a.FreeNext g.symbolNames g.mintCount)
    (hX : X ∈ g.introduced a) : ((g.binarizedWith a).rules.map Rule.left).count X = 1 := by
  have hone : (g.introduced a).count X = 1 :=
    List.count_eq_one_of_mem Allocator.nodup_mintedSince_after hX
  have hnone : (g.rules.map Rule.left).count X = 0 := by
    refine List.count_eq_zero.mpr fun hleft => notMem_of_introduced hfree hX ?_
    obtain ⟨s, hs, rfl⟩ := List.mem_map.mp hleft
    exact hg.left_declared s hs
  rw [(left_binarizedWith_perm g a).count_eq, List.count_append, hone, hnone]

/-! ## How far the numbers go -/

/-- One of the next numbers is not free: the grammar has its name, or it was given away before. -/
theorem not_freeNext_iff : ¬a.FreeNext g.symbolNames g.mintCount ↔
    ∃ i, a.counter < i ∧ i ≤ a.counter + g.mintCount ∧
      (a.stem ++ toString i ∈ g.symbolNames ∨ ⟨a.stem ++ toString i⟩ ∈ a.minted) := by
  rw [Allocator.FreeNext]
  push Not
  refine exists_congr fun i => and_congr_right fun _ => and_congr_right fun _ => ?_
  rw [Allocator.Free, not_and_or, not_not, not_not]
  rfl

/-- The names that binarization needs follow from the grammar and the counter. If one of them is in use
it fails; otherwise it introduces just these, in order. -/
theorem binarize_mints (hg : g.Valid) (hunary : ∀ s ∈ g.rules, s.isUnary = false)
    (hepsilon : ∀ s ∈ g.rules, s.right = [] → s.left = g.start) (a : Allocator) :
    ((∃ name, (g.binarize a).2.result = .error (.nameTaken name)) ↔
      ∃ i, a.counter < i ∧ i ≤ a.counter + g.mintCount ∧
        (a.stem ++ toString i ∈ g.symbolNames ∨ ⟨a.stem ++ toString i⟩ ∈ a.minted)) ∧
    ((∀ name, (g.binarize a).2.result ≠ .error (.nameTaken name)) →
      ∃ r minted, (g.binarize a).2.result = .ok r ∧
        minted = (List.range' (a.counter + 1) g.mintCount).map (fun i => ⟨a.stem ++ toString i⟩) ∧
        (g.binarize a).1 =
          { a with counter := a.counter + g.mintCount, minted := a.minted ++ minted } ∧
        r.nonterminals = g.nonterminals ++ minted ∧ r.start = g.start ∧
        r.terminals = g.terminals ∧ r.rules.length = g.rules.length + g.mintCount) := by
  have haccept : ∀ s ∈ g.rules, Binarization.accepts g.start s = true := fun s hs =>
    Binarization.accepts_of_form (hunary s hs) (hepsilon s hs)
  rw [← not_freeNext_iff]
  rcases binarized_of_accepted (a := a) hg haccept with ⟨hfree, _⟩ | ⟨hnot, later, name, heq⟩
  · have heq := binarized_of_free hg haccept hfree
    have hresult : (g.binarize a).2.result = .ok (g.binarizedWith a) := congrArg Prod.snd heq
    have hlater : (g.binarize a).1 = a.after g.mintCount := congrArg Prod.fst heq
    refine ⟨iff_of_false (fun h => ?_) (not_not_intro hfree), fun _ => ?_⟩
    · obtain ⟨name, h⟩ := h
      rw [hresult] at h
      cases h
    · refine ⟨g.binarizedWith a, g.introduced a, hresult, ?_, ?_, rfl, rfl, rfl,
        length_rules_binarizedWith g a⟩
      · exact Allocator.mintedSince_after
      · rw [hlater, introduced, Allocator.mintedSince_after]
        rfl
  · have hresult : (g.binarize a).2.result = .error (.nameTaken name) := congrArg Prod.snd heq
    exact ⟨iff_of_true ⟨name, hresult⟩ hnot, fun h => absurd hresult (h name)⟩

/-- Two names for the brackets and one for a pair. The third name may have been given away before. -/
theorem binarize_mints_brackets :
    (∃ r, (brackets.binarize .standard).2.result = .ok r ∧
      r.nonterminals = [⟨"S"⟩, ⟨"X1"⟩, ⟨"X2"⟩, ⟨"X3"⟩] ∧ r.rules.length = 5) ∧
    ∃ name, (brackets.binarize { stem := "X", minted := [⟨"X3"⟩] }).2.result =
      .error (.nameTaken name) := by
  have hmints := binarize_mints valid_brackets (by decide) (by decide)
  have hcount : brackets.mintCount = 3 := by cbv
  constructor
  · obtain ⟨_, hfree⟩ := hmints .standard
    have hok : (brackets.binarize .standard).2.result.isOk = true := by cbv
    obtain ⟨r, minted, hr, rfl, _, hnonterminals, _, _, hlength⟩ := hfree fun name h => by
      rw [h] at hok
      cases hok
    rw [hcount] at hnonterminals hlength
    exact ⟨r, hr, hnonterminals, hlength⟩
  · exact (hmints _).1.mpr ⟨3, by decide, by rw [hcount], .inr (by decide)⟩

end Grammar

end Chomsky

import Chomsky.Proofs.BinarizedGrammar

/-!
# The layout of binarized rules

Binarization lays out a part for each rule, one after the other. A part holds the rules that isolate
terminals for the first time, and behind them those that derive the right side in pairs. All in it is
settled by names: one for each terminal, which all parts share, and one for each pair, which belongs to
its part alone. `exists_layout` splits a binarized grammar into such parts.
-/

namespace Chomsky

namespace Binarization

/-- Some nonterminal for every terminal. -/
abbrev Naming := Terminal → Nonterminal

def Naming.symbol (τ : Naming) : Symbol → Nonterminal
  | .nonterminal A => A
  | .terminal a => τ a

/-- The rules that derive these nonterminals in pairs from the left. The second list names the
pairs. -/
def pairUp (left : Nonterminal) : List Nonterminal → List Nonterminal → List Rule
  | first :: second :: third :: rest, X :: names =>
    ⟨X, [.nonterminal first, .nonterminal second]⟩ :: pairUp left (X :: third :: rest) names
  | nonterminals, _ => [⟨left, nonterminals.map .nonterminal⟩]

theorem pairUp_cons (left first second third X : Nonterminal) (rest names : List Nonterminal) :
    pairUp left (first :: second :: third :: rest) (X :: names) =
      ⟨X, [.nonterminal first, .nonterminal second]⟩ :: pairUp left (X :: third :: rest) names := rfl

theorem pairUp_nil (left : Nonterminal) (nonterminals : List Nonterminal) :
    pairUp left nonterminals [] = [⟨left, nonterminals.map .nonterminal⟩] := by
  rcases nonterminals with _ | ⟨_, _ | ⟨_, _ | ⟨_, _⟩⟩⟩ <;> rfl

/-- As long as there are names for pairs, there are more than two nonterminals. -/
theorem exists_long {X : Nonterminal} {nonterminals names : List Nonterminal}
    (hlen : (X :: names).length = nonterminals.length - 2) :
    ∃ first second third rest, nonterminals = first :: second :: third :: rest := by
  rcases nonterminals with _ | ⟨first, _ | ⟨second, _ | ⟨third, rest⟩⟩⟩
  · simp at hlen
  · simp at hlen
  · simp at hlen
  · exact ⟨first, second, third, rest, rfl⟩

/-- What every rule passes on to its left side, the pairs have if the nonterminals between which they
stand do. -/
theorem forall_of_pairUp {P : Nonterminal → Prop} {left : Nonterminal}
    {nonterminals names : List Nonterminal}
    (hP : ∀ r ∈ pairUp left nonterminals names, (∀ A, .nonterminal A ∈ r.right → P A) → P r.left)
    (hlen : names.length = nonterminals.length - 2) (hall : ∀ A ∈ nonterminals, P A) :
    ∀ A ∈ names, P A := by
  induction names generalizing nonterminals with
  | nil => exact fun A hA => absurd hA List.not_mem_nil
  | cons X names ih =>
    obtain ⟨first, second, third, rest, rfl⟩ := exists_long hlen
    rw [pairUp_cons] at hP
    obtain ⟨hpair, hrest⟩ := List.forall_mem_cons.mp hP
    obtain ⟨hfirst, hsecond, hthird⟩ : P first ∧ P second ∧ ∀ A ∈ third :: rest, P A := by
      simpa only [List.forall_mem_cons] using hall
    have hX : P X := by
      refine hpair fun A hA => ?_
      rcases List.mem_pair.mp hA with heq | heq
      · exact Symbol.nonterminal.inj heq ▸ hfirst
      · exact Symbol.nonterminal.inj heq ▸ hsecond
    exact List.forall_mem_cons.mpr
      ⟨hX, ih hrest (by simpa using hlen) (List.forall_mem_cons.mpr ⟨hX, hthird⟩)⟩

/-- What becomes of a rule, with these names. -/
def layout (τ : Naming) (start : Nonterminal) (r : Rule) (pairs : List Nonterminal) : List Rule :=
  if keeps start r then [r] else pairUp r.left (r.right.map τ.symbol) pairs

structure Part where
  rule : Rule
  /-- The terminals that come up for the first time, each with its nonterminal. -/
  isolated : List (Terminal × Nonterminal)
  /-- The names of the pairs. -/
  pairs : List Nonterminal

namespace Part

def minted (part : Part) : List Nonterminal := part.isolated.map Prod.snd ++ part.pairs

def rules (τ : Naming) (start : Nonterminal) (part : Part) : List Rule :=
  part.isolated.map (fun q => ⟨q.2, [.terminal q.1]⟩) ++ layout τ start part.rule part.pairs

end Part

variable {name : Nat → Nonterminal} {b b' b'' : Binarization} {start : Nonterminal}
  {right : List Symbol} {rules : List Rule} {r : Rule} {parts parts' : List Part}

/-- The second binarization is the first one with these parts behind it. The names of terminals only
matter for the rules, so they may be chosen when all terminals have theirs. -/
structure Lays (name : Nat → Nonterminal) (start : Nonterminal) (b : Binarization)
    (parts : List Part) (b' : Binarization) : Prop where
  counter_eq : b'.counter = b.counter + (parts.flatMap Part.minted).length
  minted_eq : parts.flatMap Part.minted =
    (List.range' (b.counter + 1) (parts.flatMap Part.minted).length).map name
  preterminals_eq : b'.preterminals = b.preterminals ++ parts.flatMap Part.isolated
  rules_eq : ∀ τ : Naming, (∀ q ∈ b'.preterminals, τ q.1 = q.2) →
    b'.rules = b.rules ++ parts.flatMap (Part.rules τ start)
  length_pairs : ∀ part ∈ parts, part.pairs.length = part.rule.right.length - 2

theorem Lays.nil : Lays name start b [] b where
  counter_eq := rfl
  minted_eq := rfl
  preterminals_eq := (List.append_nil _).symm
  rules_eq _ _ := (List.append_nil _).symm
  length_pairs := by simp

theorem Lays.append (h : Lays name start b parts b') (h' : Lays name start b' parts' b'') :
    Lays name start b (parts ++ parts') b'' where
  counter_eq := by
    rw [h'.counter_eq, h.counter_eq, List.flatMap_append, List.length_append, Nat.add_assoc]
  minted_eq := by
    have hsecond := h'.minted_eq
    have hnext : b'.counter + 1 = b.counter + 1 + (parts.flatMap Part.minted).length := by
      rw [h.counter_eq]
      omega
    rw [hnext] at hsecond
    rw [List.flatMap_append, List.length_append, ← List.range'_append_1, List.map_append,
      ← h.minted_eq, ← hsecond]
  preterminals_eq := by
    rw [h'.preterminals_eq, h.preterminals_eq, List.flatMap_append, List.append_assoc]
  rules_eq τ hτ := by
    have hτ' : ∀ q ∈ b'.preterminals, τ q.1 = q.2 := fun q hq =>
      hτ q (h'.preterminals_eq ▸ List.mem_append_left _ hq)
    rw [h'.rules_eq τ hτ, h.rules_eq τ hτ', List.flatMap_append, List.append_assoc]
  length_pairs := List.forall_mem_append.mpr ⟨h.length_pairs, h'.length_pairs⟩

theorem Lays.single {part : Part} (hcounter : b'.counter = b.counter + part.minted.length)
    (hminted : part.minted = (List.range' (b.counter + 1) part.minted.length).map name)
    (hpreterminals : b'.preterminals = b.preterminals ++ part.isolated)
    (hrules : ∀ τ : Naming, (∀ q ∈ b'.preterminals, τ q.1 = q.2) →
      b'.rules = b.rules ++ part.rules τ start)
    (hlength : part.pairs.length = part.rule.right.length - 2) : Lays name start b [part] b' where
  counter_eq := by rwa [List.flatMap_singleton]
  minted_eq := by rwa [List.flatMap_singleton]
  preterminals_eq := by rwa [List.flatMap_singleton]
  rules_eq τ hτ := by
    rw [List.flatMap_singleton]
    exact hrules τ hτ
  length_pairs := List.forall_mem_singleton.mpr hlength

/-! ## One part -/

/-- What isolating the symbols of a right side adds, and what it answers. -/
theorem exists_isolateAll (name : Nat → Nonterminal) (b : Binarization) (right : List Symbol) :
    ∃ q : List (Terminal × Nonterminal),
      (b.isolateAll name right).1 =
        { counter := b.counter + q.length, preterminals := b.preterminals ++ q
          rules := b.rules ++ q.map fun p => ⟨p.2, [.terminal p.1]⟩ } ∧
      q.map Prod.snd = (List.range' (b.counter + 1) q.length).map name ∧
      ∀ τ : Naming, (∀ p ∈ b.preterminals ++ q, τ p.1 = p.2) →
        (b.isolateAll name right).2 = right.map τ.symbol := by
  induction right generalizing b with
  | nil => exact ⟨[], by simp [isolateAll], rfl, fun _ _ => rfl⟩
  | cons X right ih =>
    obtain ⟨q, hq, hnames, hright⟩ := ih (b.isolate name X).1
    have hX := isolates_isolate name b X
    rw [isolateAll_cons]
    generalize b.isolate name X = isolated at hX hq hnames hright
    cases hX with
    | nonterminal A =>
      refine ⟨q, hq, hnames, fun τ hτ => ?_⟩
      exact congrArg (A :: ·) (hright τ hτ)
    | @again a A h =>
      refine ⟨q, hq, hnames, fun τ hτ => ?_⟩
      have hA : τ a = A := hτ _ (List.mem_append_left _ h)
      rw [List.map_cons, hright τ hτ, Naming.symbol, hA]
    | @first a h =>
      refine ⟨(a, name (b.counter + 1)) :: q, ?_, ?_, fun τ hτ => ?_⟩
      · rw [hq]
        simp [withPreterminal, introduce, emit]
        omega
      · rw [List.map_cons, hnames, List.length_cons, List.range'_succ, List.map_cons]
        rfl
      · have hshift : (b.withPreterminal name a).preterminals ++ q =
            b.preterminals ++ (a, name (b.counter + 1)) :: q := List.append_assoc _ [_] q
        have ha : τ a = name (b.counter + 1) :=
          hτ (a, name (b.counter + 1)) (List.mem_append_right _ List.mem_cons_self)
        rw [List.map_cons, hright τ (hshift ▸ hτ), Naming.symbol, ha]

/-- The pairs of a split have the next numbers. -/
theorem split_eq (name : Nat → Nonterminal) (b : Binarization) (left first : Nonterminal)
    (rest : List Nonterminal) :
    b.split name left first rest =
      { b with
        counter := b.counter + (rest.length - 1)
        rules := b.rules ++ pairUp left (first :: rest)
          ((List.range' (b.counter + 1) (rest.length - 1)).map name) } := by
  fun_induction split name b left first rest with
  | case1 => rfl
  | case2 => rfl
  | case3 b first second third rest ih =>
    have hlen : (second :: third :: rest).length - 1 = rest.length + 1 := rfl
    have hlen' : (third :: rest).length - 1 = rest.length := rfl
    rw [ih, hlen, hlen', List.range'_succ, List.map_cons, pairUp_cons]
    simp [introduce, emit]
    omega

theorem addRule_eq (hk : keeps start r = false) :
    b.addRule name start r =
      { (b.isolateAll name r.right).1 with
        counter := (b.isolateAll name r.right).1.counter + (r.right.length - 2)
        rules := (b.isolateAll name r.right).1.rules ++ pairUp r.left (b.isolateAll name r.right).2
          ((List.range' ((b.isolateAll name r.right).1.counter + 1) (r.right.length - 2)).map
            name) } := by
  have hlen : (b.isolateAll name r.right).2.length = r.right.length := length_isolateAll
  rw [addRule_of_not_keeps hk, ← hlen]
  obtain ⟨b', _ | ⟨first, rest⟩⟩ := b.isolateAll name r.right
  · rfl
  · exact split_eq name b' r.left first rest

theorem exists_addRule (name : Nat → Nonterminal) (start : Nonterminal) (b : Binarization)
    (r : Rule) :
    ∃ part : Part, part.rule = r ∧ Lays name start b [part] (b.addRule name start r) := by
  cases hk : keeps start r with
  | true =>
    have hlen := length_le_one_of_keeps hk
    rw [addRule_of_keeps hk]
    refine ⟨⟨r, [], []⟩, rfl, .single rfl rfl (List.append_nil _).symm (fun τ _ => ?_) ?_⟩
    · simp [emit, Part.rules, layout, hk]
    · simp
      omega
  | false =>
    obtain ⟨q, hq, hnames, hright⟩ := exists_isolateAll name b r.right
    rw [addRule_eq hk, hq]
    -- the pairs have the numbers behind those of the terminals
    refine ⟨⟨r, q, (List.range' (b.counter + q.length + 1) (r.right.length - 2)).map name⟩, rfl,
      .single ?_ ?_ rfl (fun τ hτ => ?_) (by simp)⟩
    · simp [Part.minted]
      omega
    · have hshift : b.counter + q.length + 1 = b.counter + 1 + q.length := by omega
      simp only [Part.minted, List.length_append, List.length_map, List.length_range']
      rw [hnames, hshift, ← List.map_append, List.range'_append_1]
    · rw [Part.rules, layout, hk, hright τ hτ, ← List.append_assoc]
      rfl

theorem exists_addRules (name : Nat → Nonterminal) (start : Nonterminal) (b : Binarization)
    (rules : List Rule) :
    ∃ parts : List Part, parts.map Part.rule = rules ∧
      Lays name start b parts (b.addRules name start rules) := by
  induction rules generalizing b with
  | nil => exact ⟨[], rfl, .nil⟩
  | cons r rules ih =>
    obtain ⟨part, hrule, hpart⟩ := exists_addRule name start b r
    obtain ⟨parts, hrules, hparts⟩ := ih (b.addRule name start r)
    exact ⟨part :: parts, by rw [List.map_cons, hrule, hrules], hpart.append hparts⟩

end Binarization

/-! ## The parts of a grammar -/

namespace Grammar

open Binarization (Naming Part)

variable {g : Grammar} {a : Allocator} {τ : Naming} {parts : List Part}

/-- The parts of a binarized grammar, and the names of its terminals. -/
structure Layout (g : Grammar) (a : Allocator) (τ : Naming) (parts : List Part) : Prop where
  rule_eq : parts.map Part.rule = g.rules
  rules_eq : (g.binarizedWith a).rules = parts.flatMap (Part.rules τ g.start)
  minted_eq : parts.flatMap Part.minted = g.introduced a
  isolated_eq : ∀ part ∈ parts, ∀ q ∈ part.isolated, τ q.1 = q.2
  isolated_perm : (parts.flatMap fun part => part.isolated.map Prod.fst).Perm g.isolatedTerminals
  length_pairs : ∀ part ∈ parts, part.pairs.length = part.rule.right.length - 2

namespace Layout

variable (h : g.Layout a τ parts)

include h

theorem rule_mem {part : Part} (hpart : part ∈ parts) : part.rule ∈ g.rules := by
  rw [← h.rule_eq]
  exact List.mem_map_of_mem hpart

theorem mem_of_part {part : Part} (hpart : part ∈ parts) {s : Rule}
    (hs : s ∈ part.rules τ g.start) : s ∈ (g.binarizedWith a).rules := by
  rw [h.rules_eq]
  exact List.mem_flatMap.mpr ⟨part, hpart, hs⟩

/-- A pair belongs to a right side that is long. -/
theorem long_of_mem_pairs {part : Part} (hpart : part ∈ parts) {A : Nonterminal}
    (hA : A ∈ part.pairs) : 2 ≤ part.rule.right.length := by
  have hlength := h.length_pairs part hpart
  have hpos := List.length_pos_of_mem hA
  omega

/-- The rules for terminals may stand in front of the others. -/
theorem rules_perm : (g.binarizedWith a).rules.Perm
    (g.isolatedTerminals.map (fun c => ⟨τ c, [.terminal c]⟩) ++
      parts.flatMap fun part => Binarization.layout τ g.start part.rule part.pairs) := by
  have hisolated : parts.flatMap (fun part => part.isolated.map fun q => ⟨q.2, [.terminal q.1]⟩) =
      (parts.flatMap fun part => part.isolated.map Prod.fst).map
        fun c => (⟨τ c, [.terminal c]⟩ : Rule) := by
    rw [List.map_flatMap]
    refine List.flatMap_congr fun part hpart => ?_
    rw [List.map_map]
    refine List.map_congr_left fun q hq => ?_
    rw [← h.isolated_eq part hpart q hq]
    rfl
  rw [h.rules_eq]
  refine (List.flatMap_append_perm parts _ _).symm.trans (List.Perm.append_right _ ?_)
  rw [hisolated]
  exact h.isolated_perm.map _

/-- The new nonterminals are the names of the terminals and those of the pairs. -/
theorem minted_perm : (g.introduced a).Perm
    (g.isolatedTerminals.map τ ++ parts.flatMap Part.pairs) := by
  have hisolated : parts.flatMap (fun part => part.isolated.map Prod.snd) =
      (parts.flatMap fun part => part.isolated.map Prod.fst).map τ := by
    rw [List.map_flatMap]
    refine List.flatMap_congr fun part hpart => ?_
    rw [List.map_map]
    exact List.map_congr_left fun q hq => (h.isolated_eq part hpart q hq).symm
  rw [← h.minted_eq]
  refine (List.flatMap_append_perm parts _ _).symm.trans (List.Perm.append_right _ ?_)
  rw [hisolated]
  exact h.isolated_perm.map _

end Layout

theorem exists_naming {l : List (Terminal × Nonterminal)} (h : (l.map Prod.fst).Nodup) :
    ∃ τ : Naming, ∀ q ∈ l, τ q.1 = q.2 := by
  have hname : ∀ a, ∃ A, ∀ q ∈ l, q.1 = a → A = q.2 := by
    intro a
    by_cases ha : ∃ p ∈ l, p.1 = a
    · obtain ⟨p, hp, rfl⟩ := ha
      exact ⟨p.2, fun q hq heq => congrArg Prod.snd (List.inj_on_of_nodup_map h hp hq heq.symm)⟩
    · exact ⟨⟨""⟩, fun q hq heq => absurd ⟨q, hq, heq⟩ ha⟩
  choose τ hτ using hname
  exact ⟨τ, fun q hq => hτ q.1 q hq rfl⟩

theorem exists_layout (g : Grammar) (a : Allocator) : ∃ τ parts, g.Layout a τ parts := by
  obtain ⟨parts, hrule, hlays⟩ :=
    Binarization.exists_addRules a.numbered g.start { counter := a.counter } g.rules
  have hperm : (g.binarization a).isolated.Perm g.isolatedTerminals :=
    isolated_addRules_perm g a.numbered a.counter
  have hpreterminals : (g.binarization a).preterminals = parts.flatMap Part.isolated :=
    hlays.preterminals_eq
  have hnodup : (g.binarization a).isolated.Nodup := (counts_addRules g a.numbered a.counter).nodup
  obtain ⟨τ, hτ⟩ := exists_naming hnodup
  have hlength : (parts.flatMap Part.minted).length = g.mintCount := by
    have hcounter : (g.binarization a).counter = _ := hlays.counter_eq
    rw [counter_binarization] at hcounter
    exact (Nat.add_left_cancel hcounter).symm
  have hminted := hlays.minted_eq
  rw [hlength] at hminted
  refine ⟨τ, parts, hrule, hlays.rules_eq τ hτ, ?_, fun part hpart q hq => hτ q ?_, ?_,
    hlays.length_pairs⟩
  · rw [hminted, introduced, Allocator.mintedSince_after]
  · rw [hpreterminals]
    exact List.mem_flatMap.mpr ⟨part, hpart, hq⟩
  · rwa [Binarization.isolated, hpreterminals, List.map_flatMap] at hperm

end Grammar

end Chomsky

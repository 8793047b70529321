import Chomsky.Proofs.BinarizedRules
import Chomsky.Proofs.UsefulResult

/-!
# Replacing the new nonterminals

With each new nonterminal replaced by the right side of its rule until none is left, the rules of the old
nonterminals in a binarized grammar are the rules that there were (`binarize_settles`). The replacement
comes to an end from wherever it has got to, since a pair stands for nonterminals that come before it and
the name of a terminal for the terminal (`exists_replaced`); and it can only end in one form, since no step
changes what a form unfolds to.
-/

namespace Chomsky

/-! ## Replacement -/

section Replacement

variable {rules : List Rule} {new : List Nonterminal} {α β : List Symbol} {X : Symbol} {s : Rule}

/-- The rules of these nonterminals. -/
def rulesOf (new : List Nonterminal) (rules : List Rule) : List Rule :=
  rules.filter fun s => new.contains s.left

theorem mem_rulesOf_iff : s ∈ rulesOf new rules ↔ s ∈ rules ∧ s.left ∈ new := by
  rw [rulesOf, List.mem_filter, List.contains_iff_mem]

/-- However these nonterminals are replaced, it can go on to the second form, where none is left. -/
structure Settles (rules : List Rule) (new : List Nonterminal) (α β : List Symbol) : Prop where
  settled : ∀ X ∈ new, .nonterminal X ∉ β
  derives : ∀ γ, Derives (rulesOf new rules) α γ → Derives (rulesOf new rules) γ β

theorem Settles.derives_self (h : Settles rules new α β) : Derives (rulesOf new rules) α β :=
  h.derives α .refl

/-- A symbol that comes up in a derivation is on the right side of a rule. -/
theorem mem_of_derives (h : Derives rules α β) (hX : X ∈ β) : X ∈ α ∨ ∃ s ∈ rules, X ∈ s.right := by
  induction h with
  | refl => exact .inl hX
  | tail _ hstep ih =>
    obtain ⟨hs, before, after⟩ := hstep
    simp only [List.mem_append] at hX ih
    rcases hX with (hX | hX) | hX
    · exact ih (.inl hX)
    · exact .inr ⟨_, hs, hX⟩
    · exact ih (.inr (List.mem_cons_of_mem _ hX))

/-- Steps that a form unfolds through leave its unfolding as it is. -/
theorem Unfolding.form_eq_of_derives {E : Unfolding} (hE : ∀ s ∈ rules, E s.left = E.form s.right)
    (h : Derives rules α β) : E.form β = E.form α := by
  induction h with
  | refl => rfl
  | tail _ hstep ih =>
    rw [← ih]
    obtain ⟨hs, before, after⟩ := hstep
    rw [form_append, form_append, form_append, form_cons, Unfolding.symbol, hE _ hs,
      List.append_assoc]

end Replacement

/-- Where each item gives just one that passes, those that pass are in the order of the items. -/
theorem forall₂_filter_flatMap {α β γ : Type} {R : β → γ → Prop} {p : β → Bool} {f : α → List β}
    {g : α → γ} {l : List α} (h : ∀ a ∈ l, ∃ b, (f a).filter p = [b] ∧ R b (g a)) :
    List.Forall₂ R ((l.flatMap f).filter p) (l.map g) := by
  induction l with
  | nil => exact .nil
  | cons a l ih =>
    obtain ⟨ha, hl⟩ := List.forall_mem_cons.mp h
    obtain ⟨b, hb, hR⟩ := ha
    rw [List.flatMap_cons, List.filter_append, hb]
    exact .cons hR (ih hl)

namespace Grammar

open Binarization (Naming Part)

variable {g r : Grammar} {a : Allocator} {τ : Naming} {parts : List Part} {part : Part}
  {X A : Nonterminal} {c : Terminal} {s : Rule} {α β : List Symbol}

/-- The first rule is what is left of the second one: its right side settles at that of the second, and
if that is long, it passes through the names of all symbols. -/
structure StandsFor (rules : List Rule) (new : List Nonterminal) (τ : Naming) (s s' : Rule) : Prop where
  left_eq : s.left = s'.left
  settles : Settles rules new s.right s'.right
  isolates : 2 ≤ s'.right.length →
    Derives (rulesOf new rules) s.right (s'.right.map fun X => .nonterminal (τ.symbol X))

/-! ## Replacement comes to an end -/

/-- Some replacement of the new nonterminals leaves none. -/
def Replaceable (g : Grammar) (a : Allocator) (α : List Symbol) : Prop :=
  ∃ β, Derives (rulesOf (g.introduced a) (g.binarizedWith a).rules) α β ∧
    ∀ X ∈ g.introduced a, .nonterminal X ∉ β

theorem Replaceable.of_forall (h : ∀ A, .nonterminal A ∈ α → g.Replaceable a [.nonterminal A]) :
    g.Replaceable a α := by
  induction α with
  | nil => exact ⟨[], .refl, fun X _ => List.not_mem_nil⟩
  | cons X α ih =>
    obtain ⟨β, hβ, hβ'⟩ := ih fun A hA => h A (List.mem_cons_of_mem _ hA)
    obtain ⟨γ, hγ, hγ'⟩ : g.Replaceable a [X] := by
      cases X with
      | nonterminal A => exact h A List.mem_cons_self
      | terminal c => exact ⟨[.terminal c], .refl, fun X _ => by simp⟩
    refine ⟨γ ++ β, hγ.append hβ, fun X hX hmem => ?_⟩
    rcases List.mem_append.mp hmem with hmem | hmem
    · exact hγ' X hX hmem
    · exact hβ' X hX hmem

theorem Replaceable.of_old (hA : A ∉ g.introduced a) : g.Replaceable a [.nonterminal A] := by
  refine ⟨[.nonterminal A], .refl, fun X hX hmem => hA ?_⟩
  obtain rfl := Symbol.nonterminal.inj (List.mem_singleton.mp hmem)
  exact hX

theorem Replaceable.of_rule (hs : s ∈ (g.binarizedWith a).rules)
    (h : ∀ A, .nonterminal A ∈ s.right → g.Replaceable a [.nonterminal A]) :
    g.Replaceable a [.nonterminal s.left] := by
  by_cases hleft : s.left ∈ g.introduced a
  · obtain ⟨β, hβ, hβ'⟩ := Replaceable.of_forall h
    exact ⟨β, (Derives.of_rule (mem_rulesOf_iff.mpr ⟨hs, hleft⟩)).trans hβ, hβ'⟩
  · exact .of_old hleft

/-- The name of a terminal is a new nonterminal, and its rule one of those that replace. -/
theorem Layout.name_mem (h : g.Layout a τ parts) (hc : c ∈ g.isolatedTerminals) :
    τ c ∈ g.introduced a :=
  h.minted_perm.mem_iff.mpr (List.mem_append_left _ (List.mem_map_of_mem hc))

theorem Layout.preterminal_mem_rulesOf (h : g.Layout a τ parts) (hc : c ∈ g.isolatedTerminals) :
    ⟨τ c, [.terminal c]⟩ ∈ rulesOf (g.introduced a) (g.binarizedWith a).rules :=
  mem_rulesOf_iff.mpr ⟨h.preterminal_mem hc, h.name_mem hc⟩

theorem Layout.replaceable_terminal (h : g.Layout a τ parts) (hc : c ∈ g.isolatedTerminals) :
    g.Replaceable a [.nonterminal (τ c)] := by
  refine Replaceable.of_rule (h.preterminal_mem hc) fun A hA => ?_
  cases List.mem_singleton.mp hA

theorem Layout.replaceable_symbol (h : g.Layout a τ parts) (hg : g.Valid)
    (hfree : a.FreeNext g.symbolNames g.mintCount) (hpart : part ∈ parts)
    (hlong : 2 ≤ part.rule.right.length) (hA : A ∈ part.rule.right.map τ.symbol) :
    g.Replaceable a [.nonterminal A] := by
  obtain ⟨X, hX, rfl⟩ := List.mem_map.mp hA
  have hrule := h.rule_mem hpart
  cases X with
  | nonterminal B =>
    have hB := declares_nonterminal.mp (hg.right_declared _ hrule _ hX)
    exact .of_old fun hnew => notMem_of_introduced hfree hnew hB
  | terminal c => exact h.replaceable_terminal (mem_isolatedTerminals_iff.mpr ⟨_, hrule, hlong, hX⟩)

theorem exists_replaced (hg : g.Valid) (hfree : a.FreeNext g.symbolNames g.mintCount)
    (α : List Symbol) : g.Replaceable a α := by
  obtain ⟨τ, parts, h⟩ := exists_layout g a
  refine .of_forall fun A _ => ?_
  by_cases hA : A ∈ g.introduced a
  · rcases List.mem_append.mp (h.minted_perm.mem_iff.mp hA) with hterminal | hpair
    · obtain ⟨c, hc, rfl⟩ := List.mem_map.mp hterminal
      exact h.replaceable_terminal hc
    · obtain ⟨part, hpart, hA⟩ := List.mem_flatMap.mp hpair
      have hlong := h.long_of_mem_pairs hpart hA
      refine Binarization.forall_of_pairUp (P := fun A => g.Replaceable a [.nonterminal A])
        (fun s hs => .of_rule (h.pairUp_mem hpart (Binarization.keeps_eq_false_of_long hlong) hs))
        ?_ (fun B => h.replaceable_symbol hg hfree hpart hlong) A hA
      rw [h.length_pairs part hpart, List.length_map]
  · exact .of_old hA

/-! ## What it comes to -/

section Settles

variable {E : Unfolding} (hfree : a.FreeNext g.symbolNames g.mintCount)
  (hE : Binarization.Unfolds g a.numbered a.counter (g.binarization a) g.rules E)

include hfree hE

theorem unfolds_of_introduced (hs : s ∈ rulesOf (g.introduced a) (g.binarizedWith a).rules) :
    E s.left = E.form s.right := by
  obtain ⟨hs, hleft⟩ := mem_rulesOf_iff.mp hs
  exact hE.new_rules s hs (notMem_of_introduced hfree hleft)

theorem form_eq_of_replaced (h : Derives (rulesOf (g.introduced a) (g.binarizedWith a).rules) α β) :
    E.form β = E.form α :=
  Unfolding.form_eq_of_derives (fun _ => unfolds_of_introduced hfree hE) h

/-- The name of a terminal stands for the terminal. -/
theorem Layout.form_names (h : g.Layout a τ parts) (hpart : part ∈ parts)
    (hkeeps : Binarization.keeps g.start part.rule = false) :
    E.form ((part.rule.right.map τ.symbol).map .nonterminal) = E.form part.rule.right := by
  rw [Unfolding.form, Unfolding.form, List.map_map, List.flatMap_map]
  refine List.flatMap_congr fun X hX => ?_
  cases X with
  | nonterminal A => rfl
  | terminal c =>
    have hc : c ∈ g.isolatedTerminals := mem_isolatedTerminals_iff.mpr
      ⟨_, h.rule_mem hpart, Binarization.long_of_terminal_mem hkeeps hX, hX⟩
    exact unfolds_of_introduced hfree hE (h.preterminal_mem_rulesOf hc)

variable (hg : g.Valid)

include hg

/-- If no new nonterminal is left of a right side, it is unfolded. -/
theorem eq_form_of_replaced (hs : s ∈ (g.binarizedWith a).rules)
    (h : Derives (rulesOf (g.introduced a) (g.binarizedWith a).rules) s.right β)
    (hβ : ∀ X ∈ g.introduced a, .nonterminal X ∉ β) : β = E.form s.right := by
  have hvalid := valid_binarizedWith hg hfree
  rw [← form_eq_of_replaced hfree hE h]
  refine (Unfolding.form_eq_self fun A hA => hE.old A ?_).symm
  have hdecl : (g.binarizedWith a).declares (.nonterminal A) = true := by
    rcases mem_of_derives h hA with hright | ⟨t, ht, hright⟩
    · exact hvalid.right_declared s hs _ hright
    · exact hvalid.right_declared t (mem_rulesOf_iff.mp ht).1 _ hright
  rcases List.mem_append.mp (declares_nonterminal.mp hdecl) with hold | hnew
  · exact hold
  · exact absurd hA (hβ A hnew)

theorem settles_form (hs : s ∈ (g.binarizedWith a).rules) :
    Settles (g.binarizedWith a).rules (g.introduced a) s.right (E.form s.right) where
  settled := by
    obtain ⟨β, h, hβ⟩ := exists_replaced hg hfree s.right
    rwa [← eq_form_of_replaced hfree hE hg hs h hβ]
  derives γ hγ := by
    obtain ⟨β, h, hβ⟩ := exists_replaced hg hfree γ
    rwa [← eq_form_of_replaced hfree hE hg hs (hγ.trans h) hβ]

end Settles

/-- The last rule of a part belongs to an old nonterminal, and those in front of it to new ones. -/
theorem Layout.exists_last (h : g.Layout a τ parts) (hpart : part ∈ parts) :
    ∃ front right, part.rules τ g.start = front ++ [⟨part.rule.left, right⟩] ∧
      (∀ s ∈ front, s.left ∈ g.introduced a) ∧
      ⟨part.rule.left, right⟩ ∈ (g.binarizedWith a).rules ∧
      (Binarization.keeps g.start part.rule = true → right = part.rule.right) ∧
      (Binarization.keeps g.start part.rule = false →
        Derives (rulesOf (g.introduced a) (g.binarizedWith a).rules) right
          ((part.rule.right.map τ.symbol).map .nonterminal)) := by
  obtain ⟨front, right, heq, hleft, hkept, hderives⟩ := Part.exists_rules (h.length_pairs part hpart)
  have hmem : ∀ s ∈ front ++ [⟨part.rule.left, right⟩], s ∈ (g.binarizedWith a).rules :=
    fun s hs => h.mem_of_part hpart (heq ▸ hs)
  obtain ⟨hfront, hlast⟩ := List.forall_mem_append.mp hmem
  have hnew : ∀ s ∈ front, s.left ∈ g.introduced a := by
    intro s hs
    have hminted : s.left ∈ part.minted := hleft ▸ List.mem_map_of_mem hs
    rw [← h.minted_eq]
    exact List.mem_flatMap.mpr ⟨part, hpart, hminted⟩
  refine ⟨front, right, heq, hnew, List.forall_mem_singleton.mp hlast, hkept, fun hkeeps => ?_⟩
  exact (hderives hkeeps).mono fun s hs => mem_rulesOf_iff.mpr ⟨hfront s hs, hnew s hs⟩

/-- A part leaves one rule of an old nonterminal, and this one stands for the rule of the part. -/
theorem Layout.exists_standsFor (h : g.Layout a τ parts) (hg : g.Valid)
    (hfree : a.FreeNext g.symbolNames g.mintCount) (hpart : part ∈ parts) :
    ∃ s, (part.rules τ g.start).filter (fun s => g.nonterminals.contains s.left) = [s] ∧
      StandsFor (g.binarizedWith a).rules (g.introduced a) τ s part.rule := by
  obtain ⟨E, hE⟩ := exists_unfolds hg hfree
  obtain ⟨front, right, heq, hnew, hlast, hkept, hderives⟩ := h.exists_last hpart
  have hrule := h.rule_mem hpart
  have hform : E.form right = part.rule.right := by
    rw [← hE.form_eq hg hrule]
    cases hkeeps : Binarization.keeps g.start part.rule with
    | true => rw [hkept hkeeps]
    | false =>
      rw [← form_eq_of_replaced hfree hE (hderives hkeeps), h.form_names hfree hE hpart hkeeps]
  refine ⟨⟨part.rule.left, right⟩, ?_, rfl, ?_, fun hlong => ?_⟩
  · have hdropped : front.filter (fun s => g.nonterminals.contains s.left) = [] := by
      refine List.filter_eq_nil_iff.mpr fun s hs hold => ?_
      exact notMem_of_introduced hfree (hnew s hs) (List.contains_iff_mem.mp hold)
    rw [heq, List.filter_append, hdropped, List.nil_append, List.filter_singleton,
      List.contains_iff_mem.mpr (hg.left_declared _ hrule), cond_true]
  · rw [← hform]
    exact settles_form hfree hE hg hlast
  · have hnames := hderives (Binarization.keeps_eq_false_of_long hlong)
    rwa [List.map_map] at hnames

/-! ## The binarized grammar -/

/-- A new nonterminal with a terminal for its right side is the name of the terminal. -/
theorem Layout.eq_name_of_rule (h : g.Layout a τ parts) (hg : g.Valid)
    (hfree : a.FreeNext g.symbolNames g.mintCount) (hX : X ∈ g.introduced a)
    (hmem : ⟨X, [.terminal c]⟩ ∈ (g.binarizedWith a).rules) : X = τ c := by
  rw [h.rules_perm.mem_iff] at hmem
  rcases List.mem_append.mp hmem with hname | hlayout
  · obtain ⟨c', _, heq⟩ := List.mem_map.mp hname
    obtain ⟨rfl, hright⟩ := Rule.mk.inj heq
    obtain rfl := Symbol.terminal.inj (List.head_eq_of_cons_eq hright)
    rfl
  · exfalso
    obtain ⟨part, hpart, hs⟩ := List.mem_flatMap.mp hlayout
    cases hkeeps : Binarization.keeps g.start part.rule with
    | true =>
      rw [Binarization.layout, hkeeps, if_pos rfl] at hs
      have hleft := hg.left_declared _ (h.rule_mem hpart)
      rw [← List.mem_singleton.mp hs] at hleft
      exact notMem_of_introduced hfree hX hleft
    | false =>
      rw [Binarization.layout, hkeeps, if_neg Bool.false_ne_true] at hs
      obtain ⟨l, hl⟩ := Binarization.right_of_mem_pairUp hs
      have hc : Symbol.terminal c ∈ l.map Symbol.nonterminal := hl ▸ List.mem_singleton_self _
      obtain ⟨A, _, hA⟩ := List.mem_map.mp hc
      cases hA

theorem exists_one_rule (hg : g.Valid) (hfree : a.FreeNext g.symbolNames g.mintCount)
    (hX : X ∈ g.introduced a) :
    ∃ s, (g.binarizedWith a).rules.filter (fun s => s.left = X) = [s] := by
  have hcount := count_left_introduced hg hfree hX
  rw [List.count, List.countP_map, List.countP_eq_length_filter] at hcount
  obtain ⟨s, hs⟩ := List.length_eq_one_iff.mp hcount
  refine ⟨s, ?_⟩
  rw [← hs]
  exact List.filter_congr fun t _ => rfl

/-- What is on a right side is on one in the binarized grammar. -/
theorem exists_right_binarizedWith (hg : g.Valid) (hfree : a.FreeNext g.symbolNames g.mintCount)
    (hs : s ∈ g.rules) {Y : Symbol} (hY : Y ∈ s.right) :
    ∃ t ∈ (g.binarizedWith a).rules, Y ∈ t.right := by
  obtain ⟨τ, parts, h⟩ := exists_layout g a
  obtain ⟨part, hpart, rfl⟩ := h.exists_part hs
  obtain ⟨t, ht, hstands⟩ := h.exists_standsFor hg hfree hpart
  rcases mem_of_derives hstands.settles.derives_self hY with hright | ⟨t', ht', hright⟩
  · have hmem : t ∈ part.rules τ g.start := (List.mem_filter.mp (ht ▸ List.mem_singleton_self t)).1
    exact ⟨t, h.mem_of_part hpart hmem, hright⟩
  · exact ⟨t', (mem_rulesOf_iff.mp ht').1, hright⟩

theorem Binarizes.isInNormalForm_iff {minted : List Nonterminal} (h : g.Binarizes minted r)
    (hg : g.Valid) (hright : (∃ s ∈ g.rules, .nonterminal g.start ∈ s.right) →
      ∃ s ∈ r.rules, .nonterminal g.start ∈ s.right) :
    r.isInNormalForm = true ↔
      ¬(⟨g.start, []⟩ ∈ g.rules ∧ ∃ s ∈ g.rules, .nonterminal g.start ∈ s.right) := by
  have hepsilon : ⟨g.start, []⟩ ∈ r.rules ↔ ⟨g.start, []⟩ ∈ g.rules := by
    have hmem := congrArg (fun rules => (⟨g.start, []⟩ : Rule) ∈ rules) h.epsilon_eq
    simpa [Rule.isEpsilon] using hmem
  rw [Grammar.isInNormalForm_iff, h.start_eq, not_and, ← hepsilon]
  constructor
  · intro hform hstart hexists
    obtain ⟨t, ht, hmem⟩ := hright hexists
    rcases hform _ hstart with hlexical | hbinary | ⟨_, _, hnone⟩
    · cases hlexical
    · cases hbinary
    · exact hnone t ht hmem
  · intro hnone s hs
    refine (h.normal s hs).imp_right (Or.imp_right fun hform => ?_)
    obtain ⟨hempty, hleft⟩ := hform
    refine ⟨hempty, hleft, ?_⟩
    have hstart : ⟨g.start, []⟩ ∈ r.rules := by
      rw [← hleft, ← Rule.isEpsilon_iff.mp hempty]
      exact hs
    intro t ht hmem
    have hold := hg.left_declared _ (hepsilon.mp hstart)
    exact hnone hstart (h.right_old _ hold t ht hmem)

/-- With each new nonterminal replaced by the right side of its only rule, the rules of the old ones are
the rules that there were, in order. -/
theorem binarize_settles (hg : g.Valid) (h : (g.binarize a).2.result = .ok r) :
    ∃ minted, (g.binarize a).1.minted = a.minted ++ minted ∧
      (∀ X ∈ minted, ∃ s, r.rules.filter (fun s => s.left = X) = [s]) ∧
      (∃ τ : Naming, List.Forall₂ (StandsFor r.rules minted τ)
          (r.rules.filter fun s => g.nonterminals.contains s.left) g.rules ∧
        ∀ c, (∃ s ∈ g.rules, 2 ≤ s.right.length ∧ .terminal c ∈ s.right) →
          τ c ∈ minted ∧ ∀ X ∈ minted, ⟨X, [.terminal c]⟩ ∈ r.rules ↔ X = τ c) ∧
      (∀ s ∈ r.rules, s.isLexical = true ∨ s.isBinary = true ∨
        s.isEpsilon = true ∧ s.left = r.start) ∧
      (∀ A ∈ g.nonterminals, words r.rules A = words g.rules A) ∧
      (r.isInNormalForm = true ↔
        ¬(⟨g.start, []⟩ ∈ g.rules ∧ ∃ s ∈ g.rules, .nonterminal g.start ∈ s.right)) := by
  obtain ⟨hfree, hlater, rfl, hbinarizes⟩ := binarized_eq_ok hg h
  obtain ⟨τ, parts, hlayout⟩ := exists_layout g a
  refine ⟨g.introduced a, ?_, fun X hX => exists_one_rule hg hfree hX, ⟨τ, ?_, fun c hc => ?_⟩,
    hbinarizes.normal, fun A hA => words_binarizedWith hg hfree hA,
    hbinarizes.isInNormalForm_iff hg fun hexists => ?_⟩
  · have hminted : (g.binarize a).1 = a.after g.mintCount := hlater
    rw [hminted, introduced, Allocator.mintedSince_after]
    rfl
  · rw [hlayout.rules_eq, ← hlayout.rule_eq]
    refine forall₂_filter_flatMap fun part hpart => ?_
    rw [← hlayout.rules_eq]
    exact hlayout.exists_standsFor hg hfree hpart
  · have hc := mem_isolatedTerminals_iff.mpr hc
    refine ⟨hlayout.name_mem hc, fun X hX => ⟨hlayout.eq_name_of_rule hg hfree hX, ?_⟩⟩
    rintro rfl
    exact hlayout.preterminal_mem hc
  · obtain ⟨s, hs, hmem⟩ := hexists
    exact exists_right_binarizedWith hg hfree hs hmem

/-- A pair and two names replace the brackets, and the start symbol is left on a right side. -/
theorem binarize_settles_brackets : ∃ r, (brackets.binarize .standard).2.result = .ok r ∧
    (∃ s, r.rules.filter (fun s => s.left = ⟨"X3"⟩) = [s]) ∧
    words r.rules ⟨"S"⟩ = words brackets.rules ⟨"S"⟩ ∧ r.isInNormalForm = false := by
  obtain ⟨r, hr⟩ : ∃ r, (brackets.binarize .standard).2.result = .ok r := exists_eq_ok (by cbv)
  obtain ⟨minted, hminted, hone, _, _, hwords, hform⟩ := binarize_settles valid_brackets hr
  have hmem : ⟨"X3"⟩ ∈ minted := by
    have hlater : (brackets.binarize .standard).1.minted = [⟨"X1"⟩, ⟨"X2"⟩, ⟨"X3"⟩] := by cbv
    rw [hlater] at hminted
    have hnil : Allocator.standard.minted = [] := rfl
    rw [hnil, List.nil_append] at hminted
    rw [← hminted]
    decide
  refine ⟨r, hr, hone _ hmem, hwords _ (by decide), ?_⟩
  rw [Bool.eq_false_iff, ne_eq, hform, not_not]
  exact ⟨by decide, by decide⟩

end Grammar

end Chomsky

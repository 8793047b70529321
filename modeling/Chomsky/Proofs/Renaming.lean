import Chomsky.Proofs.BinarizationLayout
import Chomsky.Proofs.Reordering

/-!
# Binarization up to renaming

Binarizing the same rules in another order gives the same rules up to their order and the numbers of
new nonterminals. Both layouts have a part for each rule, and the renaming takes the names in a part to
those in the part of the same rule, and the name of a terminal to its other name. As many numbers are in
use as before, so it is a permutation of them, and it fixes everything else.
-/

namespace Chomsky

def Symbol.rename (σ : Nonterminal → Nonterminal) : Symbol → Symbol
  | .nonterminal A => .nonterminal (σ A)
  | .terminal a => .terminal a

def Rule.rename (σ : Nonterminal → Nonterminal) (r : Rule) : Rule :=
  ⟨σ r.left, r.right.map (Symbol.rename σ)⟩

section Rename

theorem map_eq_self {α : Type} {f : α → α} {l : List α} (h : ∀ a ∈ l, f a = a) : l.map f = l :=
  (List.map_congr_left h).trans (List.map_id' l)

variable {σ : Nonterminal → Nonterminal}

theorem Symbol.rename_injective (h : Function.Injective σ) :
    Function.Injective (Symbol.rename σ) := by
  intro X Y heq
  cases X with
  | nonterminal A =>
    cases Y with
    | nonterminal B => exact congrArg _ (h (Symbol.nonterminal.inj heq))
    | terminal b => cases heq
  | terminal a =>
    cases Y with
    | nonterminal B => cases heq
    | terminal b => exact heq

theorem Rule.rename_injective (h : Function.Injective σ) : Function.Injective (Rule.rename σ) := by
  intro r s heq
  obtain ⟨hleft, hright⟩ := Rule.mk.inj heq
  have hr : r.right = s.right :=
    List.map_injective_iff.mpr (Symbol.rename_injective h) hright
  obtain ⟨_, _⟩ := r
  obtain ⟨_, _⟩ := s
  exact congrArg₂ Rule.mk (h hleft) hr

/-- The renaming does not touch this rule. -/
structure Fixes (σ : Nonterminal → Nonterminal) (r : Rule) : Prop where
  left : σ r.left = r.left
  right : ∀ A, .nonterminal A ∈ r.right → σ A = A

theorem Fixes.rename_eq {r : Rule} (h : Fixes σ r) : r.rename σ = r := by
  have hright : r.right.map (Symbol.rename σ) = r.right := by
    refine map_eq_self fun X hX => ?_
    cases X with
    | nonterminal A => exact congrArg Symbol.nonterminal (h.right A hX)
    | terminal a => rfl
  rw [Rule.rename, h.left, hright]

end Rename

/-! ## Permutations of a list -/

/-- A list is taken to any permutation of it by some renaming of its elements. -/
theorem exists_perm_of_perm {α : Type} [DecidableEq α] {l l' : List α} (h : l.Perm l')
    (hl : l.Nodup) : ∃ σ : Equiv.Perm α, l.map σ = l' ∧ ∀ a ∉ l, σ a = a := by
  induction h with
  | nil => exact ⟨Equiv.refl α, rfl, fun _ _ => rfl⟩
  | cons a _ ih =>
    obtain ⟨ha, hl⟩ := List.nodup_cons.mp hl
    obtain ⟨σ, hmap, hfix⟩ := ih hl
    refine ⟨σ, by rw [List.map_cons, hfix a ha, hmap], fun b hb => hfix b fun h => ?_⟩
    exact hb (List.mem_cons_of_mem _ h)
  | swap a b l =>
    obtain ⟨hb, ha, _⟩ : b ∉ a :: l ∧ a ∉ l ∧ l.Nodup := by
      simpa only [List.nodup_cons] using hl
    have hfix : ∀ c, c ≠ b → c ≠ a → Equiv.swap b a c = c := fun c =>
      Equiv.swap_apply_of_ne_of_ne
    refine ⟨Equiv.swap b a, ?_, fun c hc => hfix c (fun h => ?_) fun h => ?_⟩
    · rw [List.map_cons, List.map_cons, Equiv.swap_apply_left, Equiv.swap_apply_right]
      refine congrArg (a :: b :: ·) (map_eq_self fun c hc => ?_)
      exact hfix c (fun h => hb (h ▸ List.mem_cons_of_mem _ hc)) fun h => ha (h ▸ hc)
    · exact hc (h ▸ List.mem_cons_self)
    · exact hc (h ▸ List.mem_cons_of_mem _ List.mem_cons_self)
  | trans h₁ _ ih₁ ih₂ =>
    obtain ⟨σ, hmap, hfix⟩ := ih₁ hl
    obtain ⟨σ', hmap', hfix'⟩ := ih₂ (h₁.nodup_iff.mp hl)
    refine ⟨σ.trans σ', ?_, fun a ha => ?_⟩
    · rw [← hmap', ← hmap, List.map_map]
      rfl
    · show σ' (σ a) = a
      rw [hfix a ha, hfix' a fun h => ha (h₁.mem_iff.mpr h)]

/-- Lists with the same values up to order can be brought into the same order. -/
theorem exists_perm_forall₂ {α β : Type} {f : α → β} {l l' : List α}
    (h : (l.map f).Perm (l'.map f)) :
    ∃ m, List.Forall₂ (fun a b => f b = f a) l m ∧ m.Perm l' := by
  have hsame : List.Forall₂ (fun c b => f b = c) (l'.map f) l' :=
    List.forall₂_map_left_iff.mpr (List.forall₂_same.mpr fun _ _ => rfl)
  obtain ⟨m, hm, hperm⟩ := List.perm_comp_forall₂ h hsame
  exact ⟨m, List.forall₂_map_left_iff.mp hm, hperm⟩

theorem eraseDups_map_perm {α β : Type} [BEq α] [LawfulBEq α] [BEq β] [LawfulBEq β] {f : α → β}
    (hf : Function.Injective f) {l : List α} {l' : List β} (h : (l.map f).Perm l') :
    (l.eraseDups.map f).Perm l'.eraseDups := by
  have hnodup := (nodup_eraseDups l).map hf
  refine (List.perm_ext_iff_of_nodup hnodup (nodup_eraseDups l')).mpr fun b => ?_
  rw [List.mem_eraseDups, ← h.mem_iff, List.mem_map, List.mem_map]
  simp only [List.mem_eraseDups]

/-! ## The rules of a part -/

namespace Binarization

variable {σ : Nonterminal → Nonterminal} {τ τ' : Naming} {start : Nonterminal} {r : Rule}

theorem pairUp_rename (left : Nonterminal) (nonterminals names : List Nonterminal) :
    (pairUp left nonterminals names).map (Rule.rename σ) =
      pairUp (σ left) (nonterminals.map σ) (names.map σ) := by
  induction names generalizing nonterminals with
  | nil =>
    have hright : (nonterminals.map Symbol.nonterminal).map (Symbol.rename σ) =
        (nonterminals.map σ).map Symbol.nonterminal := by
      rw [List.map_map, List.map_map]
      rfl
    rw [List.map_nil, pairUp_nil, pairUp_nil, List.map_singleton, Rule.rename, hright]
  | cons X names ih =>
    rcases nonterminals with _ | ⟨first, _ | ⟨second, _ | ⟨third, rest⟩⟩⟩
    · rfl
    · rfl
    · rfl
    · rw [pairUp_cons, List.map_cons, ih]
      rfl

theorem layout_rename (hfix : Fixes σ r)
    (hτ : keeps start r = false → ∀ c, .terminal c ∈ r.right → σ (τ c) = τ' c)
    (pairs : List Nonterminal) :
    (layout τ start r pairs).map (Rule.rename σ) = layout τ' start r (pairs.map σ) := by
  rw [layout, layout]
  cases hkeeps : keeps start r with
  | true => exact congrArg (fun s => [s]) hfix.rename_eq
  | false =>
    have hsymbols : (r.right.map τ.symbol).map σ = r.right.map τ'.symbol := by
      rw [List.map_map]
      refine List.map_congr_left fun X hX => ?_
      cases X with
      | nonterminal A => exact hfix.right A hX
      | terminal c => exact hτ hkeeps c hX
    have hpairs := pairUp_rename (σ := σ) r.left (r.right.map τ.symbol) pairs
    rw [hfix.left, hsymbols] at hpairs
    exact hpairs

/-- The names of the terminals and pairs on one side become those on the other side. -/
structure Matches (σ : Nonterminal → Nonterminal) (terminals : List Terminal) (τ τ' : Naming)
    (parts parts' : List Part) : Prop where
  naming : ∀ c ∈ terminals, σ (τ c) = τ' c
  parts : List.Forall₂ (fun part part' => part'.rule = part.rule ∧ part'.pairs = part.pairs.map σ)
    parts parts'

/-- It is enough to compare all names in a row. -/
theorem Matches.of_map_eq {terminals : List Terminal} {parts parts' : List Part}
    (hrule : List.Forall₂ (fun part part' => part'.rule = part.rule) parts parts')
    (hlength : ∀ part ∈ parts, part.pairs.length = part.rule.right.length - 2)
    (hlength' : ∀ part ∈ parts', part.pairs.length = part.rule.right.length - 2)
    (h : (terminals.map τ ++ parts.flatMap Part.pairs).map σ =
      terminals.map τ' ++ parts'.flatMap Part.pairs) :
    Matches σ terminals τ τ' parts parts' := by
  rw [List.map_append, List.map_map] at h
  obtain ⟨hterminals, hpairs⟩ := List.append_inj h (by simp)
  refine ⟨fun c hc => List.map_inj_left.mp hterminals c hc, ?_⟩
  clear h hterminals
  induction hrule with
  | nil => exact .nil
  | @cons part part' parts parts' hrule _ ih =>
    obtain ⟨hpart, hparts⟩ := List.forall_mem_cons.mp hlength
    obtain ⟨hpart', hparts'⟩ := List.forall_mem_cons.mp hlength'
    rw [List.flatMap_cons, List.flatMap_cons, List.map_append] at hpairs
    have hsame : (part.pairs.map σ).length = part'.pairs.length := by
      rw [List.length_map, hpart, hpart', hrule]
    obtain ⟨hfirst, hrest⟩ := List.append_inj hpairs hsame
    exact .cons ⟨hrule, hfirst.symm⟩ (ih hparts hparts' hrest)

theorem Matches.flatMap_layout {terminals : List Terminal} {parts parts' : List Part}
    (h : Matches σ terminals τ τ' parts parts')
    (hlayout : ∀ part ∈ parts, (layout τ start part.rule part.pairs).map (Rule.rename σ) =
      layout τ' start part.rule (part.pairs.map σ)) :
    (parts.flatMap fun part => layout τ start part.rule part.pairs).map (Rule.rename σ) =
      parts'.flatMap fun part => layout τ' start part.rule part.pairs := by
  have hparts := h.parts
  clear h
  induction hparts with
  | nil => rfl
  | cons hpart _ ih =>
    obtain ⟨hfirst, hrest⟩ := List.forall_mem_cons.mp hlayout
    rw [List.flatMap_cons, List.flatMap_cons, List.map_append, hfirst, ih hrest, hpart.1, hpart.2]

end Binarization

/-! ## Binarized grammars -/

namespace Grammar

open Binarization (Naming Part Matches)

variable {g g' r r' : Grammar} {a : Allocator} {τ τ' : Naming} {parts parts' : List Part}
  {minted : List Nonterminal} {σ : Equiv.Perm Nonterminal}

/-- The same grammar but for the order of the rules and the names of these nonterminals. -/
structure RenamesTo (g : Grammar) (minted : List Nonterminal) (σ : Equiv.Perm Nonterminal)
    (g' : Grammar) : Prop where
  start_eq : g'.start = g.start
  start_fixed : σ g.start = g.start
  terminals_eq : g'.terminals = g.terminals
  fixed : ∀ A ∉ minted, σ A = A
  minted_perm : (minted.map σ).Perm minted
  nonterminals_perm : (g.nonterminals.map σ).Perm g'.nonterminals
  rules_perm : (g.rules.map (Rule.rename σ)).Perm g'.rules

theorem Reorders.introduced_eq (h : g.Reorders g') : g'.introduced a = g.introduced a := by
  rw [introduced, introduced, h.mintCount_eq]

/-- The names of one layout can be taken to those of the other. -/
theorem Layout.exists_matches (hlayout : g.Layout a τ parts) (hlayout' : g'.Layout a τ' parts')
    (h : g.Reorders g') : ∃ (σ : Equiv.Perm Nonterminal) (m : List Part), m.Perm parts' ∧
      Matches σ g.isolatedTerminals τ τ' parts m ∧
      ((g.introduced a).map σ).Perm (g.introduced a) ∧ ∀ A ∉ g.introduced a, σ A = A := by
  have hrules : (parts.map Part.rule).Perm (parts'.map Part.rule) := by
    rw [hlayout.rule_eq, hlayout'.rule_eq]
    exact h.rules_perm
  obtain ⟨m, hm, hperm⟩ := exists_perm_forall₂ hrules
  have hnames := hlayout.minted_perm
  have hnames' : (g.introduced a).Perm (g.isolatedTerminals.map τ' ++ m.flatMap Part.pairs) := by
    rw [← h.introduced_eq]
    refine hlayout'.minted_perm.trans ?_
    exact (h.isolatedTerminals_perm.symm.map τ').append (hperm.symm.flatMap fun _ _ => .refl _)
  have hnodup := hnames.nodup_iff.mp Allocator.nodup_mintedSince_after
  obtain ⟨σ, hmap, hfix⟩ := exists_perm_of_perm (hnames.symm.trans hnames') hnodup
  refine ⟨σ, m, hperm, .of_map_eq hm hlayout.length_pairs (fun part hpart => ?_) hmap, ?_,
    fun A hA => hfix A fun hmem => hA (hnames.mem_iff.mpr hmem)⟩
  · exact hlayout'.length_pairs part (hperm.mem_iff.mp hpart)
  · refine (hnames.map σ).trans ?_
    rw [hmap]
    exact hnames'.symm

/-- Binarization takes reordered grammars to renamed ones. -/
theorem Reorders.binarizedWith (h : g.Reorders g') (hg : g.Valid)
    (haccept : ∀ s ∈ g.rules, Binarization.accepts g.start s = true)
    (hfree : a.FreeNext g.symbolNames g.mintCount) :
    ∃ σ, (g.binarizedWith a).RenamesTo (g.introduced a) σ (g'.binarizedWith a) := by
  obtain ⟨τ, parts, hlayout⟩ := exists_layout g a
  obtain ⟨τ', parts', hlayout'⟩ := exists_layout g' a
  obtain ⟨σ, m, hperm, hmatches, hminted, hfixed⟩ := hlayout.exists_matches hlayout' h
  have hold : ∀ A ∈ g.nonterminals, σ A = A := by
    intro A hA
    refine hfixed A fun hnew => ?_
    obtain ⟨i, hi, hn, rfl⟩ := Allocator.mem_mintedSince_after.mp hnew
    exact notMem_of_fresh (hfree i hi hn).1 hA
  have hlayouts : ∀ part ∈ parts,
      (Binarization.layout τ g.start part.rule part.pairs).map (Rule.rename σ) =
        Binarization.layout τ' g.start part.rule (part.pairs.map σ) := by
    intro part hpart
    have hrule := hlayout.rule_mem hpart
    refine Binarization.layout_rename ⟨hold _ (hg.left_declared _ hrule), fun A hA => ?_⟩
      (fun hkeeps c hc => ?_) part.pairs
    · exact hold A (declares_nonterminal.mp (hg.right_declared _ hrule _ hA))
    · have hlong : 2 ≤ part.rule.right.length :=
        (Binarization.accepts_iff.mp (haccept _ hrule)).resolve_left (by simp [hkeeps])
      exact hmatches.naming c (mem_isolatedTerminals_iff.mpr ⟨_, hrule, hlong, hc⟩)
  have hterminals : (g.isolatedTerminals.map fun c => (⟨τ c, [.terminal c]⟩ : Rule)).map
      (Rule.rename σ) = g.isolatedTerminals.map fun c => ⟨τ' c, [.terminal c]⟩ := by
    rw [List.map_map]
    refine List.map_congr_left fun c hc => ?_
    rw [← hmatches.naming c hc]
    rfl
  refine ⟨σ, h.start_eq, ?_, h.terminals_eq, hfixed, hminted, ?_, ?_⟩
  · refine hg.start_declared.elim (fun he => hfixed _ ?_) (hold _)
    rw [introduced_of_isEmpty he]
    exact List.not_mem_nil
  · show ((g.nonterminals ++ g.introduced a).map σ).Perm (g'.nonterminals ++ g'.introduced a)
    rw [h.nonterminals_eq, h.introduced_eq, List.map_append, map_eq_self hold]
    exact hminted.append_left _
  · have hfirst := hlayout.rules_perm.map (Rule.rename σ)
    rw [List.map_append, hterminals, hmatches.flatMap_layout hlayouts] at hfirst
    have hsecond := hlayout'.rules_perm
    rw [h.start_eq] at hsecond
    refine hfirst.trans (List.Perm.trans ?_ hsecond.symm)
    exact (h.isolatedTerminals_perm.map _).append (hperm.flatMap fun _ _ => .refl _)

/-- More nonterminals may be named, if they are not renamed. -/
theorem RenamesTo.extend (h : g.RenamesTo minted σ g') {more : List Nonterminal}
    (hmore : ∀ A ∈ more, A ∉ minted) : g.RenamesTo (more ++ minted) σ g' where
  start_eq := h.start_eq
  start_fixed := h.start_fixed
  terminals_eq := h.terminals_eq
  fixed A hA := h.fixed A fun hmem => hA (List.mem_append_right _ hmem)
  minted_perm := by
    rw [List.map_append, map_eq_self fun A hA => h.fixed A (hmore A hA)]
    exact h.minted_perm.append_left _
  nonterminals_perm := h.nonterminals_perm
  rules_perm := h.rules_perm

theorem RenamesTo.uniqueIf (h : g.RenamesTo minted σ g') {wanted : Bool}
    (hr : g.uniqueIf wanted = .ok r) (hr' : g'.uniqueIf wanted = .ok r') :
    r.RenamesTo minted σ r' := by
  rw [eq_of_uniqueIf hr, eq_of_uniqueIf hr']
  refine ⟨h.start_eq, h.start_fixed, h.terminals_eq, h.fixed, h.minted_perm, h.nonterminals_perm, ?_⟩
  cases wanted with
  | false => exact h.rules_perm
  | true => exact eraseDups_map_perm (Rule.rename_injective σ.injective) h.rules_perm

end Grammar

end Chomsky

import Chomsky.Proofs.Settled
import Chomsky.Proofs.UsefulResult

/-!
# Normalizing twice

What normalization answers is settled with the configuration that it was made with, so normalizing it
once more changes nothing. Most of this is what the phases promise anyway; that the epsilon rule stands
in front is followed through the phases here, and so is a limit that no symbols at all can keep.
-/

namespace Chomsky

/-! ## The epsilon rule in front -/

/-- Rules that are put behind, without epsilon rules among them, do no harm. -/
theorem EpsilonFirst.append {front rules : List Rule} (h : EpsilonFirst front)
    (hrules : rules.filter Rule.isEpsilon = []) : EpsilonFirst (front ++ rules) := by
  have hnone : ∀ t ∈ rules, ¬t.isEpsilon = true := List.filter_eq_nil_iff.mp hrules
  refine List.pairwise_append.mpr ⟨h, ?_, fun s _ t ht hepsilon => absurd hepsilon (hnone t ht)⟩
  exact List.pairwise_of_forall_mem_list fun s _ t ht hepsilon => absurd hepsilon (hnone t ht)

theorem epsilonFirst_filter (rules : List Rule) : EpsilonFirst (rules.filter Rule.isEpsilon) :=
  List.pairwise_of_forall_mem_list fun _ hs _ _ _ => .inl (List.mem_filter.mp hs).2

namespace Grammar

variable {g r p : Grammar} {config : Config} {options : EpsilonOptions} {new : Augmentation}
  {a : Allocator} {b : Prop}

theorem Augments.epsilonFirst (h : g.Augments options new) :
    EpsilonFirst (g.expandedWith new).rules := by
  have hnew : EpsilonFirst new.rules := by
    cases h with
    | lost => exact List.Pairwise.nil
    | kept => exact List.pairwise_singleton _ _
    | renewed => exact List.pairwise_pair.mpr fun _ => .inr rfl
  exact hnew.append filter_isEpsilon_expandedRules

theorem UnaryCopies.epsilonFirst {copies : List Rule} (h : g.UnaryCopies copies)
    (hempty : g.EmptyAtStart b) (hfirst : EpsilonFirst g.rules) :
    EpsilonFirst (g.properRules ++ copies) := by
  have hproper : EpsilonFirst g.properRules := hfirst.sublist List.filter_sublist
  exact hproper.append (h.filter_isEpsilon hempty)

/-- Binarization begins with the epsilon rule and leaves it alone. -/
theorem epsilonFirst_binarizedWith (hempty : g.EmptyAtStart b) (hfirst : EpsilonFirst g.rules)
    (hunary : ∀ s ∈ g.rules, s.isUnary = false) : EpsilonFirst (g.binarizedWith a).rules := by
  have hnormal : ∀ s ∈ g.rules.filter Rule.isEpsilon, Binarization.Normal g.start s := by
    intro s hs
    obtain ⟨hs, hepsilon⟩ := List.mem_filter.mp hs
    obtain ⟨_, rfl⟩ := hempty.eq_of_isEpsilon hs hepsilon
    exact .inr (.inr ⟨rfl, rfl⟩)
  have haccepted : ∀ s ∈ g.rules.filter fun s => !s.isEpsilon,
      Binarization.accepts g.start s = true := fun s hs =>
    hempty.accepted hunary (List.mem_filter.mp hs).1
  obtain ⟨l, hl, _, hepsilon⟩ := Binarization.rules_addRules a.numbered
    { counter := a.counter, rules := g.rules.filter Rule.isEpsilon } haccepted
  have hrules : (g.binarizedWith a).rules = g.rules.filter Rule.isEpsilon ++ l := by
    rw [← hl, binarizedWith, binarization]
    conv_lhs => rw [← hfirst.filter_append hunary]
    rw [Binarization.addRules, List.foldl_append]
    exact congrArg (fun b => (Binarization.addRules a.numbered g.start b _).rules)
      (Binarization.addRules_of_normal hnormal)
  rw [hrules]
  refine (epsilonFirst_filter g.rules).append ?_
  rw [hepsilon, List.filter_filter]
  simp

/-! ## The limit and the words -/

theorem Augments.exists_right (h : g.Augments options new) {s : Rule}
    (hs : s ∈ (g.expandedWith new).rules) (hright : s.right ≠ []) :
    ∃ s' ∈ g.rules, s'.right ≠ [] := by
  rcases List.mem_append.mp hs with hs | hs
  · cases h with
    | lost => exact absurd hs List.not_mem_nil
    | kept =>
      obtain rfl := List.mem_singleton.mp hs
      exact absurd rfl hright
    | renewed _ _ hrecurs =>
      obtain ⟨s', hs', hmem⟩ := hrecurs
      exact ⟨s', hs', List.ne_nil_of_mem hmem⟩
  · obtain ⟨_, s', hs', _, homits⟩ := mem_expandedRules_iff.mp hs
    refine ⟨s', hs', fun hnil => hright ?_⟩
    have hsub := homits.sublist
    rw [hnil] at hsub
    exact List.sublist_nil.mp hsub

theorem NormalizesTo.keepsNoWord_iff (h : g.NormalizesTo options r) :
    r.KeepsNoWord options ↔ g.KeepsNoWord options := by
  rw [KeepsNoWord, KeepsNoWord]
  simp only [h.mem_language_iff]
  split
  · next haug => simp [haug]
  · next haug => simp [haug]

theorem NormalizesTo.emptyAtStart_self (h : g.NormalizesTo options r) :
    r.EmptyAtStart (options.augmentStart = true ∧ [] ∈ r.language) := by
  have hiff : (options.augmentStart = true ∧ [] ∈ r.language) ↔
      options.augmentStart = true ∧ [] ∈ g.language := by
    rw [h.mem_language_iff]
    tauto
  rw [propext hiff]
  exact h.emptyAtStart

theorem EmptyAtStart.emptyPositions_eq (h : g.EmptyAtStart b) {s : Rule} (hs : s ∈ g.rules) :
    g.emptyPositions s.right = 0 := by
  rw [emptyPositions, List.countP_eq_zero]
  intro X hX
  simpa using h.not_derivesEmpty hs hX

namespace Stages

variable {hstem : config.stem ≠ ""} (h : g.Stages config hstem new p r)

include h

theorem left_not_unary {s : Rule} (hs : s ∈ p.rules) : s.isUnary = false := by
  obtain ⟨u, copies, htrims⟩ := h.exists_trims
  exact ((htrims.unary.mem_iff s).mp (htrims.prunes_useful.rules_sublist.subset hs)).1

theorem left_epsilonFirst : EpsilonFirst p.rules := by
  obtain ⟨u, copies, htrims⟩ := h.exists_trims
  have hexpanded := h.augments.emptyAtStart h.valid
  have hu : EpsilonFirst u.rules := h.augments.epsilonFirst.sublist htrims.prunes_unique.rules_sublist
  have hcopies := htrims.unary.epsilonFirst (htrims.prunes_unique.emptyAtStart hexpanded) hu
  exact hcopies.sublist htrims.prunes_useful.rules_sublist

theorem epsilonFirst : EpsilonFirst r.rules := by
  have hbinarized := epsilonFirst_binarizedWith (a := new.allocator config.stem hstem)
    h.reduces.emptyAtStart h.left_epsilonFirst fun s => h.left_not_unary
  exact hbinarized.sublist (uniqueIf_sublist h.finished)

/-- If no rule has anything on its right side, none ever will. -/
theorem exists_right {s : Rule} (hs : s ∈ r.rules) (hright : s.right ≠ []) :
    ∃ s' ∈ g.rules, s'.right ≠ [] := by
  by_contra hnone
  push Not at hnone
  have hleft : ∀ t ∈ p.rules, t.right = [] := by
    intro t ht
    by_contra htright
    obtain ⟨u, copies, htrims⟩ := h.exists_trims
    obtain ⟨_, B, _, hB⟩ := (htrims.unary.mem_iff t).mp (htrims.prunes_useful.rules_sublist.subset ht)
    obtain ⟨s', hs', hne⟩ := h.augments.exists_right (htrims.prunes_unique.rules_sublist.subset hB)
      htright
    exact hne (hnone s' hs')
  have hnormal : ∀ t ∈ p.rules, Binarization.Normal p.start t := by
    intro t ht
    obtain ⟨_, rfl⟩ := h.reduces.emptyAtStart.eq_of_isEpsilon ht (Rule.isEpsilon_iff.mpr (hleft t ht))
    exact .inr (.inr ⟨rfl, rfl⟩)
  have hfinished := h.finished
  rw [binarizedWith_of_normal hnormal] at hfinished
  exact hright (hleft s ((mem_of_uniqueIf hfinished).mp hs))

theorem limit_kept (hr : g.NormalizesTo config.epsilon r) : ¬r.ExceedsLimit config.epsilon := by
  intro hover
  obtain ⟨limit, hlimit, s, hs, hright, hlt⟩ := hover
  rw [hr.emptyAtStart.emptyPositions_eq hs] at hlt
  -- no rule of the grammar can have kept a limit below zero
  obtain ⟨s', hs', hright'⟩ := h.exists_right hs hright
  exact h.limit ⟨limit, hlimit, s', hs', hright', by omega⟩

theorem settled (hr : g.NormalizesTo config.epsilon r) : r.Settled config where
  valid := hr.valid
  limit := h.limit_kept hr
  kept := by
    rw [hr.keepsNoWord_iff]
    exact h.kept
  emptyAtStart := hr.emptyAtStart_self
  epsilonFirst := h.epsilonFirst
  normal := hr.normal
  nodup hwanted := by
    rw [eq_of_uniqueIf h.finished, hwanted]
    exact nodup_eraseDups _
  useful := h.allUseful

end Stages

/-! ## Idempotence -/

/-- Normalizing the result once more answers the same grammar, and nothing is introduced. -/
theorem normalize_idempotent (h : (g.normalize config).result = .ok r) :
    (r.normalize config).result = .ok r ∧ (r.normalize config).introduced = [] := by
  obtain ⟨hstem, new, p, hstages⟩ := stages_of_ok h
  exact (hstages.settled (normalizesTo_of_ok h)).normalize_eq hstem

theorem normalize_idempotent_brackets : ∃ r, (brackets.normalize keepingEmpty).result = .ok r ∧
    (r.normalize keepingEmpty).result = .ok r ∧ (r.normalize keepingEmpty).introduced = [] := by
  obtain ⟨r, hr⟩ := exists_normalize_brackets
  exact ⟨r, hr, normalize_idempotent hr⟩

end Grammar

end Chomsky

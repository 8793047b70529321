import Chomsky.Proofs.BinarizationSteps
import Chomsky.Proofs.Derivation
import Chomsky.Proofs.Validity

/-!
# Unfolding binarized rules

Every nonterminal that binarization introduces stands for some symbols of the grammar. With these put
in its place wherever it occurs, the rules of the old nonterminals are those of the grammar again, in
order. `Unfolds` is the invariant that says so while binarization goes on. It holds after each of its
steps, and what has been binarized has the words of what there was (`Unfolds.words_eq`).
-/

namespace Chomsky

/-- What each nonterminal stands for. -/
abbrev Unfolding := Nonterminal → List Symbol

namespace Unfolding

def symbol (E : Unfolding) : Symbol → List Symbol
  | .nonterminal A => E A
  | .terminal a => [.terminal a]

def form (E : Unfolding) (α : List Symbol) : List Symbol := α.flatMap E.symbol

variable {E E' : Unfolding} {α β : List Symbol}

@[simp] theorem form_nil : E.form [] = [] := rfl

@[simp] theorem form_cons (X : Symbol) : E.form (X :: α) = E.symbol X ++ E.form α := List.flatMap_cons

@[simp] theorem form_append : E.form (α ++ β) = E.form α ++ E.form β := List.flatMap_append

theorem form_congr (h : ∀ X ∈ α, E.symbol X = E'.symbol X) : E.form α = E'.form α :=
  List.flatMap_congr h

/-- Nothing happens to symbols that stand for themselves. -/
theorem form_eq_self (h : ∀ A, .nonterminal A ∈ α → E A = [.nonterminal A]) : E.form α = α := by
  have hone : ∀ X ∈ α, E.symbol X = [X] := by
    intro X hX
    cases X with
    | nonterminal A => exact h A hX
    | terminal a => rfl
  rw [form, List.flatMap_congr hone, List.flatMap_singleton']

end Unfolding

/-- A nonterminal is read as what it stands for. -/
def Reading.through (I : Reading) (E : Unfolding) : Reading := fun A => I.form (E A)

theorem Reading.form_through {I : Reading} {E : Unfolding} (α : List Symbol) :
    (I.through E).form α = I.form (E.form α) := by
  induction α with
  | nil => rfl
  | cons X α ih =>
    rw [form_cons, Unfolding.form_cons, form_append, ih]
    cases X with
    | nonterminal A => rfl
    | terminal a => rw [symbol_terminal, Unfolding.symbol, form_singleton, symbol_terminal]

namespace Binarization

/-- The numbers after `c`, up to `N`, give different nonterminals that the grammar does not have. -/
structure Fresh (g : Grammar) (name : Nat → Nonterminal) (c N : Nat) : Prop where
  valid : g.Valid
  injective : Function.Injective name
  notMem : ∀ i, c < i → i ≤ N → name i ∉ g.nonterminals

section Unfolds

variable (g : Grammar) (name : Nat → Nonterminal) (c : Nat)

/-- The nonterminal has one of the numbers used since `c`. -/
def Minted (b : Binarization) (A : Nonterminal) : Prop := ∃ i, c < i ∧ i ≤ b.counter ∧ name i = A

/-- The symbol is on a right side in the grammar or is a nonterminal introduced since. -/
def Known (b : Binarization) (X : Symbol) : Prop :=
  (∃ r ∈ g.rules, X ∈ r.right) ∨ ∃ A, Minted name c b A ∧ X = .nonterminal A

/-- The rules so far come from the rules `done`: once unfolded, they are those. -/
structure Unfolds (b : Binarization) (done : List Rule) (E : Unfolding) : Prop where
  counter_le : c ≤ b.counter
  left_known : ∀ r ∈ b.rules, r.left ∈ g.nonterminals ∨ Minted name c b r.left
  right_known : ∀ r ∈ b.rules, ∀ X ∈ r.right, Known g name c b X
  preterminal : ∀ p ∈ b.preterminals, Minted name c b p.2 ∧ E p.2 = [.terminal p.1]
  old : ∀ A ∈ g.nonterminals, E A = [.nonterminal A]
  new_rules : ∀ r ∈ b.rules, r.left ∉ g.nonterminals → E r.left = E.form r.right
  old_rules : (b.rules.filter fun r => g.nonterminals.contains r.left).map
    (fun r => ⟨r.left, E.form r.right⟩) = done
  /-- Whatever the rules allow, they allow for a nonterminal what they do for its unfolding. -/
  form_le : ∀ J : Reading, J.Closed b.rules → ∀ A, J.form (E A) ≤ J A

/-- Nothing changes for the symbols that are known already. -/
def Agrees (b : Binarization) (E E' : Unfolding) : Prop :=
  ∀ X, Known g name c b X → E'.symbol X = E.symbol X

end Unfolds

variable {g : Grammar} {name : Nat → Nonterminal} {c N : Nat} {b b' : Binarization}
  {done : List Rule} {E E' E'' : Unfolding} {A : Nonterminal} {X : Symbol} {right : List Symbol}

theorem Minted.mono (h : Minted name c b A) (hle : b.counter ≤ b'.counter) :
    Minted name c b' A := by
  obtain ⟨i, hi, hb, hA⟩ := h
  exact ⟨i, hi, hb.trans hle, hA⟩

theorem Minted.known (h : Minted name c b A) : Known g name c b (.nonterminal A) := .inr ⟨A, h, rfl⟩

theorem Known.mono (h : Known g name c b X) (hle : b.counter ≤ b'.counter) :
    Known g name c b' X := by
  rcases h with h | ⟨A, hA, hX⟩
  · exact .inl h
  · exact .inr ⟨A, hA.mono hle, hX⟩

theorem Agrees.refl : Agrees g name c b E E := fun _ _ => rfl

theorem Agrees.trans (h : Agrees g name c b E E') (h' : Agrees g name c b' E' E'')
    (hle : b.counter ≤ b'.counter) : Agrees g name c b E E'' :=
  fun X hX => (h' X (hX.mono hle)).trans (h X hX)

theorem Agrees.form_eq (h : Agrees g name c b E E') (hright : ∀ X ∈ right, Known g name c b X) :
    E'.form right = E.form right := Unfolding.form_congr fun X hX => h X (hright X hX)

/-- A nonterminal that is introduced now is not one of those before. -/
theorem Fresh.minted_ne (hf : Fresh g name c N) (h : Minted name c b A) :
    A ≠ name (b.counter + 1) := by
  obtain ⟨i, hi, hb, rfl⟩ := h
  intro heq
  have := hf.injective heq
  omega

theorem Fresh.known_ne (hf : Fresh g name c N) (hc : c ≤ b.counter) (hN : b.counter + 1 ≤ N)
    (h : Known g name c b X) : X ≠ .nonterminal (name (b.counter + 1)) := by
  rcases h with ⟨r, hr, hX⟩ | ⟨A, hA, rfl⟩
  · rintro rfl
    have hdecl := Grammar.declares_nonterminal.mp (hf.valid.right_declared r hr _ hX)
    exact hf.notMem _ (by omega) hN hdecl
  · intro heq
    exact hf.minted_ne hA (Symbol.nonterminal.inj heq)

namespace Unfolds

theorem initial (hc : b.counter = c) (hpre : b.preterminals = []) (hrules : b.rules = []) :
    Unfolds g name c b [] fun A => [.nonterminal A] where
  counter_le := hc.ge
  left_known := by simp [hrules]
  right_known := by simp [hrules]
  preterminal := by simp [hpre]
  old _ _ := rfl
  new_rules := by simp [hrules]
  old_rules := by simp [hrules]
  form_le J _ A := by rw [Reading.form_singleton]; exact le_refl _

theorem form_form_le (h : Unfolds g name c b done E) {J : Reading} (hJ : J.Closed b.rules)
    (right : List Symbol) : J.form (E.form right) ≤ J.form right := by
  rw [← Reading.form_through]
  exact Reading.form_mono fun A _ => h.form_le J hJ A

theorem emit (h : Unfolds g name c b done E) {r : Rule} (hleft : r.left ∈ g.nonterminals)
    (hright : ∀ X ∈ r.right, Known g name c b X) :
    Unfolds g name c (b.emit r) (done ++ [⟨r.left, E.form r.right⟩]) E where
  counter_le := h.counter_le
  left_known := forall_mem_emit.mpr ⟨h.left_known, .inl hleft⟩
  right_known := forall_mem_emit.mpr ⟨h.right_known, hright⟩
  preterminal := h.preterminal
  old := h.old
  new_rules := forall_mem_emit.mpr ⟨h.new_rules, fun hnot => absurd hleft hnot⟩
  old_rules := by
    have hkept : [r].filter (fun r => g.nonterminals.contains r.left) = [r] := by simp [hleft]
    rw [← h.old_rules, Binarization.emit, List.filter_append, hkept, List.map_append]
    rfl
  form_le J hJ := h.form_le J (forall_mem_emit.mp hJ).1

/-- A new nonterminal with the only rule that it will have. -/
theorem introduce (hf : Fresh g name c N) (h : Unfolds g name c b done E)
    (hN : b.counter + 1 ≤ N) (right : List Symbol) (hright : ∀ X ∈ right, Known g name c b X) :
    ∃ E', Unfolds g name c (b.introduce name right) done E' ∧ Agrees g name c b E E' ∧
      E' (name (b.counter + 1)) = E.form right := by
  have hlt : c < b.counter + 1 := Nat.lt_succ_of_le h.counter_le
  have hle : b.counter ≤ (b.introduce name right).counter := Nat.le_succ _
  have hnew : name (b.counter + 1) ∉ g.nonterminals := hf.notMem _ hlt hN
  -- only the new nonterminal changes its meaning, and nothing that is known mentions it
  set E' : Unfolding := Function.update E (name (b.counter + 1)) (E.form right)
  have hself : E' (name (b.counter + 1)) = E.form right := Function.update_self ..
  have hsame : ∀ A, A ≠ name (b.counter + 1) → E' A = E A :=
    fun A hA => Function.update_of_ne hA _ _
  have hagrees : Agrees g name c b E E' := by
    intro X hX
    have hne := hf.known_ne h.counter_le hN hX
    cases X with
    | nonterminal A => exact hsame A fun heq => hne (congrArg _ heq)
    | terminal a => rfl
  have hform : ∀ r ∈ b.rules, E'.form r.right = E.form r.right :=
    fun r hr => hagrees.form_eq (h.right_known r hr)
  refine ⟨E', ?_, hagrees, hself⟩
  exact {
    counter_le := h.counter_le.trans hle
    left_known := forall_mem_introduce.mpr
      ⟨fun r hr => (h.left_known r hr).imp_right fun hm => hm.mono hle,
        .inr ⟨b.counter + 1, hlt, le_refl _, rfl⟩⟩
    right_known := forall_mem_introduce.mpr
      ⟨fun r hr X hX => (h.right_known r hr X hX).mono hle, fun X hX => (hright X hX).mono hle⟩
    preterminal := by
      intro p hp
      obtain ⟨hm, hE⟩ := h.preterminal p hp
      exact ⟨hm.mono hle, (hsame p.2 (hf.minted_ne hm)).trans hE⟩
    old := by
      intro A hA
      rw [hsame A fun heq => hnew (heq ▸ hA)]
      exact h.old A hA
    new_rules := by
      refine forall_mem_introduce.mpr ⟨fun r hr hnot => ?_, fun _ => ?_⟩
      · have hm := (h.left_known r hr).resolve_left hnot
        rw [hsame _ (hf.minted_ne hm), hform r hr]
        exact h.new_rules r hr hnot
      · rw [hagrees.form_eq hright]
        exact hself
    old_rules := by
      have hdropped : [(⟨name (b.counter + 1), right⟩ : Rule)].filter
          (fun r => g.nonterminals.contains r.left) = [] := by simp [hnew]
      show ((b.rules ++ _).filter _).map _ = done
      rw [List.filter_append, hdropped, List.append_nil, ← h.old_rules]
      refine List.map_congr_left fun r hr => ?_
      rw [hform r (List.mem_filter.mp hr).1]
    form_le := by
      intro J hJ A
      obtain ⟨hJ, hJnew⟩ := forall_mem_introduce.mp hJ
      by_cases hA : A = name (b.counter + 1)
      · subst hA
        rw [hself]
        exact (h.form_form_le hJ right).trans hJnew
      · rw [hsame A hA]
        exact h.form_le J hJ A }

/-- Symbols of the grammar stand for themselves. -/
theorem form_eq (h : Unfolds g name c b done E) (hg : g.Valid) {r : Rule} (hr : r ∈ g.rules) :
    E.form r.right = r.right :=
  Unfolding.form_eq_self fun A hA =>
    h.old A (Grammar.declares_nonterminal.mp (hg.right_declared r hr _ hA))

/-- The nonterminal that stands for a symbol now stands for what the symbol did. -/
theorem isolates (hf : Fresh g name c N) (h : Unfolds g name c b done E) (hX : Known g name c b X)
    {p : Binarization × Nonterminal} (hp : Isolates name b X p) (hN : p.1.counter ≤ N) :
    ∃ E', Unfolds g name c p.1 done E' ∧ Agrees g name c b E E' ∧
      Known g name c p.1 (.nonterminal p.2) ∧ E' p.2 = E.symbol X := by
  cases hp with
  | nonterminal A => exact ⟨E, h, .refl, hX, rfl⟩
  | again hpre =>
    obtain ⟨hm, hE⟩ := h.preterminal _ hpre
    exact ⟨E, h, .refl, hm.known, hE⟩
  | @first a _ =>
    obtain ⟨E', h', hagrees, hE⟩ := h.introduce hf hN [.terminal a] (by simpa using hX)
    have hminted : Minted name c (b.withPreterminal name a) (name (b.counter + 1)) :=
      ⟨b.counter + 1, Nat.lt_succ_of_le h.counter_le, le_refl _, rfl⟩
    refine ⟨E', { h' with preterminal := fun q hq => ?_ }, hagrees, hminted.known, hE⟩
    rcases List.mem_append.mp hq with hq | hq
    · exact h'.preterminal q hq
    · obtain rfl := List.mem_singleton.mp hq
      exact ⟨hminted, hE⟩

theorem isolateAll (hf : Fresh g name c N) (h : Unfolds g name c b done E)
    (hright : ∀ X ∈ right, Known g name c b X) (hN : (b.isolateAll name right).1.counter ≤ N) :
    ∃ E', Unfolds g name c (b.isolateAll name right).1 done E' ∧ Agrees g name c b E E' ∧
      (∀ A ∈ (b.isolateAll name right).2,
        Known g name c (b.isolateAll name right).1 (.nonterminal A)) ∧
      E'.form ((b.isolateAll name right).2.map .nonterminal) = E.form right := by
  induction right generalizing b E with
  | nil => exact ⟨E, h, .refl, fun A hA => absurd hA List.not_mem_nil, rfl⟩
  | cons X right ih =>
    have hstep := isolates_isolate name b X
    have hle : (b.isolate name X).1.counter ≤
        ((b.isolate name X).1.isolateAll name right).1.counter := counter_le_isolateAll
    obtain ⟨hX, hright⟩ := List.forall_mem_cons.mp hright
    obtain ⟨E₁, h₁, hagrees₁, hknown₁, hE₁⟩ := h.isolates hf hX hstep (hle.trans hN)
    obtain ⟨E₂, h₂, hagrees₂, hknown₂, hE₂⟩ :=
      ih h₁ (fun Y hY => (hright Y hY).mono hstep.counter_le) hN
    refine ⟨E₂, h₂, hagrees₁.trans hagrees₂ hstep.counter_le, ?_, ?_⟩
    · exact List.forall_mem_cons.mpr ⟨hknown₁.mono hle, hknown₂⟩
    · rw [isolateAll_cons, List.map_cons, Unfolding.form_cons, Unfolding.form_cons, hE₂,
        hagrees₁.form_eq hright, hagrees₂ _ hknown₁]
      exact congrArg (· ++ _) hE₁

/-- However many symbols are left, they unfold to the same. -/
theorem split (hf : Fresh g name c N) (h : Unfolds g name c b done E) {left first : Nonterminal}
    {rest : List Nonterminal} (hleft : left ∈ g.nonterminals)
    (hknown : ∀ A ∈ first :: rest, Known g name c b (.nonterminal A))
    (hN : (b.split name left first rest).counter ≤ N) :
    ∃ E', Unfolds g name c (b.split name left first rest)
      (done ++ [⟨left, E.form ((first :: rest).map .nonterminal)⟩]) E' := by
  fun_induction Binarization.split name b left first rest generalizing E with
  | case1 b first =>
    exact ⟨E, h.emit (r := ⟨left, _⟩) hleft (by simpa using hknown)⟩
  | case2 b first second =>
    exact ⟨E, h.emit (r := ⟨left, _⟩) hleft (by simpa using hknown)⟩
  | case3 b first second third rest ih =>
    have hle : b.counter ≤ (b.introduce name [.nonterminal first, .nonterminal second]).counter :=
      Nat.le_succ _
    have hN' : b.counter + 1 ≤ N := le_trans (by rw [counter_split]; exact Nat.le_add_right _ _) hN
    obtain ⟨E₁, h₁, hagrees, hE₁⟩ := h.introduce hf hN'
      [.nonterminal first, .nonterminal second] (by simp_all)
    have hminted : Minted name c (b.introduce name [.nonterminal first, .nonterminal second])
        (name (b.counter + 1)) := ⟨b.counter + 1, Nat.lt_succ_of_le h.counter_le, le_refl _, rfl⟩
    have hrest : ∀ A ∈ third :: rest, Known g name c b (.nonterminal A) :=
      fun A hA => hknown A (List.mem_cons_of_mem _ (List.mem_cons_of_mem _ hA))
    obtain ⟨E₂, h₂⟩ := ih h₁
      (List.forall_mem_cons.mpr ⟨hminted.known, fun A hA => (hrest A hA).mono hle⟩) hN
    refine ⟨E₂, ?_⟩
    have hform : E₁.form ((name (b.counter + 1) :: third :: rest).map .nonterminal) =
        E.form ((first :: second :: third :: rest).map .nonterminal) := by
      rw [List.map_cons, Unfolding.form_cons, hagrees.form_eq (by simpa using hrest)]
      show E₁ _ ++ _ = _
      rw [hE₁]
      simp
    rwa [hform] at h₂

theorem addRule (hf : Fresh g name c N) (h : Unfolds g name c b done E) {start : Nonterminal}
    {r : Rule} (hr : r ∈ g.rules) (hN : (b.addRule name start r).counter ≤ N) :
    ∃ E', Unfolds g name c (b.addRule name start r) (done ++ [r]) E' := by
  have hleft := hf.valid.left_declared r hr
  have hknown : ∀ X ∈ r.right, Known g name c b X := fun X hX => .inl ⟨r, hr, hX⟩
  have hform := h.form_eq hf.valid hr
  cases hk : keeps start r with
  | true =>
    have h' := h.emit hleft hknown
    rw [hform] at h'
    rw [addRule_of_keeps hk]
    exact ⟨E, h'⟩
  | false =>
    rw [addRule_of_not_keeps hk] at hN ⊢
    have hall := h.isolateAll hf hknown
    rw [hform] at hall
    generalize b.isolateAll name r.right = isolated at hN hall ⊢
    obtain ⟨b', _ | ⟨first, rest⟩⟩ := isolated
    · obtain ⟨E', h', _, _, hE'⟩ := hall hN
      have h'' := h'.emit (r := ⟨r.left, []⟩) hleft (by simp)
      have hnil : E'.form [] = r.right := hE'
      rw [hnil] at h''
      exact ⟨E', h''⟩
    · have hle : b'.counter ≤ (b'.split name r.left first rest).counter := by
        rw [counter_split]
        exact Nat.le_add_right _ _
      obtain ⟨E', h', _, hknown', hE'⟩ := hall (hle.trans hN)
      have h'' := h'.split hf hleft hknown' hN
      rwa [hE'] at h''

theorem addRules (hf : Fresh g name c N) (h : Unfolds g name c b done E) {start : Nonterminal}
    {rules : List Rule} (hrules : ∀ r ∈ rules, r ∈ g.rules)
    (hN : (b.addRules name start rules).counter ≤ N) :
    ∃ E', Unfolds g name c (b.addRules name start rules) (done ++ rules) E' := by
  induction rules generalizing b done E with
  | nil => exact ⟨E, by rwa [List.append_nil]⟩
  | cons r rules ih =>
    obtain ⟨hr, hrules⟩ := List.forall_mem_cons.mp hrules
    have hle : (b.addRule name start r).counter ≤ N := counter_le_addRules.trans hN
    obtain ⟨E₁, h₁⟩ := h.addRule hf hr hle
    obtain ⟨E₂, h₂⟩ := ih h₁ hrules hN
    refine ⟨E₂, ?_⟩
    rwa [List.append_assoc, List.singleton_append] at h₂

/-! ## Words -/

variable (h : Unfolds g name c b g.rules E)

include h

theorem exists_unfolded {r : Rule} (hr : r ∈ g.rules) :
    ∃ s ∈ b.rules, s.left = r.left ∧ E.form s.right = r.right := by
  rw [← h.old_rules] at hr
  obtain ⟨s, hs, rfl⟩ := List.mem_map.mp hr
  exact ⟨s, (List.mem_filter.mp hs).1, rfl, rfl⟩

theorem unfolded_mem {s : Rule} (hs : s ∈ b.rules) (hleft : s.left ∈ g.nonterminals) :
    ⟨s.left, E.form s.right⟩ ∈ g.rules := by
  have hmem : s ∈ b.rules.filter fun r => g.nonterminals.contains r.left :=
    List.mem_filter.mpr ⟨hs, by simpa using hleft⟩
  have hmap := List.mem_map_of_mem (f := fun r => (⟨r.left, E.form r.right⟩ : Rule)) hmem
  rwa [h.old_rules] at hmap

theorem words_eq (hA : A ∈ g.nonterminals) : words b.rules A = words g.rules A := by
  refine le_antisymm ?_ (words_le (fun r hr => ?_) A)
  · -- new nonterminals are read as what they stand for
    have hthrough : (words g.rules).through E A = words g.rules A := by
      rw [Reading.through, h.old A hA, Reading.form_singleton, Reading.symbol_nonterminal]
    rw [← hthrough]
    refine words_le (fun s hs => ?_) A
    rw [Reading.form_through]
    by_cases hleft : s.left ∈ g.nonterminals
    · rw [Reading.through, h.old _ hleft, Reading.form_singleton]
      exact closed_words g.rules _ (h.unfolded_mem hs hleft)
    · rw [Reading.through, h.new_rules s hs hleft]
  · obtain ⟨s, hs, hleft, hright⟩ := h.exists_unfolded hr
    rw [← hleft, ← hright]
    exact (h.form_form_le (closed_words b.rules) s.right).trans (closed_words b.rules s hs)

end Unfolds

end Binarization

end Chomsky

import Chomsky.Grammar.Words
import Mathlib

/-!
# Derivations and readings

A rule rewrites one occurrence of its left side. The words of a nonterminal are what rewriting leads
to once only terminals are left, and the language of a grammar is the words of its start symbol.

A reading gives every nonterminal some language. The words of the nonterminals are the least reading
that is closed under the rules (`closed_words`, `words_le`). Two sets of rules are compared through
this: what one generates is a reading, and it has to be closed under the rules of the other. No
later module looks at a single rewriting step.
-/

namespace Chomsky

/-- One occurrence of the left side of a rule becomes its right side. -/
inductive Rewrites (rules : List Rule) : List Symbol → List Symbol → Prop
  | step {r : Rule} (hr : r ∈ rules) (before after : List Symbol) :
      Rewrites rules (before ++ .nonterminal r.left :: after) (before ++ r.right ++ after)

/-- Any number of rewriting steps. -/
def Derives (rules : List Rule) : List Symbol → List Symbol → Prop :=
  Relation.ReflTransGen (Rewrites rules)

/-- Some language for every nonterminal. -/
abbrev Reading := Nonterminal → Language Terminal

/-- The words of terminals that each nonterminal derives. -/
def words (rules : List Rule) : Reading :=
  fun A => {w | Derives rules [.nonterminal A] (w.map .terminal)}

/-- The words that the start symbol derives. -/
def Grammar.language (g : Grammar) : Language Terminal := words g.rules g.start

/-! ## Rewriting in a context -/

theorem Rewrites.in_context {rules : List Rule} {α β : List Symbol} (h : Rewrites rules α β)
    (before after : List Symbol) : Rewrites rules (before ++ α ++ after) (before ++ β ++ after) := by
  cases h with
  | @step r hr p q =>
    have hs := Rewrites.step hr (before ++ p) (q ++ after)
    simpa only [List.append_assoc, List.cons_append] using hs

theorem Derives.in_context {rules : List Rule} {α β : List Symbol} (h : Derives rules α β)
    (before after : List Symbol) : Derives rules (before ++ α ++ after) (before ++ β ++ after) := by
  induction h with
  | refl => exact .refl
  | tail _ hs ih => exact ih.tail (hs.in_context before after)

theorem Derives.append {rules : List Rule} {α α' β β' : List Symbol} (ha : Derives rules α α')
    (hb : Derives rules β β') : Derives rules (α ++ β) (α' ++ β') := by
  have h₁ := ha.in_context [] β
  have h₂ := hb.in_context α' []
  simp only [List.nil_append, List.append_nil] at h₁ h₂
  exact h₁.trans h₂

theorem Derives.of_rule {rules : List Rule} {r : Rule} (hr : r ∈ rules) :
    Derives rules [.nonterminal r.left] r.right := by
  have h := Rewrites.step hr [] []
  simp only [List.nil_append, List.append_nil] at h
  exact Relation.ReflTransGen.single h

theorem Derives.mono {rules rules' : List Rule} (hsub : ∀ r ∈ rules, r ∈ rules') {α β : List Symbol}
    (h : Derives rules α β) : Derives rules' α β := by
  induction h with
  | refl => exact .refl
  | tail _ hs ih =>
    obtain ⟨hr, before, after⟩ := hs
    exact ih.tail (.step (hsub _ hr) before after)

/-! ## Readings -/

namespace Reading

/-- A terminal is read as itself. -/
def symbol (I : Reading) : Symbol → Language Terminal
  | .nonterminal A => I A
  | .terminal a => {[a]}

/-- A list of symbols is read as the concatenation of what its symbols are read as. -/
def form (I : Reading) (α : List Symbol) : Language Terminal := (α.map I.symbol).prod

/-- Every rule holds: whatever its right side is read as, its left side is. -/
def Closed (I : Reading) (rules : List Rule) : Prop := ∀ r ∈ rules, I.form r.right ≤ I r.left

variable {I J : Reading} {α β : List Symbol} {w : Word}

@[simp] theorem symbol_nonterminal (A : Nonterminal) : I.symbol (.nonterminal A) = I A := rfl

@[simp] theorem symbol_terminal (a : Terminal) : I.symbol (.terminal a) = {[a]} := rfl

@[simp] theorem form_nil : I.form [] = 1 := rfl

@[simp] theorem form_cons (X : Symbol) : I.form (X :: α) = I.symbol X * I.form α := by
  simp only [form, List.map_cons, List.prod_cons]

@[simp] theorem form_append : I.form (α ++ β) = I.form α * I.form β := by
  simp only [form, List.map_append, List.prod_append]

theorem form_singleton (X : Symbol) : I.form [X] = I.symbol X := by
  rw [form_cons, form_nil, mul_one]

theorem form_terminals (w : Word) : I.form (w.map .terminal) = {w} := by
  induction w with
  | nil => rfl
  | cons a w ih =>
    rw [List.map_cons, form_cons, ih, symbol_terminal]
    ext v
    simp only [Language.mem_mul]
    constructor
    · intro h
      obtain ⟨_, rfl, _, rfl, rfl⟩ := h
      rfl
    · rintro rfl; exact ⟨[a], rfl, w, rfl, rfl⟩

theorem symbol_mono {X : Symbol} (h : ∀ A, X = .nonterminal A → I A ≤ J A) :
    I.symbol X ≤ J.symbol X := by
  cases X with
  | nonterminal A => exact h A rfl
  | terminal a => exact le_refl _

theorem form_mono (h : ∀ A, .nonterminal A ∈ α → I A ≤ J A) : I.form α ≤ J.form α := by
  induction α with
  | nil => exact le_refl _
  | cons X α ih =>
    rw [form_cons, form_cons]
    refine mul_le_mul' (symbol_mono fun A hA => ?_) (ih fun A hA => ?_)
    · exact h A (hA ▸ List.mem_cons_self)
    · exact h A (List.mem_cons_of_mem _ hA)

theorem nil_mem_mul {L M : Language Terminal} : [] ∈ L * M ↔ [] ∈ L ∧ [] ∈ M := by
  simp only [Language.mem_mul, List.append_eq_nil_iff]
  constructor
  · intro h
    obtain ⟨_, hL, _, hM, rfl, rfl⟩ := h
    exact ⟨hL, hM⟩
  · exact fun ⟨hL, hM⟩ => ⟨[], hL, [], hM, rfl, rfl⟩

theorem nil_mem_form : [] ∈ I.form α ↔ ∀ X ∈ α, [] ∈ I.symbol X := by
  induction α with
  | nil => simp
  | cons X α ih => rw [form_cons, nil_mem_mul, ih, List.forall_mem_cons]

theorem exists_mem_form : (∃ w, w ∈ I.form α) ↔ ∀ X ∈ α, ∃ w, w ∈ I.symbol X := by
  induction α with
  | nil => simp
  | cons X α ih =>
    rw [form_cons, List.forall_mem_cons, ← ih]
    constructor
    · intro h
      obtain ⟨_, h⟩ := h
      obtain ⟨u, hu, v, hv, _⟩ := Language.mem_mul.mp h
      exact ⟨⟨u, hu⟩, v, hv⟩
    · intro h
      obtain ⟨⟨u, hu⟩, v, hv⟩ := h
      exact ⟨u ++ v, Language.append_mem_mul hu hv⟩

end Reading

/-! ## The words of the rules -/

section Words

variable {rules rules' : List Rule} {I : Reading} {α β : List Symbol} {w : Word}

theorem form_le_of_rewrites (hI : I.Closed rules) (h : Rewrites rules α β) :
    I.form β ≤ I.form α := by
  cases h with
  | @step r hr before after =>
    rw [Reading.form_append, Reading.form_append, Reading.form_append, Reading.form_cons, mul_assoc]
    exact mul_le_mul' le_rfl (mul_le_mul' (hI r hr) le_rfl)

theorem form_le_of_derives (hI : I.Closed rules) (h : Derives rules α β) : I.form β ≤ I.form α := by
  induction h with
  | refl => exact le_refl _
  | tail _ hs ih => exact (form_le_of_rewrites hI hs).trans ih

theorem mem_form_of_derives (hI : I.Closed rules) (h : Derives rules α (w.map .terminal)) :
    w ∈ I.form α := by
  have hw := form_le_of_derives hI h
  rw [Reading.form_terminals] at hw
  exact hw rfl

theorem derives_of_mem_form (h : w ∈ (words rules).form α) : Derives rules α (w.map .terminal) := by
  induction α generalizing w with
  | nil =>
    obtain rfl := (Language.mem_one w).mp h
    exact .refl
  | cons X α ih =>
    rw [Reading.form_cons] at h
    obtain ⟨u, hu, v, hv, rfl⟩ := Language.mem_mul.mp h
    rw [List.map_append]
    refine Derives.append (α := [X]) ?_ (ih hv)
    cases X with
    | nonterminal A => exact hu
    | terminal a => obtain rfl := hu; exact .refl

/-- What the rules derive is closed under the rules. -/
theorem closed_words (rules : List Rule) : (words rules).Closed rules := fun _ hr _ hw =>
  (Derives.of_rule hr).trans (derives_of_mem_form hw)

theorem mem_form_words_iff : w ∈ (words rules).form α ↔ Derives rules α (w.map .terminal) :=
  ⟨derives_of_mem_form, mem_form_of_derives (closed_words rules)⟩

/-- The words are the least reading that is closed under the rules. -/
theorem words_le (hI : I.Closed rules) (A : Nonterminal) : words rules A ≤ I A := fun w hw => by
  have h := mem_form_of_derives hI hw
  rwa [Reading.form_singleton] at h

theorem mem_words_iff {A : Nonterminal} :
    w ∈ words rules A ↔ ∃ r ∈ rules, r.left = A ∧ w ∈ (words rules).form r.right := by
  constructor
  · intro hw
    refine words_le (I := fun A => {w | ∃ r ∈ rules, r.left = A ∧ w ∈ (words rules).form r.right})
      (fun r hr v hv => ⟨r, hr, rfl, ?_⟩) A hw
    refine Reading.form_mono (fun B _ u hu => ?_) hv
    obtain ⟨s, hs, rfl, hus⟩ := hu
    exact closed_words rules s hs hus
  · intro h
    obtain ⟨r, hr, rfl, hw⟩ := h
    exact closed_words rules r hr hw

theorem words_mono (hsub : ∀ r ∈ rules, r ∈ rules') (A : Nonterminal) :
    words rules A ≤ words rules' A := fun _ hw => Derives.mono hsub hw

/-- The order of the rules and their repetitions do not matter. -/
theorem words_congr (h : ∀ r, r ∈ rules ↔ r ∈ rules') : words rules = words rules' :=
  funext fun A => le_antisymm (words_mono (fun r => (h r).mp) A) (words_mono (fun r => (h r).mpr) A)

theorem notMem_words {A : Nonterminal} (h : ∀ r ∈ rules, r.left ≠ A) : w ∉ words rules A := by
  intro hw
  obtain ⟨r, hr, hA, _⟩ := mem_words_iff.mp hw
  exact h r hr hA

/-- New rules for a nonterminal that occurs on no right side matter for this nonterminal only. -/
theorem mem_words_append_iff {new : List Rule} {F : Nonterminal} (hnew : ∀ r ∈ new, r.left = F)
    (hF : ∀ r ∈ new ++ rules, .nonterminal F ∉ r.right) {A : Nonterminal} :
    w ∈ words (new ++ rules) A ↔
      w ∈ words rules A ∨ A = F ∧ ∃ r ∈ new, w ∈ (words rules).form r.right := by
  have hsub : ∀ B, words rules B ≤ words (new ++ rules) B :=
    words_mono fun _ => List.mem_append_right _
  constructor
  · intro hw
    refine words_le (I := fun A =>
      {w | w ∈ words rules A ∨ A = F ∧ ∃ r ∈ new, w ∈ (words rules).form r.right})
      (fun r hr v hv => ?_) A hw
    -- `F` does not occur in the right side, so it is read as before
    replace hv : v ∈ (words rules).form r.right := by
      refine Reading.form_mono (fun B hB u hu => hu.resolve_right ?_) hv
      intro h
      obtain ⟨rfl, _⟩ := h
      exact hF r hr hB
    rcases List.mem_append.mp hr with hr | hr
    · exact .inr ⟨hnew r hr, r, hr, hv⟩
    · exact .inl (closed_words rules r hr hv)
  · intro h
    rcases h with hw | ⟨rfl, r, hr, hw⟩
    · exact hsub A hw
    · rw [← hnew r hr]
      exact closed_words _ r (List.mem_append_left _ hr) (Reading.form_mono (fun B _ => hsub B) hw)

/-- The grammar without rules generates nothing. -/
theorem Grammar.notMem_language_of_isEmpty {g : Grammar} (h : g.isEmpty = true) :
    w ∉ g.language := by
  have hrules : g.rules = [] := by
    rw [Grammar.isEmpty, Bool.and_eq_true, List.isEmpty_iff, List.isEmpty_iff] at h
    exact h.2
  refine notMem_words fun s hs => ?_
  rw [hrules] at hs
  exact absurd hs List.not_mem_nil

end Words

end Chomsky

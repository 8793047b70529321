import Chomsky.Binarization
import Chomsky.Proofs.Duplicates
import Chomsky.Proofs.Shape
import Mathlib

/-!
# Steps of binarization

What the operations of a binarization under way can do, said once: which rules they add, behind those
that are there, and how far they count. Nothing here depends on which names the numbers give.
-/

namespace Chomsky

namespace Binarization

variable {name : Nat → Nonterminal} {b : Binarization} {start A : Nonterminal} {a : Terminal}
  {X : Symbol} {right : List Symbol} {r : Rule} {rules : List Rule}

theorem forall_mem_emit {P : Rule → Prop} :
    (∀ s ∈ (b.emit r).rules, P s) ↔ (∀ s ∈ b.rules, P s) ∧ P r := by
  simp only [emit, List.forall_mem_append, List.forall_mem_singleton]

theorem forall_mem_introduce {P : Rule → Prop} :
    (∀ s ∈ (b.introduce name right).rules, P s) ↔
      (∀ s ∈ b.rules, P s) ∧ P ⟨name (b.counter + 1), right⟩ := forall_mem_emit

/-- A new nonterminal stands for a terminal from now on. -/
def withPreterminal (name : Nat → Nonterminal) (b : Binarization) (a : Terminal) : Binarization :=
  { b.introduce name [.terminal a] with
    preterminals := b.preterminals ++ [(a, name (b.counter + 1))] }

/-- What isolating a symbol can do. -/
inductive Isolates (name : Nat → Nonterminal) (b : Binarization) :
    Symbol → Binarization × Nonterminal → Prop
  | nonterminal (A : Nonterminal) : Isolates name b (.nonterminal A) (b, A)
  | again {a : Terminal} {A : Nonterminal} (h : (a, A) ∈ b.preterminals) :
      Isolates name b (.terminal a) (b, A)
  | first {a : Terminal} (h : ∀ p ∈ b.preterminals, p.1 ≠ a) :
      Isolates name b (.terminal a) (b.withPreterminal name a, name (b.counter + 1))

theorem isolates_isolate (name : Nat → Nonterminal) (b : Binarization) (X : Symbol) :
    Isolates name b X (b.isolate name X) := by
  cases X with
  | nonterminal A => exact .nonterminal A
  | terminal a =>
    rw [isolate]
    cases hlookup : b.preterminals.lookup a with
    | some A =>
      obtain ⟨l, _, hl, _⟩ := List.lookup_eq_some_iff.mp hlookup
      exact .again (hl ▸ List.mem_append_right _ List.mem_cons_self)
    | none =>
      refine .first fun p hp heq => ?_
      have hne := List.lookup_eq_none_iff.mp hlookup p hp
      simp [heq] at hne

theorem isolateAll_cons (name : Nat → Nonterminal) (b : Binarization) (X : Symbol)
    (right : List Symbol) :
    b.isolateAll name (X :: right) =
      (((b.isolate name X).1.isolateAll name right).1,
        (b.isolate name X).2 :: ((b.isolate name X).1.isolateAll name right).2) := rfl

theorem length_isolateAll : (b.isolateAll name right).2.length = right.length := by
  induction right generalizing b with
  | nil => rfl
  | cons X right ih => rw [isolateAll_cons, List.length_cons, ih, List.length_cons]

theorem length_le_one_of_keeps (h : keeps start r = true) : r.right.length ≤ 1 := by
  rw [keeps, Bool.or_eq_true, Bool.and_eq_true] at h
  rcases h with h | ⟨h, _⟩
  · obtain ⟨a, ha⟩ := Rule.isLexical_iff.mp h
    rw [ha]
    exact Nat.le_refl _
  · rw [Rule.isEpsilon_iff.mp h]
    exact Nat.zero_le 1

theorem keeps_eq_false_of_long (h : 2 ≤ r.right.length) : keeps start r = false := by
  rw [Bool.eq_false_iff]
  intro hkeeps
  have := length_le_one_of_keeps hkeeps
  omega

/-- The only right sides with a terminal and less than two symbols are those of lexical rules. -/
theorem long_of_terminal_mem (h : keeps start r = false) {a : Terminal} (ha : .terminal a ∈ r.right) :
    2 ≤ r.right.length := by
  by_contra hlen
  rw [keeps, Bool.or_eq_false_iff] at h
  obtain ⟨left, right⟩ := r
  rcases right with _ | ⟨X, _ | ⟨Y, right⟩⟩
  · exact absurd ha List.not_mem_nil
  · obtain rfl := List.mem_singleton.mp ha
    simp [Rule.isLexical] at h
  · simp at hlen

theorem addRule_of_not_keeps (h : keeps start r = false) :
    b.addRule name start r =
      match b.isolateAll name r.right with
      | (b', []) => b'.emit ⟨r.left, []⟩
      | (b', first :: rest) => b'.split name r.left first rest := by
  rw [addRule, h]
  rfl

theorem addRule_of_keeps (h : keeps start r = true) : b.addRule name start r = b.emit r := by
  rw [addRule, if_pos h]

/-! ## Counting -/

theorem Isolates.counter_le {p : Binarization × Nonterminal} (h : Isolates name b X p) :
    b.counter ≤ p.1.counter := by
  cases h with
  | nonterminal => exact Nat.le_refl _
  | again => exact Nat.le_refl _
  | first => exact Nat.le_succ _

theorem counter_le_isolateAll : b.counter ≤ (b.isolateAll name right).1.counter := by
  induction right generalizing b with
  | nil => exact Nat.le_refl _
  | cons X right ih => exact Nat.le_trans (isolates_isolate name b X).counter_le ih

theorem counter_split {first : Nonterminal} {rest : List Nonterminal} :
    (b.split name A first rest).counter = b.counter + (rest.length - 1) := by
  fun_induction split name b A first rest with
  | case1 => rfl
  | case2 => rfl
  | case3 b first second third rest ih =>
    rw [ih]
    show b.counter + 1 + _ = _
    simp only [List.length_cons]
    omega

theorem preterminals_split {first : Nonterminal} {rest : List Nonterminal} :
    (b.split name A first rest).preterminals = b.preterminals := by
  fun_induction split name b A first rest with
  | case1 => rfl
  | case2 => rfl
  | case3 b first second third rest ih => rw [ih]; rfl

theorem counter_le_split {first : Nonterminal} {rest : List Nonterminal} :
    b.counter ≤ (b.split name A first rest).counter := by
  rw [counter_split]
  exact Nat.le_add_right _ _

theorem counter_le_addRule : b.counter ≤ (b.addRule name start r).counter := by
  cases hk : keeps start r with
  | true => rw [addRule_of_keeps hk]; exact Nat.le_refl _
  | false =>
    have hle : b.counter ≤ (b.isolateAll name r.right).1.counter := counter_le_isolateAll
    rw [addRule_of_not_keeps hk]
    generalize b.isolateAll name r.right = isolated at hle ⊢
    obtain ⟨b', _ | ⟨first, rest⟩⟩ := isolated
    · exact hle
    · exact Nat.le_trans hle counter_le_split

theorem counter_le_addRules : b.counter ≤ (b.addRules name start rules).counter := by
  induction rules generalizing b with
  | nil => exact Nat.le_refl _
  | cons r rules ih => exact Nat.le_trans counter_le_addRule ih

/-- The terminals that a nonterminal stands for. -/
def isolated (b : Binarization) : List Terminal := b.preterminals.map Prod.fst

/-- Each terminal is isolated once, and all numbers beyond those that this took are `pairs`. -/
structure Counts (c : Nat) (b : Binarization) (pairs : Nat) (P : Terminal → Prop) : Prop where
  counter_eq : b.counter = c + b.isolated.length + pairs
  nodup : b.isolated.Nodup
  mem_iff : ∀ a, a ∈ b.isolated ↔ P a

namespace Counts

variable {c n pairs : Nat} {P : Terminal → Prop}

theorem congr {Q : Terminal → Prop} (h : Counts c b pairs P) (hPQ : ∀ a, P a ↔ Q a) :
    Counts c b pairs Q := ⟨h.counter_eq, h.nodup, fun a => (h.mem_iff a).trans (hPQ a)⟩

theorem emit (h : Counts c b pairs P) : Counts c (b.emit r) pairs P :=
  ⟨h.counter_eq, h.nodup, h.mem_iff⟩

theorem isolates (h : Counts c b pairs P) {p : Binarization × Nonterminal}
    (hp : Isolates name b X p) : Counts c p.1 pairs fun a => P a ∨ X = .terminal a := by
  cases hp with
  | nonterminal A => exact h.congr (by simp)
  | @again a A hpre =>
    have ha : P a := (h.mem_iff a).mp (List.mem_map_of_mem hpre)
    refine h.congr fun a' => ⟨.inl, fun h' => ?_⟩
    rcases h' with h' | h'
    · exact h'
    · exact Symbol.terminal.inj h' ▸ ha
  | @first a hpre =>
    have hnot : a ∉ b.isolated := by
      intro ha
      obtain ⟨p, hp, rfl⟩ := List.mem_map.mp ha
      exact hpre p hp rfl
    have hnew : (b.withPreterminal name a).isolated = b.isolated ++ [a] := List.map_append
    refine ⟨?_, ?_, fun a' => ?_⟩
    · have hcounter := h.counter_eq
      rw [hnew, List.length_append, List.length_singleton]
      show b.counter + 1 = _
      omega
    · rw [hnew]
      exact h.nodup.append (List.nodup_singleton a) (by simpa using hnot)
    · rw [hnew, List.mem_append, h.mem_iff, List.mem_singleton, Symbol.terminal.injEq, eq_comm]

theorem isolateAll (h : Counts c b pairs P) :
    Counts c (b.isolateAll name right).1 pairs fun a => P a ∨ .terminal a ∈ right := by
  induction right generalizing b P with
  | nil => exact h.congr (by simp)
  | cons X right ih =>
    refine (ih (h.isolates (isolates_isolate name b X))).congr fun a => ?_
    rw [List.mem_cons, or_assoc, eq_comm (a := X)]

theorem split (h : Counts c b pairs P) {first : Nonterminal} {rest : List Nonterminal} :
    Counts c (b.split name A first rest) (pairs + (rest.length - 1)) P where
  counter_eq := by
    rw [counter_split, isolated, preterminals_split, h.counter_eq]
    exact Nat.add_assoc _ _ _
  nodup := by
    rw [isolated, preterminals_split]
    exact h.nodup
  mem_iff := by
    rw [isolated, preterminals_split]
    exact h.mem_iff

/-- A rule takes a number for each terminal that comes up for the first time and one for each symbol
beyond two. -/
theorem addRule (h : Counts c b pairs P) :
    Counts c (b.addRule name start r) (pairs + (r.right.length - 2))
      fun a => P a ∨ 2 ≤ r.right.length ∧ .terminal a ∈ r.right := by
  cases hk : keeps start r with
  | true =>
    have hlen := length_le_one_of_keeps hk
    have hpairs : pairs + (r.right.length - 2) = pairs := by omega
    have hshort : ¬2 ≤ r.right.length := by omega
    rw [addRule_of_keeps hk, hpairs]
    exact h.emit.congr fun a => by simp [hshort]
  | false =>
    have hall : Counts c (b.isolateAll name r.right).1 pairs
        fun a => P a ∨ 2 ≤ r.right.length ∧ .terminal a ∈ r.right :=
      h.isolateAll.congr fun a =>
        or_congr_right ⟨fun ha => ⟨long_of_terminal_mem hk ha, ha⟩, And.right⟩
    have hlen : (b.isolateAll name r.right).2.length = r.right.length := length_isolateAll
    rw [addRule_of_not_keeps hk]
    generalize b.isolateAll name r.right = isolated at hall hlen ⊢
    obtain ⟨b', _ | ⟨first, rest⟩⟩ := isolated
    · have hpairs : pairs + (r.right.length - 2) = pairs := by
        rw [← hlen]
        rfl
      rw [hpairs]
      exact hall.emit
    · have hrest : rest.length - 1 = r.right.length - 2 := by
        rw [← hlen, List.length_cons]
        omega
      rw [← hrest]
      exact hall.split

theorem addRules (h : Counts c b pairs P) :
    Counts c (b.addRules name start rules) (pairs + (rules.map fun r => r.right.length - 2).sum)
      fun a => P a ∨ ∃ r ∈ rules, 2 ≤ r.right.length ∧ .terminal a ∈ r.right := by
  induction rules generalizing b pairs P with
  | nil => exact h.congr (by simp)
  | cons r rules ih =>
    rw [List.map_cons, List.sum_cons, ← Nat.add_assoc pairs]
    refine (ih h.addRule).congr fun a => ?_
    rw [List.exists_mem_cons_iff, or_assoc]

end Counts

end Binarization

/-! ## How many nonterminals a grammar needs -/

namespace Grammar

/-- The terminals in right sides of two symbols or more, each once. -/
def isolatedTerminals (g : Grammar) : List Terminal :=
  ((g.rules.filter fun r => decide (2 ≤ r.right.length)).flatMap fun r =>
    r.right.filterMap Symbol.terminal?).eraseDups

/-- The symbols beyond two in each right side, together. -/
def surplus (g : Grammar) : Nat := (g.rules.map fun r => r.right.length - 2).sum

/-- How many nonterminals binarization introduces. -/
def mintCount (g : Grammar) : Nat := g.isolatedTerminals.length + g.surplus

theorem mem_isolatedTerminals_iff {g : Grammar} {a : Terminal} :
    a ∈ g.isolatedTerminals ↔ ∃ r ∈ g.rules, 2 ≤ r.right.length ∧ .terminal a ∈ r.right := by
  have hterminal : ∀ X : Symbol, X.terminal? = some a ↔ X = .terminal a := by
    intro X
    cases X <;> simp [Symbol.terminal?]
  simp [isolatedTerminals, hterminal, and_assoc]

theorem counts_addRules (g : Grammar) (name : Nat → Nonterminal) (c : Nat) :
    Binarization.Counts c (Binarization.addRules name g.start { counter := c } g.rules) g.surplus
      fun a => ∃ r ∈ g.rules, 2 ≤ r.right.length ∧ .terminal a ∈ r.right := by
  have hinit : Binarization.Counts c { counter := c } 0 fun _ => False :=
    ⟨rfl, List.nodup_nil, fun a => by simp [Binarization.isolated]⟩
  have h : Binarization.Counts c (Binarization.addRules name g.start { counter := c } g.rules) _ _ :=
    hinit.addRules
  rw [Nat.zero_add] at h
  exact h.congr fun a => by rw [false_or]

theorem isolated_addRules_perm (g : Grammar) (name : Nat → Nonterminal) (c : Nat) :
    (Binarization.addRules name g.start { counter := c } g.rules).isolated.Perm
      g.isolatedTerminals := by
  have h := counts_addRules g name c
  refine (List.perm_ext_iff_of_nodup h.nodup (nodup_eraseDups _)).mpr fun a => ?_
  rw [h.mem_iff]
  exact mem_isolatedTerminals_iff.symm

/-- A binarization of all rules counts that far. -/
theorem counter_addRules (g : Grammar) (name : Nat → Nonterminal) (c : Nat) :
    (Binarization.addRules name g.start { counter := c } g.rules).counter = c + g.mintCount := by
  have hcounter := (counts_addRules g name c).counter_eq
  rw [(isolated_addRules_perm g name c).length_eq] at hcounter
  rw [hcounter, mintCount]
  omega

end Grammar

end Chomsky

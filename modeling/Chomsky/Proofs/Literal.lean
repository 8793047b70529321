import Chomsky.Grammar.Literal
import Chomsky.Proofs.Validity

/-!
# What literals say

A value is the literal of a grammar just if it has the four fields of the literal that is written
for the grammar, and the grammar is one that a literal can say (`ofLiteral_eq_ok_iff`): it is valid,
nothing in it has the name of the mark for an empty right side, and the start symbol of an empty
grammar is not mistaken for a terminal. On the way each reading function is shown to answer just
what was written.
-/

namespace Chomsky

section Results

variable {ε α β : Type}

theorem bind_eq_ok_iff {x : Except ε α} {f : α → Except ε β} {b : β} :
    (x >>= f) = .ok b ↔ ∃ a, x = .ok a ∧ f a = .ok b := by
  cases x with
  | ok a => simp [bind, Except.bind]
  | error e => simp [bind, Except.bind]

/-- If each item is read as what it was written for, and only if it may be written, so is a list. -/
theorem mapM_eq_ok_iff {read : α → Except ε β} (write : β → α) {P : β → Prop}
    (h : ∀ a b, read a = .ok b ↔ a = write b ∧ P b) {as : List α} {bs : List β} :
    as.mapM read = .ok bs ↔ as = bs.map write ∧ ∀ b ∈ bs, P b := by
  induction as generalizing bs with
  | nil =>
    show Except.ok [] = Except.ok bs ↔ _
    cases bs <;> simp
  | cons a as ih =>
    rw [List.mapM_cons]
    simp only [bind_eq_ok_iff, h, ih]
    constructor
    · intro hread
      obtain ⟨b, ⟨ha, hb⟩, bs', ⟨has, hbs⟩, heq⟩ := hread
      cases heq
      exact ⟨by rw [ha, has, List.map_cons], List.forall_mem_cons.mpr ⟨hb, hbs⟩⟩
    · intro hwritten
      obtain ⟨heq, hall⟩ := hwritten
      cases bs with
      | nil => cases heq
      | cons b bs =>
        obtain ⟨ha, has⟩ := List.cons.inj heq
        obtain ⟨hb, hbs⟩ := List.forall_mem_cons.mp hall
        exact ⟨b, ⟨ha, hb⟩, bs, ⟨has, hbs⟩, rfl⟩

end Results

namespace Grammar

variable {d : Json} {g : Grammar} {r : Rule} {X : Symbol} {A : Nonterminal}
  {name : String} {names nonterminals terminals : List String} {place : NameList}

/-! ## Fields and names -/

theorem literalField_eq_ok_iff {key : String} {v : Json} :
    literalField d key = .ok v ↔ d.field? key = some v := by
  cases d with
  | object fields => cases hvalue : fields.lookup key <;> simp [literalField, Json.field?, hvalue]
  | _ => simp [literalField, Json.field?]

theorem literalNames_eq_ok_iff {v : Json} :
    literalNames place v = .ok names ↔ v = .ofStrings names := by
  cases v with
  | array items =>
    rw [literalNames, mapM_eq_ok_iff Json.string (P := fun _ => True) fun a b => ?_,
      Json.ofStrings, Json.array.injEq, and_iff_left fun _ _ => trivial]
    cases a <;> simp
  | _ => simp [literalNames, Json.ofStrings]

/-- Among these declarations the name of the symbol means the symbol. -/
def Named (nonterminals terminals : List String) : Symbol → Prop
  | .nonterminal A => A.name ∈ nonterminals
  | .terminal a => a.name ∈ terminals ∧ a.name ∉ nonterminals

theorem Named.mem (h : Named nonterminals terminals X) :
    X.name ∈ nonterminals ∨ X.name ∈ terminals := by
  cases X with
  | nonterminal A => exact .inl h
  | terminal a => exact .inr h.1

theorem literalSymbol_eq_ok_iff :
    literalSymbol nonterminals terminals name = .ok X ↔
      name = X.name ∧ Named nonterminals terminals X := by
  unfold literalSymbol
  by_cases hN : name ∈ nonterminals
  · rw [if_pos (List.contains_iff_mem.mpr hN)]
    constructor
    · intro h
      cases h
      exact ⟨rfl, hN⟩
    · rintro ⟨rfl, h⟩
      cases X with
      | nonterminal A => rfl
      | terminal a => exact absurd hN h.2
  · rw [if_neg (by simpa using hN)]
    by_cases hT : name ∈ terminals
    · rw [if_pos (List.contains_iff_mem.mpr hT)]
      constructor
      · intro h
        cases h
        exact ⟨rfl, hT, hN⟩
      · rintro ⟨rfl, h⟩
        cases X with
        | nonterminal A => exact absurd h hN
        | terminal a => rfl
    · rw [if_neg (by simpa using hT)]
      constructor
      · intro h
        cases h
      · rintro ⟨rfl, h⟩
        exact absurd h.mem (not_or.mpr ⟨hN, hT⟩)

/-! ## Productions -/

/-- Only a list has a list as its second half. -/
theorem productionHalves?_eq_some_array {p left : Json} {items : List Json} :
    productionHalves? p = some (left, .array items) ↔ p = .array [left, .array items] := by
  unfold productionHalves?
  split <;> grind

/-- A list of names that stands for the right side. The mark for an empty one stands alone. -/
def rightNames (right : List Symbol) : List String :=
  if right.isEmpty then [epsilon] else right.map Symbol.name

theorem ruleLiteral_eq (r : Rule) :
    ruleLiteral r = .array [.string r.left.name, .ofStrings (rightNames r.right)] := by
  rw [ruleLiteral, productionLiteral, rightNames, List.isEmpty_map]

/-- The rule of a production with this left side and these names on the right. -/
def ruleOfNames (nonterminals terminals : List String) (production : Json) (left : Nonterminal)
    (names : List String) : Except LiteralError Rule :=
  if names.contains epsilon then
    if names.length = 1 then .ok ⟨left, []⟩ else .error (.epsilonNotAlone production)
  else do return ⟨left, ← names.mapM (literalSymbol nonterminals terminals)⟩

theorem ruleOfNames_eq_ok_iff (hN : epsilon ∉ nonterminals) (hT : epsilon ∉ terminals) {p : Json}
    (hnames : names ≠ []) :
    ruleOfNames nonterminals terminals p A names = .ok r ↔ A = r.left ∧
      names = rightNames r.right ∧ ∀ X ∈ r.right, Named nonterminals terminals X := by
  obtain ⟨B, right⟩ := r
  unfold ruleOfNames
  by_cases hcontains : epsilon ∈ names
  · rw [if_pos (List.contains_iff_mem.mpr hcontains)]
    constructor
    · intro h
      split at h
      · next hlength =>
        cases h
        obtain ⟨name, rfl⟩ := List.length_eq_one_iff.mp hlength
        obtain rfl := List.mem_singleton.mp hcontains
        exact ⟨rfl, rfl, by simp⟩
      · cases h
    · rintro ⟨rfl, rfl, hright⟩
      cases right with
      | nil => rfl
      | cons X right =>
        obtain ⟨Y, hY, hname⟩ := List.mem_map.mp hcontains
        have hmem := (hright Y hY).mem
        rw [hname] at hmem
        exact absurd hmem (not_or.mpr ⟨hN, hT⟩)
  · rw [if_neg (by simpa using hcontains), bind_eq_ok_iff]
    simp only [mapM_eq_ok_iff Symbol.name fun _ _ => literalSymbol_eq_ok_iff]
    constructor
    · intro h
      obtain ⟨right', ⟨hright, hnamed⟩, heq⟩ := h
      cases heq
      refine ⟨rfl, ?_, hnamed⟩
      cases right with
      | nil => exact absurd hright hnames
      | cons X right => exact hright
    · rintro ⟨rfl, rfl, hright⟩
      cases right with
      | nil => exact absurd List.mem_cons_self hcontains
      | cons X right => exact ⟨X :: right, ⟨rfl, hright⟩, rfl⟩

/-- Only a pair of a name and a list of names that is not empty is read as a production. -/
theorem ruleOfLiteral_eq_ok_iff_names {p : Json} :
    ruleOfLiteral nonterminals terminals p = .ok r ↔ ∃ A names,
      p = .array [.string A.name, .ofStrings names] ∧ names ≠ [] ∧ A.name ∈ nonterminals ∧
        ruleOfNames nonterminals terminals p A names = .ok r := by
  constructor
  · intro h
    unfold ruleOfLiteral at h
    split at h
    · cases h
    · next left first rest hhalves =>
      obtain ⟨names, hnames, hbody⟩ := bind_eq_ok_iff.mp h
      rw [literalNames_eq_ok_iff] at hnames
      rw [productionHalves?_eq_some_array, hnames] at hhalves
      obtain ⟨L, hL, hrule⟩ := bind_eq_ok_iff.mp hbody
      obtain ⟨hleft, hmem⟩ := literalSymbol_eq_ok_iff.mp hL
      cases L with
      | terminal a => cases hrule
      | nonterminal A =>
        refine ⟨A, names, ?_, ?_, hmem, hrule⟩
        · rw [hhalves, hleft]
          rfl
        · rintro rfl
          cases hnames
    · cases h
    · cases h
  · rintro ⟨A, names, hp, hne, hmem, hrule⟩
    obtain ⟨first, rest, rfl⟩ := List.exists_cons_of_ne_nil hne
    have hhalves : productionHalves? p = some (.string A.name, .ofStrings (first :: rest)) := by
      rw [hp]
      rfl
    have hL : literalSymbol nonterminals terminals A.name = .ok (.nonterminal A) :=
      literalSymbol_eq_ok_iff.mpr ⟨rfl, hmem⟩
    rw [ruleOfLiteral, hhalves]
    refine bind_eq_ok_iff.mpr ⟨first :: rest, literalNames_eq_ok_iff.mpr rfl, ?_⟩
    exact bind_eq_ok_iff.mpr ⟨_, hL, hrule⟩

theorem ruleOfLiteral_eq_ok_iff (hN : epsilon ∉ nonterminals) (hT : epsilon ∉ terminals)
    {p : Json} :
    ruleOfLiteral nonterminals terminals p = .ok r ↔ p = ruleLiteral r ∧
      r.left.name ∈ nonterminals ∧ ∀ X ∈ r.right, Named nonterminals terminals X := by
  rw [ruleOfLiteral_eq_ok_iff_names, ruleLiteral_eq]
  constructor
  · intro h
    obtain ⟨A, names, hp, hne, hmem, hrule⟩ := h
    obtain ⟨rfl, rfl, hright⟩ := (ruleOfNames_eq_ok_iff hN hT hne).mp hrule
    exact ⟨hp, hmem, hright⟩
  · intro h
    obtain ⟨hp, hmem, hright⟩ := h
    have hne : rightNames r.right ≠ [] := by cases r.right <;> simp [rightNames]
    exact ⟨r.left, _, hp, hne, hmem, (ruleOfNames_eq_ok_iff hN hT hne).mpr ⟨rfl, rfl, hright⟩⟩

/-! ## Grammars -/

theorem startOfLiteral_eq_ok_iff {rules : List Rule} :
    startOfLiteral nonterminals terminals rules name = .ok A ↔ name = A.name ∧
      (A.name ∈ nonterminals ∨ A.name ∉ terminals ∧ nonterminals = [] ∧ rules = []) := by
  unfold startOfLiteral
  by_cases hN : name ∈ nonterminals
  · rw [if_pos (List.contains_iff_mem.mpr hN)]
    constructor
    · intro h
      cases h
      exact ⟨rfl, .inl hN⟩
    · rintro ⟨rfl, -⟩
      rfl
  · rw [if_neg (by simpa using hN)]
    by_cases hT : name ∈ terminals
    · rw [if_pos (List.contains_iff_mem.mpr hT)]
      constructor
      · intro h
        cases h
      · rintro ⟨rfl, h | ⟨h, -⟩⟩
        · exact absurd h hN
        · exact absurd hT h
    · rw [if_neg (by simpa using hT)]
      by_cases hempty : nonterminals = [] ∧ rules = []
      · rw [if_pos (by simpa [List.isEmpty_iff] using hempty)]
        constructor
        · intro h
          cases h
          exact ⟨rfl, .inr ⟨hT, hempty⟩⟩
        · rintro ⟨rfl, -⟩
          rfl
      · rw [if_neg (by simpa [List.isEmpty_iff] using hempty)]
        constructor
        · intro h
          cases h
        · rintro ⟨rfl, h | ⟨-, h⟩⟩
          · exact absurd h hN
          · exact absurd h hempty

theorem validated_eq_ok_iff {g' : Grammar} : g.validated = .ok g' ↔ g.Valid ∧ g' = g := by
  rw [validated, ← defect?_eq_none_iff]
  cases g.defect? <;> simp [eq_comm]

theorem mapError_eq_ok_iff {ε ε' α : Type} {f : ε → ε'} {x : Except ε α} {a : α} :
    x.mapError f = .ok a ↔ x = .ok a := by
  cases x <;> simp [Except.mapError]

/-- The fields of a literal. -/
def literalKeys : List String := ["VN", "VT", "P", "S"]

/-- The grammars that a literal can say: they are valid, nothing has the name that marks an empty
right side, and the start symbol of an empty grammar does not have the name of a terminal. -/
structure Readable (g : Grammar) : Prop where
  valid : g.Valid
  epsilon_unused : epsilon ∉ g.symbolNames
  start_unused : g.isEmpty = true → ⟨g.start.name⟩ ∉ g.terminals

/-- What a value has to be to say the parts of a grammar. -/
theorem ofLiteral_eq_ok_iff_parts : ofLiteral d = .ok g ↔
    ∃ nonterminals terminals productions start rules A,
      d.field? "VN" = some (.ofStrings nonterminals) ∧ d.field? "VT" = some (.ofStrings terminals) ∧
      d.field? "P" = some (.array productions) ∧ d.field? "S" = some (.string start) ∧
      (epsilon ∉ nonterminals ∧ epsilon ∉ terminals) ∧
      productions.mapM (ruleOfLiteral nonterminals terminals) = .ok rules ∧
      startOfLiteral nonterminals terminals rules start = .ok A ∧ g.Valid ∧
      g = ⟨A, rules, nonterminals.map .mk, terminals.map .mk⟩ := by
  unfold ofLiteral
  simp only [bind_eq_ok_iff, literalField_eq_ok_iff, literalNames_eq_ok_iff]
  constructor
  · rintro ⟨_, hVN, _, hVT, P, hP, S, hS, N, rfl, T, rfl, h⟩
    split at h
    · next productions start =>
      split at h
      · cases h
      · next hepsilon =>
        obtain ⟨rules, hrules, h'⟩ := bind_eq_ok_iff.mp h
        obtain ⟨A, hA, hchecked⟩ := bind_eq_ok_iff.mp h'
        obtain ⟨hvalid, rfl⟩ := validated_eq_ok_iff.mp (mapError_eq_ok_iff.mp hchecked)
        exact ⟨N, T, productions, start, rules, A, hVN, hVT, hP, hS, by simpa using hepsilon,
          hrules, hA, hvalid, rfl⟩
    · cases h
    · cases h
  · rintro ⟨N, T, P, S, rules, A, hVN, hVT, hP, hS, hepsilon, hrules, hA, hvalid, rfl⟩
    refine ⟨_, hVN, _, hVT, _, hP, _, hS, N, rfl, T, rfl, ?_⟩
    show (if _ then _ else _) = _
    rw [if_neg (by simpa using hepsilon)]
    refine bind_eq_ok_iff.mpr ⟨rules, hrules, bind_eq_ok_iff.mpr ⟨A, hA, ?_⟩⟩
    exact mapError_eq_ok_iff.mpr (validated_eq_ok_iff.mpr ⟨hvalid, rfl⟩)

theorem forall_literalKeys_iff {d d' : Json} :
    (∀ key ∈ literalKeys, d.field? key = d'.field? key) ↔
      d.field? "VN" = d'.field? "VN" ∧ d.field? "VT" = d'.field? "VT" ∧
        d.field? "P" = d'.field? "P" ∧ d.field? "S" = d'.field? "S" := by
  simp [literalKeys]

theorem Valid.named (hg : g.Valid) (hX : g.declares X = true) :
    Named (g.nonterminals.map Nonterminal.name) (g.terminals.map Terminal.name) X := by
  cases X with
  | nonterminal A => exact List.mem_map_of_mem (declares_nonterminal.mp hX)
  | terminal a =>
    have ha : a ∈ g.terminals := by simpa [declares] using hX
    refine ⟨List.mem_map_of_mem ha, fun hname => ?_⟩
    obtain ⟨A, hA, heq⟩ := List.mem_map.mp hname
    exact hg.names_disjoint A hA a ha heq

/-- A value is the literal of a grammar just if a literal can say the grammar and the value has the
four fields that are written for it. -/
theorem ofLiteral_eq_ok_iff : ofLiteral d = .ok g ↔
    g.Readable ∧ ∀ key ∈ literalKeys, d.field? key = g.toLiteral.field? key := by
  rw [forall_literalKeys_iff, ofLiteral_eq_ok_iff_parts]
  constructor
  · rintro ⟨N, T, P, S, rules, A, hVN, hVT, hP, hS, ⟨hN, hT⟩, hrules, hA, hvalid, rfl⟩
    obtain ⟨rfl, -⟩ :=
      (mapM_eq_ok_iff ruleLiteral fun _ _ => ruleOfLiteral_eq_ok_iff hN hT).mp hrules
    obtain ⟨rfl, hstart⟩ := startOfLiteral_eq_ok_iff.mp hA
    have hnonterminals : (N.map Nonterminal.mk).map Nonterminal.name = N := by
      simp [Function.comp_def]
    have hterminals : (T.map Terminal.mk).map Terminal.name = T := by
      simp [Function.comp_def]
    refine ⟨⟨hvalid, ?_, fun hempty hmem => ?_⟩, ?_, ?_, hP, hS⟩
    · rw [symbolNames, hnonterminals, hterminals, List.mem_append]
      exact not_or.mpr ⟨hN, hT⟩
    · have hnil : N = [] := by simpa using (isEmpty_iff.mp hempty).1
      have hnot := hstart.resolve_left (by simp [hnil])
      exact hnot.1 (by simpa using hmem)
    · rw [hVN]
      show _ = some (Json.ofStrings ((N.map Nonterminal.mk).map Nonterminal.name))
      rw [hnonterminals]
    · rw [hVT]
      show _ = some (Json.ofStrings ((T.map Terminal.mk).map Terminal.name))
      rw [hterminals]
  · rintro ⟨⟨hvalid, hepsilon, hstart⟩, hVN, hVT, hP, hS⟩
    rw [symbolNames, List.mem_append, not_or] at hepsilon
    refine ⟨_, _, _, _, g.rules, g.start, hVN, hVT, hP, hS, hepsilon, ?_, ?_, hvalid, ?_⟩
    · refine (mapM_eq_ok_iff ruleLiteral fun _ _ =>
        ruleOfLiteral_eq_ok_iff hepsilon.1 hepsilon.2).mpr
        ⟨rfl, fun r hr => ⟨List.mem_map_of_mem (hvalid.left_declared r hr), fun X hX => ?_⟩⟩
      exact hvalid.named (hvalid.right_declared r hr X hX)
    · refine startOfLiteral_eq_ok_iff.mpr ⟨rfl, ?_⟩
      rcases hvalid.start_declared with hempty | hdeclared
      · obtain ⟨hnil, hrules⟩ := isEmpty_iff.mp hempty
        refine .inr ⟨fun hname => ?_, by rw [hnil]; rfl, hrules⟩
        obtain ⟨a, ha, heq⟩ := List.mem_map.mp hname
        exact hstart hempty (heq ▸ ha)
      · exact .inl (List.mem_map_of_mem hdeclared)
    · simp [Function.comp_def]

end Grammar

end Chomsky

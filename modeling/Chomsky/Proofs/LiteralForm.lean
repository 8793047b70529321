import Chomsky.Proofs.ChomskyNormalForm
import Chomsky.Proofs.CompactDocument
import Chomsky.Proofs.ShownValues

/-!
# Well-formed literals

Which values are literals is said here without the reader: `WellFormedLiteral`. The reader accepts
these and finds all other values malformed, but for those that its message cannot show
(`loadLiteral_outcome`). What is written for a valid grammar is read back as this grammar or not at
all, and a literal is written again with the fields with which it was read (`literal_roundTrip`).
-/

namespace Chomsky

theorem Nonterminal.name_injective : Function.Injective Nonterminal.name := fun A B h => by
  cases A
  cases B
  exact congrArg _ h

theorem Terminal.name_injective : Function.Injective Terminal.name := fun a b h => by
  cases a
  cases b
  exact congrArg _ h

namespace Grammar

variable {d : Json} {g g' : Grammar} {X : Symbol} {nonterminals terminals : List String}

/-- A pair of a nonterminal and a list of names: declared ones, or the mark for none. -/
def WellFormedProduction (nonterminals terminals : List String) (p : Json) : Prop :=
  ∃ left right, p = .array [.string left, .ofStrings right] ∧ left ∈ nonterminals ∧ right ≠ [] ∧
    (right = [epsilon] ∨ ∀ name ∈ right, name ∈ nonterminals ∨ name ∈ terminals)

/-- An object with lists of names that are all different and do not have the mark for an empty right
side among them, with productions over these names, and with the name of a nonterminal as start
symbol. If there are no nonterminals and no productions any name will do that is not a terminal. -/
def WellFormedLiteral (d : Json) : Prop :=
  ∃ nonterminals terminals productions start,
    d.field? "VN" = some (.ofStrings nonterminals) ∧ d.field? "VT" = some (.ofStrings terminals) ∧
    d.field? "P" = some (.array productions) ∧ d.field? "S" = some (.string start) ∧
    nonterminals.Nodup ∧ terminals.Nodup ∧ (∀ name ∈ nonterminals, name ∉ terminals) ∧
    epsilon ∉ nonterminals ∧ epsilon ∉ terminals ∧
    (∀ p ∈ productions, WellFormedProduction nonterminals terminals p) ∧
    (start ∈ nonterminals ∨ nonterminals = [] ∧ productions = [] ∧ start ∉ terminals)

theorem WellFormedLiteral.congr {d' : Json}
    (h : ∀ key ∈ literalKeys, d.field? key = d'.field? key) (hd : WellFormedLiteral d') :
    WellFormedLiteral d := by
  obtain ⟨hVN, hVT, hP, hS⟩ := forall_literalKeys_iff.mp h
  unfold WellFormedLiteral
  rw [hVN, hVT, hP, hS]
  exact hd

/-! ## What is accepted -/

/-- The symbol that a name means in a literal. -/
def meaning (nonterminals : List String) (name : String) : Symbol :=
  if name ∈ nonterminals then .nonterminal ⟨name⟩ else .terminal ⟨name⟩

@[simp] theorem name_meaning (name : String) : (meaning nonterminals name).name = name := by
  unfold meaning
  split <;> rfl

theorem named_meaning {name : String} (h : name ∈ nonterminals ∨ name ∈ terminals) :
    Named nonterminals terminals (meaning nonterminals name) := by
  unfold meaning
  split
  · next hN => exact hN
  · next hN => exact ⟨h.resolve_left hN, hN⟩

theorem wellFormedProduction_iff {p : Json} :
    WellFormedProduction nonterminals terminals p ↔ ∃ r, p = ruleLiteral r ∧
      r.left.name ∈ nonterminals ∧ ∀ X ∈ r.right, Named nonterminals terminals X := by
  simp only [ruleLiteral_eq]
  constructor
  · rintro ⟨left, right, rfl, hleft, hne, rfl | hright⟩
    · exact ⟨⟨⟨left⟩, []⟩, rfl, hleft, by simp⟩
    · refine ⟨⟨⟨left⟩, right.map (meaning nonterminals)⟩, ?_, hleft, fun X hX => ?_⟩
      · have hmap : (right.map (meaning nonterminals)).map Symbol.name = right := by
          simp [Function.comp_def]
        rw [rightNames, List.isEmpty_map, if_neg (by simpa using hne), hmap]
      · obtain ⟨name, hmem, rfl⟩ := List.mem_map.mp hX
        exact named_meaning (hright name hmem)
  · rintro ⟨⟨A, right⟩, rfl, hleft, hright⟩
    refine ⟨A.name, rightNames right, rfl, hleft, ?_, ?_⟩
    · cases right <;> simp [rightNames]
    · cases right with
      | nil => exact .inl rfl
      | cons X right =>
        refine .inr fun name hname => ?_
        obtain ⟨Y, hY, rfl⟩ := List.mem_map.mp hname
        exact (hright Y hY).mem

theorem exists_rules {productions : List Json}
    (h : ∀ p ∈ productions, WellFormedProduction nonterminals terminals p) :
    ∃ rules : List Rule, productions = rules.map ruleLiteral ∧ ∀ r ∈ rules,
      r.left.name ∈ nonterminals ∧ ∀ X ∈ r.right, Named nonterminals terminals X := by
  induction productions with
  | nil => exact ⟨[], rfl, by simp⟩
  | cons p productions ih =>
    obtain ⟨hp, hrest⟩ := List.forall_mem_cons.mp h
    obtain ⟨r, rfl, hr⟩ := wellFormedProduction_iff.mp hp
    obtain ⟨rules, rfl, hrules⟩ := ih hrest
    exact ⟨r :: rules, rfl, List.forall_mem_cons.mpr ⟨hr, hrules⟩⟩

theorem declares_of_named (hN : g.nonterminals = nonterminals.map .mk)
    (hT : g.terminals = terminals.map .mk) (h : Named nonterminals terminals X) :
    g.declares X = true := by
  cases X with
  | nonterminal A =>
    rw [declares_nonterminal, hN]
    exact List.mem_map_of_mem h
  | terminal a =>
    rw [declares, hT, List.contains_iff_mem]
    exact List.mem_map_of_mem h.1

/-- A well-formed literal says a grammar. -/
theorem WellFormedLiteral.exists_readable (h : WellFormedLiteral d) :
    ∃ g : Grammar, g.Readable ∧ ∀ key ∈ literalKeys, d.field? key = g.toLiteral.field? key := by
  obtain ⟨N, T, P, S, hVN, hVT, hP, hS, hN, hT, hdisjoint, hεN, hεT, hproductions, hstart⟩ := h
  obtain ⟨rules, rfl, hrules⟩ := exists_rules hproductions
  have hnamesN : (N.map Nonterminal.mk).map Nonterminal.name = N := by simp [Function.comp_def]
  have hnamesT : (T.map Terminal.mk).map Terminal.name = T := by simp [Function.comp_def]
  refine ⟨⟨⟨S⟩, rules, N.map .mk, T.map .mk⟩, ⟨?_, ?_, fun hempty => ?_⟩, ?_⟩
  · constructor
    · exact hN.map fun _ _ => Nonterminal.mk.inj
    · exact hT.map fun _ _ => Terminal.mk.inj
    · intro A hA a ha hname
      obtain ⟨name, hmem, rfl⟩ := List.mem_map.mp hA
      obtain ⟨name', hmem', rfl⟩ := List.mem_map.mp ha
      obtain rfl : name = name' := hname
      exact hdisjoint name hmem hmem'
    · rcases hstart with hmem | ⟨rfl, hnone, -⟩
      · exact .inr (List.mem_map_of_mem hmem)
      · exact .inl (isEmpty_iff.mpr ⟨rfl, List.map_eq_nil_iff.mp hnone⟩)
    · exact fun r hr => List.mem_map_of_mem (hrules r hr).1
    · exact fun r hr X hX => declares_of_named rfl rfl ((hrules r hr).2 X hX)
  · rw [symbolNames, hnamesN, hnamesT, List.mem_append]
    exact not_or.mpr ⟨hεN, hεT⟩
  · obtain rfl : N = [] := by simpa using (isEmpty_iff.mp hempty).1
    obtain ⟨-, -, hS'⟩ := hstart.resolve_left List.not_mem_nil
    simpa using hS'
  · rw [forall_literalKeys_iff, hVN, hVT, hP, hS]
    refine ⟨?_, ?_, rfl, rfl⟩
    · show some (Json.ofStrings N) = some (Json.ofStrings ((N.map Nonterminal.mk).map _))
      rw [hnamesN]
    · show some (Json.ofStrings T) = some (Json.ofStrings ((T.map Terminal.mk).map _))
      rw [hnamesT]

/-- What is written for a grammar that a literal can say is well formed. -/
theorem Readable.wellFormed (h : g.Readable) : WellFormedLiteral g.toLiteral := by
  obtain ⟨hvalid, hepsilon, hstart⟩ := h
  rw [symbolNames, List.mem_append, not_or] at hepsilon
  refine ⟨_, _, _, _, rfl, rfl, rfl, rfl, ?_, ?_, ?_, hepsilon.1, hepsilon.2, fun p hp => ?_, ?_⟩
  · exact hvalid.nonterminals_nodup.map Nonterminal.name_injective
  · exact hvalid.terminals_nodup.map Terminal.name_injective
  · intro name hN hT
    obtain ⟨A, hA, rfl⟩ := List.mem_map.mp hN
    obtain ⟨a, ha, hname⟩ := List.mem_map.mp hT
    exact hvalid.names_disjoint A hA a ha hname.symm
  · obtain ⟨r, hr, rfl⟩ := List.mem_map.mp hp
    refine wellFormedProduction_iff.mpr ⟨r, rfl, ?_, fun X hX => ?_⟩
    · exact List.mem_map_of_mem (hvalid.left_declared r hr)
    · exact hvalid.named (hvalid.right_declared r hr X hX)
  · rcases hvalid.start_declared with hempty | hdeclared
    · obtain ⟨hnil, hrules⟩ := isEmpty_iff.mp hempty
      refine .inr ⟨by rw [hnil]; rfl, by rw [hrules]; rfl, fun hname => ?_⟩
      obtain ⟨a, ha, heq⟩ := List.mem_map.mp hname
      exact hstart hempty (heq ▸ ha)
    · exact .inl (List.mem_map_of_mem hdeclared)

theorem exists_ofLiteral_iff : (∃ g, ofLiteral d = .ok g) ↔ WellFormedLiteral d := by
  constructor
  · intro h
    obtain ⟨g, hg⟩ := h
    obtain ⟨hreadable, hfields⟩ := ofLiteral_eq_ok_iff.mp hg
    exact hreadable.wellFormed.congr hfields
  · intro h
    obtain ⟨g, hg⟩ := h.exists_readable
    exact ⟨g, ofLiteral_eq_ok_iff.mpr hg⟩

/-! ## What comes of the other values -/

variable {error : LiteralError} {room spare : Nat}

/-- The fault of a message is one of the value that the message is about. -/
theorem fault_of_shown (h : ofLiteral d = .error error) {fault : Json.ShowFault}
    (hfault : error.shown.findSome? (Json.showFault? room) = some fault) :
    fault.Of room d.hasLongInteger d.levels := by
  obtain ⟨v, hv, hshow⟩ := List.exists_of_findSome?_eq_some hfault
  have hpart : v.Part d := showsOnly_ofLiteral d error h v hv
  have hexplains := v.explains_showFault? room
  rw [hshow] at hexplains
  cases fault with
  | longInteger => exact hpart.hasLongInteger hexplains
  | tooDeep => exact Nat.lt_of_lt_of_le hexplains hpart.levels_le

/-- A value is accepted just if it is a well-formed literal. Any other value is malformed in some
way, and found so if the message can show all that it is to show. It cannot only if the value has an
integer of too many digits, or more levels than there is room for; then this is the fault. -/
theorem loadLiteral_outcome (spare : Nat) (d : Json) :
    ((∃ g, loadLiteral spare d = .ok g) ↔ WellFormedLiteral d) ∧
      (¬WellFormedLiteral d → ∃ error, ofLiteral d = .error error ∧
        ((∀ v ∈ error.shown, v.showFault? (productionLevels + spare) = none) ∧
            loadLiteral spare d = .error (.malformed error) ∨
          ∃ fault, error.shown.findSome? (Json.showFault? (productionLevels + spare)) = some fault ∧
            fault.Of (productionLevels + spare) d.hasLongInteger d.levels ∧
            loadLiteral spare d = .error (.unshown fault))) := by
  constructor
  · rw [← exists_ofLiteral_iff]
    exact exists_congr fun g => mapError_eq_ok_iff
  · intro h
    cases hread : ofLiteral d with
    | ok g => exact absurd (exists_ofLiteral_iff.mp ⟨g, hread⟩) h
    | error error =>
      refine ⟨error, rfl, ?_⟩
      rw [loadLiteral, hread, Except.mapError, LiteralError.fault]
      cases hfault : error.shown.findSome? (Json.showFault? (productionLevels + spare)) with
      | none => exact .inl ⟨List.findSome?_eq_none_iff.mp hfault, rfl⟩
      | some fault => exact .inr ⟨fault, rfl, fault_of_shown hread hfault, rfl⟩

/-- A literal but for one thing: the name of a nonterminal is a number. -/
def numbered (n : Nat) : Json :=
  .object [("VN", .array [.int n]), ("VT", .array []), ("P", .array []), ("S", .string "S")]

theorem ofLiteral_numbered (n : Nat) :
    ofLiteral (numbered n) = .error (.nameExpected .nonterminals (.int n)) := rfl

theorem loadLiteral_numbered {n : Nat} (hn : 10 ^ Text.maxIntegerDigits ≤ n) (spare : Nat) :
    loadLiteral spare (numbered n) = .error (.unshown .longInteger) := by
  have hlong : (Json.int n).hasLongInteger = true := decide_eq_true (Json.longInteger_iff.mpr hn)
  have hroom : productionLevels + spare = (2 + spare) + 1 := by
    rw [productionLevels]
    omega
  rw [loadLiteral, ofLiteral_numbered, Except.mapError, LiteralError.fault, LiteralError.shown,
    NameList.shown, List.nil_append, List.findSome?_cons, hroom, Json.showFault?, if_pos hlong]

/-- With the least number of too many digits this is no literal, and yet it is never found
malformed. -/
theorem numbered_unshown :
    ¬WellFormedLiteral (numbered (10 ^ Text.maxIntegerDigits)) ∧
      ∀ spare, loadLiteral spare (numbered (10 ^ Text.maxIntegerDigits)) =
          .error (.unshown .longInteger) ∧
        ¬∃ error, loadLiteral spare (numbered (10 ^ Text.maxIntegerDigits)) =
          .error (.malformed error) := by
  refine ⟨fun h => ?_, fun spare => ⟨loadLiteral_numbered le_rfl spare, fun h => ?_⟩⟩
  · obtain ⟨g, hg⟩ := exists_ofLiteral_iff.mpr h
    cases (ofLiteral_numbered _).symm.trans hg
  · obtain ⟨error, herror⟩ := h
    cases (loadLiteral_numbered le_rfl spare).symm.trans herror

/-! ## There and back -/

theorem ofStrings_inj {names names' : List String} (h : Json.ofStrings names = .ofStrings names') :
    names = names' :=
  List.map_injective_iff.mpr (fun _ _ => Json.string.inj) (Json.array.inj h)

/-- What is written for any other valid grammar is not well formed. -/
theorem Valid.readable_of_wellFormed (hg : g.Valid) (h : WellFormedLiteral g.toLiteral) :
    g.Readable := by
  obtain ⟨N, T, P, S, hVN, hVT, hP, hS, -, -, -, hεN, hεT, -, hstart⟩ := h
  obtain rfl : g.nonterminals.map Nonterminal.name = N := ofStrings_inj (Option.some.inj hVN)
  obtain rfl : g.terminals.map Terminal.name = T := ofStrings_inj (Option.some.inj hVT)
  obtain rfl : g.start.name = S := Json.string.inj (Option.some.inj hS)
  refine ⟨hg, ?_, fun hempty hmem => ?_⟩
  · rw [symbolNames, List.mem_append]
    exact not_or.mpr ⟨hεN, hεT⟩
  · have hnil : g.nonterminals.map Nonterminal.name = [] := by rw [(isEmpty_iff.mp hempty).1]; rfl
    obtain ⟨-, -, hnot⟩ := hstart.resolve_left (by simp [hnil])
    exact hnot (List.mem_map_of_mem hmem)

theorem ofLiteral_toLiteral_iff (hg : g.Valid) :
    ofLiteral g.toLiteral = .ok g' ↔ g.Readable ∧ g' = g := by
  constructor
  · intro h
    obtain ⟨hreadable, hfields⟩ := ofLiteral_eq_ok_iff.mp h
    have hg' := hg.readable_of_wellFormed (hreadable.wellFormed.congr hfields)
    have hsame : ofLiteral g.toLiteral = .ok g := ofLiteral_eq_ok_iff.mpr ⟨hg', fun _ _ => rfl⟩
    rw [hsame] at h
    exact ⟨hg', (Except.ok.inj h).symm⟩
  · rintro ⟨hreadable, rfl⟩
    exact ofLiteral_eq_ok_iff.mpr ⟨hreadable, fun _ _ => rfl⟩

theorem exists_field {key : String} (h : key ∈ literalKeys) :
    ∃ value, g.toLiteral.field? key = some value := by
  simp only [literalKeys, List.mem_cons, List.not_mem_nil, or_false] at h
  rcases h with rfl | rfl | rfl | rfl <;> exact ⟨_, rfl⟩

/-- A literal is read back as the grammar that it was written for or not at all, and written again
as it was read. -/
theorem literal_roundTrip :
    (∀ g : Grammar, g.Valid →
      (ofLiteral g.toLiteral = .ok g ↔
        epsilon ∉ g.symbolNames ∧ (g.isEmpty = true → ⟨g.start.name⟩ ∉ g.terminals)) ∧
      (ofLiteral g.toLiteral ≠ .ok g → ∃ fault, ofLiteral g.toLiteral = .error fault)) ∧
    ∀ (d : Json) (g : Grammar), ofLiteral d = .ok g → ∀ key ∈ literalKeys,
      ∃ value, d.field? key = some value ∧ g.toLiteral.field? key = some value := by
  refine ⟨fun g hg => ⟨?_, fun hne => ?_⟩, fun d g h key hkey => ?_⟩
  · rw [ofLiteral_toLiteral_iff hg, and_iff_left rfl]
    exact ⟨fun h => ⟨h.epsilon_unused, h.start_unused⟩, fun h => ⟨hg, h.1, h.2⟩⟩
  · cases h : ofLiteral g.toLiteral with
    | error fault => exact ⟨fault, rfl⟩
    | ok g' =>
      obtain ⟨hreadable, rfl⟩ := (ofLiteral_toLiteral_iff hg).mp h
      exact absurd h hne
  · obtain ⟨-, hfields⟩ := ofLiteral_eq_ok_iff.mp h
    obtain ⟨value, hvalue⟩ := exists_field hkey
    exact ⟨value, (hfields key hkey).trans hvalue, hvalue⟩

/-- A terminal with the name that marks an empty right side. -/
def marked : Grammar where
  start := ⟨"S"⟩
  rules := [⟨⟨"S"⟩, [.terminal ⟨epsilon⟩]⟩]
  nonterminals := [⟨"S"⟩]
  terminals := [⟨epsilon⟩]

/-- A literal with its fields in another order, and one field more. -/
def unordered : Json :=
  .object [("S", .string "S"), ("P", .array [.array [.string "S", .ofStrings [epsilon]]]),
    ("note", .null), ("VT", .ofStrings []), ("VN", .ofStrings ["S"])]

/-- The brackets are read back. A terminal that looks like an empty right side is refused, and not
read as one. -/
theorem literal_roundTrip_brackets :
    ofLiteral brackets.toLiteral = .ok brackets ∧
      (∃ fault, ofLiteral marked.toLiteral = .error fault) ∧
      ∃ g, ofLiteral unordered = .ok g ∧
        ∃ value, unordered.field? "P" = some value ∧ g.toLiteral.field? "P" = some value := by
  obtain ⟨hthere, hback⟩ := literal_roundTrip
  have hmarked : marked.Valid := defect?_eq_none_iff.mp (by cbv)
  have hunordered : ofLiteral unordered = .ok ⟨⟨"S"⟩, [⟨⟨"S"⟩, []⟩], [⟨"S"⟩], []⟩ := by cbv
  refine ⟨(hthere brackets valid_brackets).1.mpr (by decide), (hthere marked hmarked).2 fun h => ?_,
    _, hunordered, hback _ _ hunordered "P" (by decide)⟩
  exact ((hthere marked hmarked).1.mp h).1 (by decide)

end Grammar

end Chomsky

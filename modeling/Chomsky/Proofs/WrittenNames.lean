import Chomsky.Proofs.EventLog
import Chomsky.Proofs.GrammarDocument
import Chomsky.Proofs.Milestones

/-!
# The names that a normalization writes

The names in the result of a normalization and in its milestones are those of the grammar, that of a
new start symbol, and numbers behind the stem (`namesFrom_result`, `namesFrom_milestones`). Besides
them, the lines of the log and the document of the result hold nothing but characters of the basic
plane (`drawn_line`, `drawn_write`).
-/

namespace Chomsky

/-! ## Names -/

/-- The names that are told with a milestone. -/
def Milestone.names : Milestone → List String
  | start _ => []
  | phase _ (.epsilon nullable) => nullable.map Symbol.name
  | phase _ .unary => []
  | phase _ .useless => []
  | phase _ (.binarize introduced) => introduced.map Nonterminal.name
  | emptyLanguage A => [A.name]
  | done _ => []

namespace Grammar

variable {g r u v p : Grammar} {config : Config} {stem name : String} {m : Milestone}
  {result : Except Failure Grammar} {log : List Milestone}

/-- The names in a grammar, that of the start symbol in front, whether it is declared or not. -/
def names (g : Grammar) : List String := g.start.name :: g.symbolNames

/-- The names that a normalization may use. -/
inductive NameFrom (g : Grammar) (stem : String) : String → Prop
  | old {name : String} (h : name ∈ g.names) : g.NameFrom stem name
  | freshStart : g.NameFrom stem g.freshStart.name
  | numbered (n : Nat) : g.NameFrom stem (stem ++ toString n)

theorem nameFrom_of_declared {A : Nonterminal} (hA : A ∈ g.nonterminals) :
    g.NameFrom stem A.name :=
  .old (List.mem_cons_of_mem _ (mem_symbolNames.mpr (.inl hA)))

theorem nameFrom_of_start {A : Nonterminal} (hA : A = g.start ∨ A = g.freshStart) :
    g.NameFrom stem A.name := by
  rcases hA with rfl | rfl
  · exact .old List.mem_cons_self
  · exact .freshStart

theorem Stages.nameFrom {hstem : config.stem ≠ ""} {new : Augmentation} {X : Nonterminal}
    (h : g.Stages config hstem new p r) (hX : X ∈ r.nonterminals) :
    g.NameFrom config.stem X.name := by
  rcases h.name_cases hX with hold | rfl | ⟨n, hname⟩
  · exact nameFrom_of_declared hold
  · exact .freshStart
  · rw [hname]
    exact .numbered n

theorem namesFrom_result (h : (g.normalize config).result = .ok r) :
    ∀ name ∈ r.names, g.NameFrom config.stem name := by
  obtain ⟨hstem, new, p, hstages⟩ := stages_of_ok h
  have hr := normalizesTo_of_ok h
  intro name hname
  rcases List.mem_cons.mp hname with rfl | hname
  · have hstart : r.start = new.start := by
      rw [eq_of_uniqueIf hstages.finished]
      exact hstages.start_eq
    exact nameFrom_of_start (hstart ▸ hstages.augments.start_cases)
  · rcases mem_symbolNames.mp hname with hN | hT
    · exact hstages.nameFrom hN
    · rw [hr.terminals_eq] at hT
      exact .old (List.mem_cons_of_mem _ (mem_symbolNames.mpr (.inr hT)))

theorem Valid.nameFrom_nullable (hg : g.Valid) :
    ∀ name ∈ (Symbol.sort g.nullable).map Symbol.name, g.NameFrom stem name := by
  rw [List.forall_mem_map]
  intro X hX
  obtain ⟨A, hA, rfl, -⟩ := hg.mem_nullable_iff_derives.mp (List.mem_mergeSort.mp hX)
  exact nameFrom_of_declared hA

theorem Passes.namesFrom (h : g.Passes config u v p) (hm : m ∈ g.reductionLog u v p) :
    ∀ name ∈ m.names, g.NameFrom stem name := by
  simp only [reductionLog, List.mem_cons, List.not_mem_nil, or_false] at hm
  rcases hm with rfl | rfl | rfl | rfl
  · exact List.forall_mem_nil _
  · exact h.valid.nameFrom_nullable
  · exact List.forall_mem_nil _
  · exact List.forall_mem_nil _

theorem Log.namesFrom (h : g.Log config result log) (hresult : (g.normalize config).result = result)
    (hm : m ∈ log) : ∀ name ∈ m.names, g.NameFrom config.stem name := by
  cases h with
  | malformed | emptyStem => exact absurd hm List.not_mem_nil
  | overLimit | startTaken =>
    obtain rfl := List.mem_singleton.mp hm
    exact nofun
  | emptyLanguage h =>
    rcases List.mem_append.mp hm with hm | hm
    · exact h.namesFrom hm
    · obtain rfl := List.mem_singleton.mp hm
      exact List.forall_mem_singleton.mpr (nameFrom_of_start h.start_cases)
  | stemTaken _ h => exact h.namesFrom hm
  | @done _ _ _ r h =>
    have hnames := namesFrom_result hresult
    simp only [List.mem_append, List.mem_cons, List.not_mem_nil, or_false] at hm
    rcases hm with hm | hm | rfl | rfl
    · exact h.namesFrom hm
    · obtain rfl : m = .emptyLanguage r.start := by
        split at hm
        · exact List.mem_singleton.mp hm
        · exact absurd hm List.not_mem_nil
      exact List.forall_mem_singleton.mpr (hnames _ List.mem_cons_self)
    · obtain ⟨hstem, new, p, hstages⟩ := stages_of_ok hresult
      refine List.forall_mem_map.mpr fun X hX => hstages.nameFrom ?_
      exact hstages.introduced_declared hX
    · exact nofun

theorem namesFrom_milestones (g : Grammar) (config : Config)
    (hm : m ∈ (g.normalize config).milestones) :
    ∀ name ∈ m.names, g.NameFrom config.stem name :=
  (log_normalize g config).namesFrom rfl hm

end Grammar

/-! ## Characters -/

/-- The character is in the basic plane, or in one of these names. -/
def Drawn (names : List String) (c : Char) : Prop :=
  c.toNat < 0x10000 ∨ ∃ name ∈ names, c ∈ name.toList

variable {names : List String} {name : String} {c : Char} {cs : List Char}

theorem drawn_of_ascii (h : c.toNat < 0x80) : Drawn names c := .inl (Nat.lt_trans h (by decide))

theorem drawn_word (h : cs.all (·.toNat < 0x10000) = true) : ∀ c ∈ cs, Drawn names c :=
  fun c hc => .inl (of_decide_eq_true (List.all_eq_true.mp h c hc))

theorem drawn_name (hname : name ∈ names) : ∀ c ∈ name.toList, Drawn names c :=
  fun _ hc => .inr ⟨name, hname, hc⟩

namespace Json

theorem Spelt.drawn {known : List Char} (h : Spelt known c) (hknown : ∀ c ∈ known, Drawn names c) :
    Drawn names c :=
  h.2.elim drawn_of_ascii (hknown c)

theorem Laid.drawn {known : List Char} (h : Laid known c) (hknown : ∀ c ∈ known, Drawn names c) :
    Drawn names c := by
  rcases h with rfl | h
  · exact drawn_of_ascii (by decide)
  · exact h.drawn hknown

theorem drawn_array {vs : List Json} (h : ∀ v ∈ vs, ∀ c ∈ v.chars, Drawn names c) :
    ∀ c ∈ (array vs).chars, Drawn names c := by
  change ∀ c ∈ itemsChars vs, Drawn names c
  induction vs with
  | nil => exact nofun
  | cons v vs ih =>
    obtain ⟨hv, hvs⟩ := List.forall_mem_cons.mp h
    rw [itemsChars, List.forall_mem_append]
    exact ⟨hv, ih hvs⟩

/-- The key and the value of the field are drawn from these names. -/
def DrawnField (names : List String) (f : String × Json) : Prop :=
  (∀ c ∈ f.1.toList, Drawn names c) ∧ ∀ c ∈ f.2.chars, Drawn names c

theorem drawnField {key : String} {value : Json} (hkey : key.toList.all (·.toNat < 0x10000) = true)
    (hvalue : ∀ c ∈ value.chars, Drawn names c) : DrawnField names (key, value) :=
  ⟨drawn_word hkey, hvalue⟩

theorem drawn_object {fs : List (String × Json)} (h : ∀ f ∈ fs, DrawnField names f) :
    ∀ c ∈ (object fs).chars, Drawn names c := by
  change ∀ c ∈ fieldsChars fs, Drawn names c
  induction fs with
  | nil => exact nofun
  | cons f fs ih =>
    obtain ⟨hf, hfs⟩ := List.forall_mem_cons.mp h
    rw [fieldsChars, List.forall_mem_append, List.forall_mem_append]
    exact ⟨hf, ih hfs⟩

theorem drawn_ofStrings {l : List String} (h : ∀ s ∈ l, ∀ c ∈ s.toList, Drawn names c) :
    ∀ c ∈ (ofStrings l).chars, Drawn names c :=
  drawn_array (List.forall_mem_map.mpr h)

end Json

open Json

/-! ## The log -/

theorem Summary.drawn_fields (s : Summary) : ∀ f ∈ s.fields, DrawnField names f := by
  simp only [fields, List.forall_mem_cons]
  exact ⟨drawnField rfl nofun, drawnField rfl nofun, drawnField rfl nofun,
    drawnField rfl nofun, drawnField rfl nofun, nofun⟩

theorem Phase.drawn_fields (size : Summary) (p : Phase) :
    ∀ f ∈ p.fields, DrawnField (Milestone.phase size p).names f := by
  have hnames (key : String) (l : List String) (hkey : key.toList.all (·.toNat < 0x10000) = true) :
      DrawnField l (key, .ofStrings l) :=
    drawnField hkey (drawn_ofStrings fun _ hs => drawn_name hs)
  cases p with
  | epsilon nullable =>
    simp only [fields, List.forall_mem_cons]
    exact ⟨drawnField rfl (drawn_word rfl), hnames _ _ rfl, nofun⟩
  | unary => exact List.forall_mem_singleton.mpr (drawnField rfl (drawn_word rfl))
  | useless => exact List.forall_mem_singleton.mpr (drawnField rfl (drawn_word rfl))
  | binarize introduced =>
    simp only [fields, List.forall_mem_cons]
    exact ⟨drawnField rfl (drawn_word rfl), hnames _ _ rfl, nofun⟩

theorem Milestone.drawn_data (m : Milestone) : ∀ c ∈ m.data.chars, Drawn m.names c := by
  cases m with
  | start size => exact drawn_object size.drawn_fields
  | phase size p =>
    exact drawn_object (List.forall_mem_append.mpr ⟨size.drawn_fields, p.drawn_fields size⟩)
  | emptyLanguage A =>
    exact drawn_object (List.forall_mem_singleton.mpr
      (drawnField rfl (drawn_name List.mem_cons_self)))
  | done size => exact drawn_object size.drawn_fields

theorem Milestone.drawn_kind (m : Milestone) : ∀ c ∈ m.kind.toList, Drawn names c := by
  cases m <;> (rw [kind]; exact drawn_word rfl)

/-- In the line for a milestone, no character beyond the basic plane is in anything but a name. -/
theorem drawn_line (now : Event.Timestamp) (m : Milestone) :
    ∀ c ∈ (Event.ofMilestone now m).line.toList, Drawn m.names c := by
  have htime : ∀ c ∈ now.text.toList, Drawn m.names c := fun c hc =>
    drawn_of_ascii (isPrintableAscii_iff.mp
      (Decimal.printable_of_mem_figures (Event.text_subset_figures now hc))).2
  have hcompact : ∀ c ∈ m.data.compact.toList, Drawn m.names c := fun c hc =>
    (spelt_compact m.data c hc).drawn m.drawn_data
  have hfields : ∀ c ∈ (Event.dataFields m.data).flatMap (' ' :: ·), Drawn m.names c := by
    unfold Event.dataFields
    split
    · exact List.forall_mem_nil _
    · rw [List.flatMap_singleton, List.forall_mem_cons]
      exact ⟨drawn_of_ascii (by decide), hcompact⟩
  rw [Event.toList_line, Event.body]
  simp only [List.forall_mem_append, List.forall_mem_cons]
  exact ⟨⟨m.drawn_kind, drawn_of_ascii (by decide), htime, hfields⟩,
    drawn_of_ascii (by decide), List.forall_mem_nil _⟩

/-! ## The result -/

namespace Grammar

variable {r : Grammar}

theorem symbol_name_mem {X : Symbol} (hX : r.declares X = true) :
    X.name ∈ r.names := by
  refine List.mem_cons_of_mem _ (mem_symbolNames.mpr ?_)
  cases X with
  | nonterminal A => exact .inl (declares_nonterminal.mp hX)
  | terminal a => exact .inr (by simpa [declares, Symbol.name] using hX)

theorem Valid.drawn_ruleLiteral (hr : r.Valid) {s : Rule} (hs : s ∈ r.rules) :
    ∀ c ∈ (ruleLiteral s).chars, Drawn r.names c := by
  have hleft : s.left.name ∈ r.names :=
    List.mem_cons_of_mem _ (mem_symbolNames.mpr (.inl (hr.left_declared s hs)))
  refine drawn_array (List.forall_mem_cons.mpr ⟨drawn_name hleft,
    List.forall_mem_singleton.mpr (drawn_ofStrings ?_)⟩)
  split
  · exact List.forall_mem_singleton.mpr (drawn_word rfl)
  · rw [List.forall_mem_map]
    exact fun X hX => drawn_name (symbol_name_mem (hr.right_declared s hs X hX))

/-- In the document of a grammar, no character beyond the basic plane is in anything but a name. -/
theorem Valid.drawn_write (hr : r.Valid) : ∀ c ∈ r.write.toList, Drawn r.names c := by
  have hN : ∀ s ∈ r.nonterminals.map Nonterminal.name, ∀ c ∈ s.toList, Drawn r.names c :=
    fun s hs => drawn_name (List.mem_cons_of_mem _ (List.mem_append_left _ hs))
  have hT : ∀ s ∈ r.terminals.map Terminal.name, ∀ c ∈ s.toList, Drawn r.names c :=
    fun s hs => drawn_name (List.mem_cons_of_mem _ (List.mem_append_right _ hs))
  have hliteral : ∀ c ∈ r.toLiteral.chars, Drawn r.names c := by
    refine drawn_object ?_
    simp only [List.forall_mem_cons]
    exact ⟨drawnField rfl (drawn_ofStrings hN), drawnField rfl (drawn_ofStrings hT),
      drawnField rfl (drawn_array
        (List.forall_mem_map.mpr fun s hs => hr.drawn_ruleLiteral hs)),
      drawnField rfl (drawn_name List.mem_cons_self), nofun⟩
  exact fun c hc => (laid_documentText _ c hc).drawn hliteral

end Grammar

end Chomsky

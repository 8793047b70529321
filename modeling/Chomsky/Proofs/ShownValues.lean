import Chomsky.Proofs.Literal

/-!
# What messages show

A message shows a value unless an integer in it has too many digits or it has more levels than there
is room for, and says which of the two it is (`explains_showFault?`). Messages about a literal show
parts of it (`showsOnly_ofLiteral`), and a part has no digits and no levels that the whole has not.
-/

namespace Chomsky

namespace Json

/-! ## Levels and parts -/

mutual

/-- How many levels a value has. -/
def levels : Json → Nat
  | null => 1
  | bool _ => 1
  | int _ => 1
  | float _ => 1
  | string _ => 1
  | array items => itemsLevels items + 1
  | object fields => fieldsLevels fields + 1

def itemsLevels : List Json → Nat
  | [] => 0
  | v :: rest => max (levels v) (itemsLevels rest)

def fieldsLevels : List (String × Json) → Nat
  | [] => 0
  | (_, v) :: rest => max (levels v) (fieldsLevels rest)

end

/-- The value, or something in it. -/
inductive Part : Json → Json → Prop where
  | whole (v : Json) : Part v v
  | item {v w : Json} {items : List Json} (hitem : w ∈ items) (h : Part v w) : Part v (.array items)
  | field {v w : Json} {fields : List (String × Json)} {key : String} (hfield : (key, w) ∈ fields)
      (h : Part v w) : Part v (.object fields)

variable {u v w : Json} {items : List Json} {fields : List (String × Json)} {room : Nat}

theorem hasLongInteger_of_mem (hmem : v ∈ items) (h : v.hasLongInteger = true) :
    itemsHaveLongInteger items = true := by
  induction items with
  | nil => cases hmem
  | cons w items ih =>
    rw [itemsHaveLongInteger, Bool.or_eq_true]
    rcases List.mem_cons.mp hmem with rfl | hmem
    · exact .inl h
    · exact .inr (ih hmem)

theorem hasLongInteger_of_field {key : String} (hmem : (key, v) ∈ fields)
    (h : v.hasLongInteger = true) : fieldsHaveLongInteger fields = true := by
  induction fields with
  | nil => cases hmem
  | cons f fields ih =>
    rw [fieldsHaveLongInteger, Bool.or_eq_true]
    rcases List.mem_cons.mp hmem with rfl | hmem
    · exact .inl h
    · exact .inr (ih hmem)

theorem levels_le_of_mem (hmem : v ∈ items) : v.levels ≤ itemsLevels items := by
  induction items with
  | nil => cases hmem
  | cons w items ih =>
    rw [itemsLevels]
    rcases List.mem_cons.mp hmem with rfl | hmem
    · exact Nat.le_max_left _ _
    · exact Nat.le_trans (ih hmem) (Nat.le_max_right _ _)

theorem levels_le_of_field {key : String} (hmem : (key, v) ∈ fields) :
    v.levels ≤ fieldsLevels fields := by
  induction fields with
  | nil => cases hmem
  | cons f fields ih =>
    rw [fieldsLevels]
    rcases List.mem_cons.mp hmem with rfl | hmem
    · exact Nat.le_max_left _ _
    · exact Nat.le_trans (ih hmem) (Nat.le_max_right _ _)

theorem Part.hasLongInteger (h : Part v w) (hv : v.hasLongInteger = true) :
    w.hasLongInteger = true := by
  induction h with
  | whole => exact hv
  | item hitem _ ih => exact hasLongInteger_of_mem hitem ih
  | field hfield _ ih => exact hasLongInteger_of_field hfield ih

theorem Part.levels_le (h : Part v w) : v.levels ≤ w.levels := by
  induction h with
  | whole => exact Nat.le_refl _
  | item hitem _ ih => exact Nat.le_succ_of_le (Nat.le_trans ih (levels_le_of_mem hitem))
  | field hfield _ ih => exact Nat.le_succ_of_le (Nat.le_trans ih (levels_le_of_field hfield))

theorem Part.trans (huv : Part u v) (hvw : Part v w) : Part u w := by
  induction hvw with
  | whole => exact huv
  | item hitem _ ih => exact .item hitem ih
  | field hfield _ ih => exact .field hfield ih

theorem Part.of_field? {key : String} (h : w.field? key = some v) : Part v w := by
  cases w with
  | object fields =>
    have hmem : (key, v) ∈ fields := by
      obtain ⟨before, after, rfl, -⟩ := List.lookup_eq_some_iff.mp h
      exact List.mem_append_right _ List.mem_cons_self
    exact .field hmem (.whole v)
  | _ => cases h

/-! ## Showing -/

/-- Whether something has the fault if it has so many levels, with an integer of too many digits or
without one. -/
def ShowFault.Of (room : Nat) (long : Bool) (levels : Nat) : ShowFault → Prop
  | longInteger => long = true
  | tooDeep => room < levels

/-- The fault is one that it has, and there is none only if it has none. -/
def Explains (room : Nat) (long : Bool) (levels : Nat) : Option ShowFault → Prop
  | none => long = false ∧ levels ≤ room
  | some fault => fault.Of room long levels

theorem Explains.or {long long' : Bool} {m n : Nat} {fault fault' : Option ShowFault}
    (h : Explains room long m fault) (h' : Explains room long' n fault') :
    Explains room (long || long') (max m n) (fault.or fault') := by
  cases fault with
  | none =>
    rw [Option.none_or, h.1, Bool.false_or]
    cases fault' with
    | none => exact ⟨h'.1, Nat.max_le.mpr ⟨h.2, h'.2⟩⟩
    | some fault' =>
      cases fault' with
      | longInteger => exact h'
      | tooDeep => exact Nat.lt_of_lt_of_le h' (Nat.le_max_right _ _)
  | some fault =>
    cases fault with
    | longInteger => exact Bool.or_eq_true_iff.mpr (.inl h)
    | tooDeep => exact Nat.lt_of_lt_of_le h (Nat.le_max_left _ _)

theorem Explains.deeper {long : Bool} {n : Nat} {fault : Option ShowFault}
    (h : Explains room long n fault) : Explains (room + 1) long (n + 1) fault := by
  cases fault with
  | none => exact ⟨h.1, Nat.succ_le_succ h.2⟩
  | some fault =>
    cases fault with
    | longInteger => exact h
    | tooDeep => exact Nat.succ_lt_succ h

theorem levels_pos (v : Json) : 0 < v.levels := by
  cases v <;> exact Nat.succ_pos _

theorem explains_zero (v : Json) : Explains 0 v.hasLongInteger v.levels (v.showFault? 0) := by
  rw [showFault?]
  exact v.levels_pos

theorem explains_leaf (hlong : v.hasLongInteger = false) (hlevels : v.levels = 1) :
    Explains (room + 1) v.hasLongInteger v.levels none :=
  ⟨hlong, Nat.le_trans (Nat.le_of_eq hlevels) (Nat.le_add_left 1 room)⟩

mutual

/-- A value is not shown just if it has an integer of too many digits or too many levels, and the
fault is the one of the two that is met first. -/
theorem explains_showFault? : ∀ (room : Nat) (v : Json),
    Explains room v.hasLongInteger v.levels (v.showFault? room)
  | 0, v => explains_zero v
  | _ + 1, null => explains_leaf rfl rfl
  | _ + 1, bool _ => explains_leaf rfl rfl
  | room + 1, int n => by
    rw [showFault?]
    cases h : (int n).hasLongInteger with
    | false => exact ⟨rfl, Nat.succ_le_succ (Nat.zero_le room)⟩
    | true => rfl
  | _ + 1, float _ => explains_leaf rfl rfl
  | _ + 1, string _ => explains_leaf rfl rfl
  | room + 1, array items => (explains_itemsShowFault? room items).deeper
  | room + 1, object fields => (explains_fieldsShowFault? room fields).deeper

theorem explains_itemsShowFault? : ∀ (room : Nat) (items : List Json),
    Explains room (itemsHaveLongInteger items) (itemsLevels items) (itemsShowFault? room items)
  | room, [] => ⟨rfl, Nat.zero_le room⟩
  | room, v :: rest => (explains_showFault? room v).or (explains_itemsShowFault? room rest)

theorem explains_fieldsShowFault? : ∀ (room : Nat) (fields : List (String × Json)),
    Explains room (fieldsHaveLongInteger fields) (fieldsLevels fields)
      (fieldsShowFault? room fields)
  | room, [] => ⟨rfl, Nat.zero_le room⟩
  | room, (_, v) :: rest =>
    (explains_showFault? room v).or (explains_fieldsShowFault? room rest)

end

end Json

open Json

/-! ## What is shown of a literal -/

variable {α β : Type} {P : Json → Prop} {x : Except LiteralError α} {f : α → Except LiteralError β}

/-- If there is an error, its message shows only such values. -/
def ShowsOnly (P : Json → Prop) (x : Except LiteralError α) : Prop :=
  ∀ error, x = .error error → ∀ v ∈ error.shown, P v

theorem showsOnly_ok (a : α) : ShowsOnly P (.ok a : Except LiteralError α) := nofun

theorem showsOnly_error {error : LiteralError} (h : ∀ v ∈ error.shown, P v) :
    ShowsOnly P (.error error : Except LiteralError α) := by
  rintro _ ⟨rfl⟩
  exact h

theorem ShowsOnly.bind (h : ShowsOnly P x) (hf : ∀ a, x = .ok a → ShowsOnly P (f a)) :
    ShowsOnly P (x >>= f) := by
  cases x with
  | error error => exact showsOnly_error (h error rfl)
  | ok a => exact hf a rfl

theorem showsOnly_mapM {as : List β} {read : β → Except LiteralError α}
    (h : ∀ a ∈ as, ShowsOnly P (read a)) : ShowsOnly P (as.mapM read) := by
  induction as with
  | nil => exact showsOnly_ok []
  | cons a as ih =>
    obtain ⟨ha, has⟩ := List.forall_mem_cons.mp h
    rw [List.mapM_cons]
    exact ha.bind fun b _ => (ih has).bind fun bs _ => showsOnly_ok (b :: bs)

theorem ShowsOnly.mono {Q : Json → Prop} (h : ShowsOnly P x) (hPQ : ∀ v, P v → Q v) :
    ShowsOnly Q x :=
  fun error hx v hv => hPQ v (h error hx v hv)

namespace Grammar

variable {d v : Json} {nonterminals terminals : List String}

theorem showsOnly_literalField (key : String) : ShowsOnly P (literalField d key) := by
  unfold literalField
  split
  · split
    · exact showsOnly_ok _
    · exact showsOnly_error nofun
  · exact showsOnly_error nofun

theorem showsOnly_literalNames {place : NameList} (hplace : ∀ w ∈ place.shown, P w)
    (hv : ∀ items, v = .array items → ∀ item ∈ items, P item) :
    ShowsOnly P (literalNames place v) := by
  cases v with
  | array items =>
    refine showsOnly_mapM fun item hitem => ?_
    have hfound : ∀ w ∈ place.shown ++ [item], P w := by
      rw [List.forall_mem_append]
      exact ⟨hplace, List.forall_mem_singleton.mpr (hv items rfl item hitem)⟩
    cases item with
    | string name => exact showsOnly_ok name
    | _ => exact showsOnly_error hfound
  | _ => exact showsOnly_error hplace

theorem showsOnly_literalSymbol (name : String) :
    ShowsOnly P (literalSymbol nonterminals terminals name) := by
  unfold literalSymbol
  split
  · exact showsOnly_ok _
  · split
    · exact showsOnly_ok _
    · exact showsOnly_error nofun

theorem showsOnly_ruleOfLiteral (p : Json) :
    ShowsOnly (Part · p) (ruleOfLiteral nonterminals terminals p) := by
  have hp : ∀ w ∈ [p], Part w p := List.forall_mem_singleton.mpr (.whole p)
  unfold ruleOfLiteral
  split
  · exact showsOnly_error hp
  · next left first rest hhalves =>
    rw [productionHalves?_eq_some_array] at hhalves
    have hright : Part (.array (first :: rest)) p := by
      rw [hhalves]
      exact .item (List.mem_cons_of_mem _ List.mem_cons_self) (.whole _)
    have hnames : ShowsOnly (Part · p) (literalNames (.rightOf p) (.array (first :: rest))) := by
      refine showsOnly_literalNames hp ?_
      rintro _ ⟨rfl⟩ item hitem
      exact (Part.item hitem (.whole item)).trans hright
    refine hnames.bind fun names _ => (showsOnly_literalSymbol left).bind fun X _ => ?_
    cases X with
    | terminal a => exact showsOnly_error hp
    | nonterminal A =>
      dsimp only
      split
      · split
        · exact showsOnly_ok _
        · exact showsOnly_error hp
      · refine (showsOnly_mapM fun name _ => showsOnly_literalSymbol name).bind fun right _ => ?_
        exact showsOnly_ok _
  · exact showsOnly_error hp
  · exact showsOnly_error hp

theorem showsOnly_startOfLiteral (rules : List Rule) (name : String) :
    ShowsOnly P (startOfLiteral nonterminals terminals rules name) := by
  unfold startOfLiteral
  split
  · exact showsOnly_ok _
  · split
    · exact showsOnly_error nofun
    · split
      · exact showsOnly_ok _
      · exact showsOnly_error nofun

theorem showsOnly_validated (g : Grammar) : ShowsOnly P (g.validated.mapError .malformed) := by
  cases g.validated with
  | ok g' => exact showsOnly_ok g'
  | error defect => exact showsOnly_error nofun

/-- What the message about a value shows is in the value. -/
theorem showsOnly_ofLiteral (d : Json) : ShowsOnly (Part · d) (ofLiteral d) := by
  unfold ofLiteral
  refine (showsOnly_literalField "VN").bind fun N hN => ?_
  refine (showsOnly_literalField "VT").bind fun T hT => ?_
  refine (showsOnly_literalField "P").bind fun P hP => ?_
  refine (showsOnly_literalField "S").bind fun S hS => ?_
  rw [literalField_eq_ok_iff] at hN hT hP hS
  have hitems : ∀ {key : String} {v : Json}, d.field? key = some v →
      ∀ items, v = .array items → ∀ item ∈ items, Part item d := by
    rintro key _ hv items rfl item hitem
    exact (Part.item hitem (.whole item)).trans (.of_field? hv)
  refine (showsOnly_literalNames nofun (hitems hN)).bind fun nonterminals _ => ?_
  refine (showsOnly_literalNames nofun (hitems hT)).bind fun terminals _ => ?_
  split
  · next productions start =>
    split
    · exact showsOnly_error nofun
    · have hrules : ShowsOnly (Part · d)
          (productions.mapM (ruleOfLiteral nonterminals terminals)) :=
        showsOnly_mapM fun p hp => (showsOnly_ruleOfLiteral p).mono fun w hw =>
          hw.trans (hitems hP productions rfl p hp)
      refine hrules.bind fun rules _ => ?_
      refine (showsOnly_startOfLiteral rules start).bind fun A _ => ?_
      exact showsOnly_validated _
  · exact showsOnly_error (List.forall_mem_singleton.mpr (.of_field? hS))
  · exact showsOnly_error nofun

end Grammar

end Chomsky

import Chomsky.CommandLine.Options
import Chomsky.Proofs.Literal

/-!
# What a command line sets

A setting that an option has a value for is the last value that the words of an accepted command
line give to the option, and one that an option switches is switched if the option is there at all.
A setting whose option is not there is as it is without any options (`setBy_of_ofArguments`).
-/

namespace Chomsky.CommandLine

/-- The values that the words give to an option, in their order. -/
def Word.values (f : Field) : List Word → List String
  | [] => []
  | .switch (.field given) (some value) :: rest =>
    if given = f then value :: values f rest else values f rest
  | .switch (.field given) none :: .operand value :: rest =>
    if given = f then value :: values f rest else values f rest
  | _ :: rest => values f rest

/-- The value that counts for an option: the last one that is given to it. -/
def Word.value? (f : Field) (words : List Word) : Option String := (values f words).getLast?

/-- Whether an option without a value is among the words. -/
def Word.raises (f : Flag) (words : List Word) : Bool := words.contains (.switch (.flag f) none)

namespace Settings

/-- The settings with what the words set. -/
def changedBy (words : List Word) (c : Settings) : Settings where
  input := (Word.value? .input words).elim c.input fun value => some (.ofString value)
  output := (Word.value? .output words).elim c.output fun value => some (.ofString value)
  log := (Word.value? .log words).elim c.log fun value => some (.ofString value)
  config :=
    { epsilon :=
        { augmentStart := Word.raises .augmentStart words || c.config.epsilon.augmentStart
          maxNullablePositions := (Word.value? .maxNullablePositions words).elim
            c.config.epsilon.maxNullablePositions Text.integer? }
      deduplicate := !Word.raises .noDeduplicate words && c.config.deduplicate
      stem := (Word.value? .freshPrefix words).getD c.config.stem
      allowEmpty := !Word.raises .failOnEmpty words && c.config.allowEmpty }

variable {words rest : List Word} {strays : List String} {c c' s : Settings} {f : Field}
  {value : String}

/-- A word that sets nothing. -/
theorem changedBy_skip (hvalues : ∀ g, Word.values g words = Word.values g rest)
    (hraises : ∀ g, Word.raises g words = Word.raises g rest) :
    changedBy words c = changedBy rest c := by
  simp only [changedBy, Word.value?, hvalues, hraises]

theorem elim_getLast?_cons {α : Type} (g : String → α) (values : List String) (value : String)
    (a : α) : (value :: values).getLast?.elim a g = values.getLast?.elim (g value) g := by
  rw [List.getLast?_cons]
  cases values.getLast? <;> rfl

theorem getD_getLast?_cons (values : List String) (value a : String) :
    (value :: values).getLast?.getD a = values.getLast?.getD value := by
  rw [List.getLast?_cons]
  rfl

theorem changedBy_setField (hc : c.setField f value = .ok c')
    (hvalues : ∀ g, Word.values g words =
      if f = g then value :: Word.values g rest else Word.values g rest)
    (hraises : ∀ g, Word.raises g words = Word.raises g rest) :
    changedBy words c = changedBy rest c' := by
  cases f with
  | maxNullablePositions =>
    rw [setField] at hc
    cases hn : Text.integer? value with
    | none =>
      rw [hn] at hc
      cases hc
    | some n =>
      rw [hn] at hc
      cases hc
      simp [changedBy, Word.value?, hvalues, hraises, elim_getLast?_cons, hn]
  | _ =>
    cases hc
    simp [changedBy, Word.value?, hvalues, hraises, elim_getLast?_cons, getD_getLast?_cons]

theorem changedBy_setFlag (c : Settings) (f : Flag) (rest : List Word) :
    changedBy (.switch (.flag f) none :: rest) c = changedBy rest (c.setFlag f) := by
  have hvalues : ∀ g, Word.values g (.switch (.flag f) none :: rest) = Word.values g rest :=
    fun g => rfl
  cases f <;> simp [changedBy, Word.value?, hvalues, Word.raises, setFlag]

theorem integer_of_setField (hc : c.setField .maxNullablePositions value = .ok c') :
    (Text.integer? value).isSome = true := by
  rw [setField] at hc
  cases hn : Text.integer? value with
  | none =>
    rw [hn] at hc
    cases hc
  | some n => rfl

/-- The values given to the limit are integers. -/
def LimitsRead (words : List Word) : Prop :=
  ∀ value ∈ Word.values .maxNullablePositions words, (Text.integer? value).isSome = true

theorem limitsRead_of_setField (hc : c.setField f value = .ok c') (h : LimitsRead rest)
    (hvalues : ∀ g, Word.values g words =
      if f = g then value :: Word.values g rest else Word.values g rest) : LimitsRead words := by
  rw [LimitsRead, hvalues]
  split
  · next hf =>
    rw [hf] at hc
    exact List.forall_mem_cons.mpr ⟨integer_of_setField hc, h⟩
  · exact h

/-- A value for an option, as a word of its own or as a part of one, is set and the words behind it
are read. -/
theorem eq_changedBy_of_field
    (h : (do Request.ofWords (← c.setField f value) strays rest) = .ok (.normalize s))
    (ih : ∀ c', Request.ofWords c' strays rest = .ok (.normalize s) →
      s = changedBy rest c' ∧ LimitsRead rest)
    (hvalues : ∀ g, Word.values g words =
      if f = g then value :: Word.values g rest else Word.values g rest)
    (hraises : ∀ g, Word.raises g words = Word.raises g rest) :
    s = changedBy words c ∧ LimitsRead words := by
  obtain ⟨c', hc, hrest⟩ := bind_eq_ok_iff.mp h
  obtain ⟨rfl, hlimits⟩ := ih c' hrest
  exact ⟨(changedBy_setField hc hvalues hraises).symm,
    limitsRead_of_setField hc hlimits hvalues⟩

theorem raises_switch_field (g : Flag) (f : Field) (attached : Option String) (rest : List Word) :
    Word.raises g (.switch (.field f) attached :: rest) = Word.raises g rest := by
  simp [Word.raises]

theorem raises_operand (g : Flag) (text : String) (rest : List Word) :
    Word.raises g (.operand text :: rest) = Word.raises g rest := by
  simp [Word.raises]

/-- The words are read from left to right, and each of them sets what it is to set. -/
theorem eq_changedBy (h : Request.ofWords c strays words = .ok (.normalize s)) :
    s = changedBy words c ∧ LimitsRead words := by
  fun_induction Request.ofWords c strays words with
  | case1 c strays hempty =>
    cases h
    exact ⟨rfl, nofun⟩
  | case3 c strays text rest ih =>
    obtain ⟨rfl, hlimits⟩ := ih h
    exact ⟨(changedBy_skip (fun _ => rfl) fun g => raises_operand g text rest).symm, hlimits⟩
  | case4 c strays text rest ih =>
    obtain ⟨rfl, hlimits⟩ := ih h
    exact ⟨(changedBy_skip (fun _ => rfl) fun g => by simp [Word.raises]).symm, hlimits⟩
  | case7 c strays f value rest ih =>
    exact eq_changedBy_of_field h ih (fun _ => rfl) fun g => raises_switch_field g f _ rest
  | case8 c strays f value rest ih =>
    refine eq_changedBy_of_field h ih (fun _ => rfl) fun g => ?_
    rw [raises_switch_field, raises_operand]
  | case12 c strays f rest ih =>
    obtain ⟨rfl, hlimits⟩ := ih h
    exact ⟨(changedBy_setFlag c f rest).symm, hlimits⟩
  | _ => cases h

/-- What the words say is what the settings are. -/
structure SetBy (words : List Word) (s : Settings) : Prop where
  input : s.input = (Word.value? .input words).map .ofString
  output : s.output = (Word.value? .output words).map .ofString
  log : s.log = (Word.value? .log words).map .ofString
  stem : s.config.stem = (Word.value? .freshPrefix words).getD "X"
  limit : s.config.epsilon.maxNullablePositions =
    (Word.value? .maxNullablePositions words).bind Text.integer?
  limits_read : LimitsRead words
  augmentStart : s.config.epsilon.augmentStart = Word.raises .augmentStart words
  deduplicate : s.config.deduplicate = !Word.raises .noDeduplicate words
  allowEmpty : s.config.allowEmpty = !Word.raises .failOnEmpty words

theorem setBy_changedBy (h : LimitsRead words) : SetBy words (changedBy words {}) where
  input := by cases hvalue : Word.value? .input words <;> simp [changedBy, hvalue]
  output := by cases hvalue : Word.value? .output words <;> simp [changedBy, hvalue]
  log := by cases hvalue : Word.value? .log words <;> simp [changedBy, hvalue]
  stem := rfl
  limit := by cases hvalue : Word.value? .maxNullablePositions words <;> simp [changedBy, hvalue]
  limits_read := h
  augmentStart := Bool.or_false _
  deduplicate := Bool.and_true _
  allowEmpty := Bool.and_true _

/-- An accepted command line sets what its words say. -/
theorem setBy_of_ofArguments {args : List String}
    (h : Request.ofArguments args = .ok (.normalize s)) :
    ∃ words, Word.ofStrings args = .ok words ∧ SetBy words s := by
  obtain ⟨words, hwords, hread⟩ := bind_eq_ok_iff.mp h
  obtain ⟨rfl, hlimits⟩ := eq_changedBy hread
  exact ⟨words, hwords, setBy_changedBy hlimits⟩

end Settings

/-! ## Words for options -/

theorem Switch.mem_all (s : Switch) : s ∈ all := by
  cases s with
  | help => decide
  | flag f => cases f <;> decide
  | field f => cases f <;> decide

theorem Switch.ofName?_name (s : Switch) : ofName? s.name = some s :=
  (by decide : ∀ s ∈ all, ofName? s.name = some s) s s.mem_all

theorem Switch.equals_notMem_name (s : Switch) : '=' ∉ s.name.toList :=
  (by decide : ∀ s ∈ all, '=' ∉ s.name.toList) s s.mem_all

theorem Switch.dashes_prefix_name (s : Switch) : ['-', '-'] <+: s.name.toList :=
  (by decide : ∀ s ∈ all, ['-', '-'] <+: s.name.toList) s s.mem_all

/-- The full name of an option is read as the option. -/
theorem Word.ofString_name (s : Switch) : Word.ofString s.name = .ok (.switch s none) := by
  rw [Word.ofString, s.ofName?_name]

theorem Switch.ofName?_of_equals {word : String} (h : '=' ∈ word.toList) :
    Switch.ofName? word = none := by
  have hshort : word ≠ "-h" := by
    rintro rfl
    exact absurd h (by decide)
  rw [Switch.ofName?, if_neg hshort, List.find?_eq_none]
  intro s _ hname
  obtain rfl := of_decide_eq_true hname
  exact s.equals_notMem_name h

theorem Word.splitValue_append {name value : List Char} (h : '=' ∉ name) :
    Word.splitValue (name ++ '=' :: value) = (name, some (String.ofList value)) := by
  have hname : ∀ c ∈ name, decide (c ≠ '=') = true := fun c hc =>
    decide_eq_true (ne_of_mem_of_not_mem hc h)
  rw [Word.splitValue, List.dropWhile_append_of_pos hname, List.takeWhile_append_of_pos hname,
    List.dropWhile_cons_of_neg (by simp), List.takeWhile_cons_of_neg (by simp), List.append_nil]

/-- An option and its value may be one word, with an equals sign between them. -/
theorem Word.ofString_name_value (s : Switch) (value : String) :
    Word.ofString (s.name ++ "=" ++ value) = .ok (.switch s (some value)) := by
  have hlist : (s.name ++ "=" ++ value).toList = s.name.toList ++ '=' :: value.toList := by simp
  have hnone : Switch.ofName? (s.name ++ "=" ++ value) = none :=
    Switch.ofName?_of_equals (by simp)
  have hsplit : Word.splitValue (s.name.toList ++ '=' :: value.toList) = _ :=
    Word.splitValue_append s.equals_notMem_name
  obtain ⟨cs, hcs⟩ := s.dashes_prefix_name
  have hlong : s.name.toList ≠ ['-', 'h'] := by
    rw [← hcs]
    simp
  have hdashed : Word.ofDashed (s.name.toList ++ '=' :: value.toList) =
      .ok (.switch s (some value)) := by
    rw [Word.ofDashed, hsplit]
    simp [s.ofName?_name, Word.attach, hlong]
  rw [Word.ofString, hnone]
  simp only [hlist]
  rw [← hcs] at hdashed ⊢
  exact hdashed

end Chomsky.CommandLine

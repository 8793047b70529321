import Chomsky.Proofs.CompactDocument

/-!
# The characters of what is written

A number is written with figures, which are printable and no blanks (`write_subset_figures`). In the
compact layout a value is written with printable ASCII characters and the characters of the texts in
it, the control characters among which are escaped (`spelt_compact`); so it stands on one line. The
indented layout adds nothing but line feeds and spaces (`laid_indented`).
-/

namespace Chomsky

open Json

variable {c : Char} {cs ds known more : List Char}

def isPrintableAscii (c : Char) : Bool := 0x20 ≤ c.toNat && c.toNat < 0x80

theorem isPrintableAscii_iff : isPrintableAscii c = true ↔ 0x20 ≤ c.toNat ∧ c.toNat < 0x80 := by
  rw [isPrintableAscii, Bool.and_eq_true, decide_eq_true_eq, decide_eq_true_eq]

/-! ## Numbers -/

namespace Decimal

/-- The characters that numbers are written with. -/
def figures : List Char := "0123456789.-+eInfinityNaN".toList

theorem mem_figures_of_isDigit (h : c.isDigit = true) : c ∈ figures := by
  have hc : c = Char.ofNat c.toNat := c.ofNat_toNat.symm
  rw [Char.isDigit, Bool.and_eq_true, decide_eq_true_eq, decide_eq_true_eq] at h
  have hall : ∀ n < 58, 48 ≤ n → Char.ofNat n ∈ figures := by decide
  rw [hc]
  exact hall c.toNat (Nat.lt_succ_of_le h.2) h.1

theorem toDigits_subset_figures (n : Nat) : Nat.toDigits 10 n ⊆ figures := fun _ hc =>
  mem_figures_of_isDigit (Nat.isDigit_of_mem_toDigits (by decide) (by decide) hc)

theorem zeros_subset_figures (n : Nat) : List.replicate n '0' ⊆ figures := by
  intro c hc
  rw [List.eq_of_mem_replicate hc]
  decide

theorem positional_subset_figures (h : ds ⊆ figures) (place : Int) :
    positional ds place ⊆ figures := by
  unfold positional
  split
  · simp only [List.append_subset, List.cons_subset]
    exact ⟨⟨by decide, by decide, zeros_subset_figures _⟩, h⟩
  · split
    · simp only [List.append_subset]
      exact ⟨⟨h, zeros_subset_figures _⟩, by decide⟩
    · simp only [List.append_subset, List.cons_subset]
      exact ⟨fun c hc => h (List.mem_of_mem_take hc), by decide,
        fun c hc => h (List.mem_of_mem_drop hc)⟩

theorem exponential_subset_figures (h : ds ⊆ figures) (exponent : Int) :
    exponential ds exponent ⊆ figures := by
  have hpoint : (if ds.length = 1 then [] else '.' :: ds.drop 1) ⊆ figures := by
    split
    · exact List.nil_subset _
    · exact List.cons_subset.mpr ⟨by decide, fun c hc => h (List.mem_of_mem_drop hc)⟩
  have hsign : (if exponent < 0 then '-' else '+') ∈ figures := by split <;> decide
  simp only [exponential, List.append_subset, List.cons_subset]
  exact ⟨⟨⟨fun c hc => h (List.mem_of_mem_take hc), hpoint⟩, by decide, hsign,
    zeros_subset_figures _⟩, toDigits_subset_figures _⟩

theorem Scaled.text_subset_figures (d : Scaled) : d.text ⊆ figures := by
  unfold Scaled.text
  dsimp only
  split
  · decide
  · split
    · exact positional_subset_figures (toDigits_subset_figures _) _
    · exact exponential_subset_figures (toDigits_subset_figures _) _

theorem write_subset_figures (x : Float) : (write documentSpelling x).toList ⊆ figures := by
  have hsign : (if isNegative x then "-" else "").toList ⊆ figures := by split <;> decide
  unfold write
  dsimp only
  split
  · decide
  · split
    · rw [String.toList_append, List.append_subset]
      exact ⟨hsign, by decide⟩
    · rw [String.toList_append, String.toList_ofList, List.append_subset]
      exact ⟨hsign, Scaled.text_subset_figures _⟩

theorem toString_subset_figures (n : Int) : (toString n).toList ⊆ figures := by
  rw [toList_toString]
  split
  · exact List.cons_subset.mpr ⟨by decide, toDigits_subset_figures _⟩
  · exact toDigits_subset_figures _

theorem isSpace_of_mem_figures (h : c ∈ figures) : isSpace c = false := by
  have hnone : figures.all (fun c => !isSpace c) = true := by decide
  exact Bool.not_eq_true' _ |>.mp (List.all_eq_true.mp hnone c h)

theorem printable_of_mem_figures (h : c ∈ figures) : isPrintableAscii c = true := by
  have hall : figures.all isPrintableAscii = true := by decide
  exact List.all_eq_true.mp hall c h

end Decimal

/-! ## Texts -/

namespace Json

/-- The character can be printed, and it is in ASCII or one of these. -/
def Spelt (known : List Char) (c : Char) : Prop := 0x20 ≤ c.toNat ∧ (c.toNat < 0x80 ∨ c ∈ known)

theorem spelt_of_ascii (h : isPrintableAscii c = true) : Spelt known c :=
  (isPrintableAscii_iff.mp h).imp_right .inl

theorem spelt_word (h : cs.all isPrintableAscii = true) : ∀ c ∈ cs, Spelt known c :=
  fun c hc => spelt_of_ascii (List.all_eq_true.mp h c hc)

theorem Spelt.mono (h : Spelt known c) (hsub : known ⊆ more) : Spelt more c :=
  ⟨h.1, h.2.imp_right fun hc => hsub hc⟩

theorem spelt_escapedChar {e : Char} (he : e ∈ escapedChar c) : Spelt [c] e := by
  have hhex : ∀ n < 0x20, (Text.hex 4 n).all isPrintableAscii = true := by decide
  unfold escapedChar at he
  split at he
  case h_8 =>
    split at he
    · next hcontrol =>
      simp only [List.mem_cons] at he
      rcases he with rfl | rfl | he
      · exact spelt_of_ascii (by decide)
      · exact spelt_of_ascii (by decide)
      · exact spelt_word (hhex _ hcontrol) e he
    · next hcontrol =>
      obtain rfl := List.mem_singleton.mp he
      exact ⟨Nat.le_of_not_lt hcontrol, .inr List.mem_cons_self⟩
  all_goals
    simp only [List.mem_cons, List.not_mem_nil, or_false] at he
    rcases he with rfl | rfl <;> exact spelt_of_ascii (by decide)

theorem spelt_writeText (s : String) : ∀ e ∈ (writeText s).toList, Spelt s.toList e := by
  have hquote : Spelt s.toList '\x22' := spelt_of_ascii (by decide)
  intro e he
  rw [toList_writeText, List.mem_cons, List.mem_append, List.mem_flatMap,
    List.mem_singleton] at he
  rcases he with rfl | ⟨c, hc, he⟩ | rfl
  · exact hquote
  · exact (spelt_escapedChar he).mono (List.cons_subset.mpr ⟨hc, List.nil_subset _⟩)
  · exact hquote

theorem forall_mem_intercalate {P : Char → Prop} {sep : List Char} {parts : List (List Char)}
    (hsep : ∀ c ∈ sep, P c) (hparts : ∀ part ∈ parts, ∀ c ∈ part, P c) :
    ∀ c ∈ sep.intercalate parts, P c := by
  induction parts with
  | nil => exact nofun
  | cons part parts ih =>
    obtain ⟨hpart, hparts⟩ := List.forall_mem_cons.mp hparts
    cases parts with
    | nil => rwa [List.intercalate_singleton]
    | cons next parts =>
      rw [List.intercalate_cons_cons, List.append_assoc, List.forall_mem_append,
        List.forall_mem_append]
      exact ⟨hpart, hsep, ih hparts⟩

/-! ## Values -/

mutual

/-- The characters of the texts and keys in a value. -/
def chars : Json → List Char
  | null => []
  | bool _ => []
  | int _ => []
  | float _ => []
  | string s => s.toList
  | array items => itemsChars items
  | object fields => fieldsChars fields

def itemsChars : List Json → List Char
  | [] => []
  | v :: rest => chars v ++ itemsChars rest

def fieldsChars : List (String × Json) → List Char
  | [] => []
  | (key, v) :: rest => key.toList ++ chars v ++ fieldsChars rest

end

theorem spelt_figures (h : cs ⊆ Decimal.figures) : ∀ c ∈ cs, Spelt known c :=
  fun _ hc => spelt_of_ascii (Decimal.printable_of_mem_figures (h hc))

theorem spelt_enclosed {opening closing : Char} {parts : List (List Char)}
    (hopening : isPrintableAscii opening = true) (hclosing : isPrintableAscii closing = true)
    (hparts : ∀ part ∈ parts, ∀ c ∈ part, Spelt known c) :
    ∀ c ∈ opening :: ([','].intercalate parts ++ [closing]), Spelt known c := by
  rw [List.forall_mem_cons, List.forall_mem_append, List.forall_mem_singleton]
  exact ⟨spelt_of_ascii hopening, forall_mem_intercalate (spelt_word (by decide)) hparts,
    spelt_of_ascii hclosing⟩

theorem chars_subset_fieldsChars {f : String × Json} {fs : List (String × Json)} (h : f ∈ fs) :
    f.1.toList ⊆ fieldsChars fs ∧ f.2.chars ⊆ fieldsChars fs := by
  induction fs with
  | nil => cases h
  | cons g fs ih =>
    rw [fieldsChars]
    rcases List.mem_cons.mp h with rfl | h
    · exact ⟨fun c hc => List.mem_append_left _ (List.mem_append_left _ hc),
        fun c hc => List.mem_append_left _ (List.mem_append_right _ hc)⟩
    · exact ⟨fun c hc => List.mem_append_right _ ((ih h).1 hc),
        fun c hc => List.mem_append_right _ ((ih h).2 hc)⟩

mutual

/-- On one line, nothing is written but printable ASCII characters and characters of the texts. -/
theorem spelt_compact : ∀ v : Json, ∀ c ∈ v.compact.toList, Spelt v.chars c
  | null => spelt_word (by decide)
  | bool true => spelt_word (by decide)
  | bool false => spelt_word (by decide)
  | int n => spelt_figures (Decimal.toString_subset_figures n)
  | float x => spelt_figures (Decimal.write_subset_figures x)
  | string s => spelt_writeText s
  | array vs => by
    rw [compact, toList_enclosed]
    exact spelt_enclosed (by decide) (by decide) (spelt_compactItems vs)
  | object fs => by
    rw [toList_compact_object]
    refine spelt_enclosed (by decide) (by decide) (List.forall_mem_map.mpr fun f hf => ?_)
    have hf := (inKeyOrder_perm fs).mem_iff.mp hf
    obtain ⟨hkey, hvalue⟩ := chars_subset_fieldsChars hf
    rw [fieldText, List.forall_mem_append, List.forall_mem_cons]
    exact ⟨fun c hc => (spelt_writeText f.1 c hc).mono hkey, spelt_of_ascii (by decide),
      fun c hc => (spelt_compactFields fs f hf c hc).mono hvalue⟩

theorem spelt_compactItems : ∀ vs : List Json,
    ∀ part ∈ (compactItems vs).map String.toList, ∀ c ∈ part, Spelt (itemsChars vs) c
  | [] => nofun
  | v :: vs => by
    rw [compactItems, List.map_cons, List.forall_mem_cons, itemsChars]
    exact ⟨fun c hc => (spelt_compact v c hc).mono (List.subset_append_left _ _),
      fun part hpart c hc =>
        (spelt_compactItems vs part hpart c hc).mono (List.subset_append_right _ _)⟩

theorem spelt_compactFields : ∀ fs : List (String × Json),
    ∀ f ∈ fs, ∀ c ∈ f.2.compact.toList, Spelt f.2.chars c
  | [] => nofun
  | (_, v) :: fs => List.forall_mem_cons.mpr ⟨spelt_compact v, spelt_compactFields fs⟩

end

theorem newline_notMem_compact (v : Json) : '\n' ∉ v.compact.toList := fun h =>
  absurd (spelt_compact v '\n' h).1 (by decide)

/-! ## Documents -/

/-- The character is a line feed, or can be printed and is in ASCII or one of these. -/
def Laid (known : List Char) (c : Char) : Prop := c = '\n' ∨ Spelt known c

theorem Laid.mono (h : Laid known c) (hsub : known ⊆ more) : Laid more c :=
  h.imp_right fun hc => hc.mono hsub

theorem laid_word (h : cs.all isPrintableAscii = true) : ∀ c ∈ cs, Laid known c :=
  fun c hc => .inr (spelt_word h c hc)

theorem laid_newline (level : Nat) : ∀ c ∈ '\n' :: List.replicate level ' ', Laid known c := by
  intro c hc
  rcases List.mem_cons.mp hc with rfl | hc
  · exact .inl rfl
  · rw [List.eq_of_mem_replicate hc]
    exact .inr (spelt_of_ascii (by decide))

theorem laid_block {level : Nat} {opening closing : String} {parts : List String}
    (hopening : opening.toList.all isPrintableAscii = true)
    (hclosing : closing.toList.all isPrintableAscii = true)
    (hparts : ∀ part ∈ parts.map String.toList, ∀ c ∈ part, Laid known c) :
    ∀ c ∈ (block level opening closing parts).toList, Laid known c := by
  by_cases hnil : parts = []
  · rw [hnil, toList_block_nil, List.forall_mem_append]
    exact ⟨laid_word hopening, laid_word hclosing⟩
  · have hcomma : Laid known ',' := .inr (spelt_of_ascii (by decide))
    rw [toList_block hnil]
    simp only [List.forall_mem_append]
    exact ⟨laid_word hopening, laid_newline _,
      forall_mem_intercalate (List.forall_mem_cons.mpr ⟨hcomma, laid_newline _⟩) hparts,
      laid_newline _, laid_word hclosing⟩

mutual

/-- On several lines, there are line feeds besides. -/
theorem laid_indented (level : Nat) :
    ∀ v : Json, ∀ c ∈ (v.indented level).toList, Laid v.chars c
  | null => fun c hc => .inr (spelt_compact null c hc)
  | bool b => fun c hc => .inr (spelt_compact (bool b) c hc)
  | int n => fun c hc => .inr (spelt_compact (int n) c hc)
  | float x => fun c hc => .inr (spelt_compact (float x) c hc)
  | string s => fun c hc => .inr (spelt_compact (string s) c hc)
  | array vs => laid_block (by decide) (by decide) (laid_indentedItems (level + 1) vs)
  | object fs => laid_block (by decide) (by decide) (laid_indentedFields (level + 1) fs)

theorem laid_indentedItems (level : Nat) : ∀ vs : List Json,
    ∀ part ∈ (indentedItems level vs).map String.toList, ∀ c ∈ part, Laid (itemsChars vs) c
  | [] => nofun
  | v :: vs => by
    rw [indentedItems, List.map_cons, List.forall_mem_cons, itemsChars]
    exact ⟨fun c hc => (laid_indented level v c hc).mono (List.subset_append_left _ _),
      fun part hpart c hc =>
        (laid_indentedItems level vs part hpart c hc).mono (List.subset_append_right _ _)⟩

theorem laid_indentedFields (level : Nat) : ∀ fs : List (String × Json),
    ∀ part ∈ (indentedFields level fs).map String.toList, ∀ c ∈ part, Laid (fieldsChars fs) c
  | [] => nofun
  | (key, v) :: fs => by
    have hfirst : (key, v) ∈ (key, v) :: fs := List.mem_cons_self
    obtain ⟨hkey, hvalue⟩ := chars_subset_fieldsChars hfirst
    rw [indentedFields, List.map_cons, List.forall_mem_cons, String.toList_append,
      String.toList_append, List.forall_mem_append, List.forall_mem_append]
    exact ⟨⟨⟨fun c hc => .inr ((spelt_writeText key c hc).mono hkey), laid_word (by decide)⟩,
        fun c hc => (laid_indented level v c hc).mono hvalue⟩,
      fun part hpart c hc =>
        (laid_indentedFields level fs part hpart c hc).mono (List.subset_append_right _ _)⟩

end

/-- A document holds nothing but line feeds, printable ASCII characters and characters of the texts
in its value. -/
theorem laid_documentText (v : Json) : ∀ c ∈ (documentText v).toList, Laid v.chars c := by
  rw [documentText, String.toList_append, List.forall_mem_append]
  exact ⟨laid_indented 0 v, laid_newline 0⟩

end Json

end Chomsky

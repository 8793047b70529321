import Chomsky.Json.Printer
import Chomsky.Json.Reader
import Mathlib.Data.Nat.Digits.Defs

/-!
# The tokens of what is written

What is written for a text, an integer or one of the words is cut off as one token with this value
(`token_writeText`, `token_toString`, `token_null`, `token_bool`). A text ends by itself, since the
quotes within it are escaped. An integer goes on as long as there are digits, so there it counts
what stands behind (`Breaks`).
-/

namespace Chomsky.Json

variable {start here n : Nat} {c : Char} {cs ds rest : List Char}

/-! ## Texts -/

/-- What is read if a character stands before the rest. -/
def withChar (c : Char) (r : Except Flaw (List Char × Nat)) : Except Flaw (List Char × Nat) :=
  r.map fun p => (c :: p.1, p.2)

theorem readText_plain (hquote : c ≠ '\x22') (hslash : c ≠ '\\') (hcontrol : ¬c.toNat < 0x20) :
    readText start here (c :: rest) = withChar c (readText start (here + 1) rest) := by
  rw [readText, if_neg hcontrol]
  · cases readText start (here + 1) rest <;> rfl
  · exact hquote
  all_goals simp [hslash]

theorem readText_letter {l c : Char} (h : letterEscape? l = some c) :
    readText start here ('\\' :: l :: rest) = withChar c (readText start (here + 2) rest) := by
  have hu : l ≠ 'u' := by rintro rfl; cases h
  rw [readText, h]
  · cases readText start (here + 2) rest <;> rfl
  all_goals simp [hu]

/-- A unit below the surrogates is a character of its own. -/
theorem readText_unit {a b c d e : Char} {n : Nat} (h : unit? a b c d = some n) (hn : n < 0xd800) :
    readText start here ('\\' :: 'u' :: a :: b :: c :: d :: e :: rest) =
      withChar (unitChar n) (readText start (here + 6) (e :: rest)) := by
  have hlow : decide (0xd800 ≤ n) = false := by simpa using hn
  rw [readText, h]
  simp only [hlow, Bool.false_and, Bool.false_eq_true, if_false]
  cases readText start (here + 6) (e :: rest) <;> rfl

theorem unitChar_toNat (c : Char) : unitChar c.toNat = c := by
  rw [unitChar, if_pos (show c.toNat.isValidChar from c.valid), Char.ofNat_toNat]

/-- The unit that four hexadecimal digits stand for. -/
def unitOf? : List Char → Option Nat
  | [a, b, c, d] => unit? a b c d
  | _ => none

theorem exists_hex {n : Nat} (h : n < 0x20) :
    ∃ a b c d, Text.hex 4 n = [a, b, c, d] ∧ unit? a b c d = some n := by
  have hall : ∀ n < 0x20, unitOf? (Text.hex 4 n) = some n := by decide
  have hn := hall n h
  unfold unitOf? at hn
  split at hn
  · next a b c d hhex => exact ⟨a, b, c, d, hhex, hn⟩
  · cases hn

/-- A character is read back from what is written for it. Something stands behind it, the closing
quote if nothing else. -/
theorem readText_escapedChar (c : Char) {cs : List Char} (hcs : cs ≠ []) :
    readText start here (escapedChar c ++ cs) =
      withChar c (readText start (here + (escapedChar c).length) cs) := by
  unfold escapedChar
  split
  case h_8 _ hquote hslash _ _ _ _ _ =>
    split
    · next hcontrol =>
      -- The reader looks one character past the four digits, for the other half of a surrogate pair.
      obtain ⟨e, cs, rfl⟩ := List.exists_cons_of_ne_nil hcs
      obtain ⟨h₁, h₂, h₃, h₄, hhex, hunit⟩ := exists_hex hcontrol
      rw [hhex, List.cons_append, List.cons_append, List.cons_append, List.cons_append,
        List.cons_append, List.cons_append, List.nil_append, readText_unit hunit (by omega),
        unitChar_toNat]
      rfl
    · next hcontrol => exact readText_plain hquote hslash hcontrol
  all_goals exact readText_letter rfl

theorem readText_escaped (cs : List Char) :
    readText start here (cs.flatMap escapedChar ++ '\x22' :: rest) =
      .ok (cs, here + (cs.flatMap escapedChar).length + 1) := by
  induction cs generalizing here with
  | nil => rfl
  | cons c cs ih =>
    rw [List.flatMap_cons, List.append_assoc, readText_escapedChar c (by simp), ih,
      List.length_append, ← Nat.add_assoc]
    rfl

theorem toList_writeText (s : String) :
    (writeText s).toList = '\x22' :: (s.toList.flatMap escapedChar ++ ['\x22']) := by
  rw [writeText, String.toList_ofList, List.cons_append]

/-- A text is one token, whatever stands behind it. -/
theorem token_writeText (s : String) :
    token here ((writeText s).toList ++ rest) = (.text s, (writeText s).toList.length) := by
  rw [toList_writeText, List.cons_append, List.append_assoc, token, List.singleton_append,
    readText_escaped]
  simp only [String.ofList_toList, List.length_cons, List.length_append, List.length_nil]
  congr 1
  omega

/-! ## Integers -/

/-- Nothing of these characters continues a number. -/
def Breaks (rest : List Char) : Prop :=
  ∀ c ∈ rest.head?, c.isDigit = false ∧ c ≠ '.' ∧ c ≠ 'e' ∧ c ≠ 'E'

theorem breaks_nil : Breaks [] := nofun

theorem breaks_cons (h : c.isDigit = false ∧ c ≠ '.' ∧ c ≠ 'e' ∧ c ≠ 'E') : Breaks (c :: rest) := by
  intro d hd
  cases hd
  exact h

theorem Breaks.append (h : Breaks cs) (h' : Breaks ds) : Breaks (cs ++ ds) := by
  cases cs with
  | nil => exact h'
  | cons c cs => exact h

theorem head?_toDigits (hn : n ≠ 0) : (Nat.toDigits 10 n).head? ≠ some '0' := by
  induction n using Nat.strongRecOn with
  | ind n ih =>
    rcases Nat.lt_or_ge n 10 with hlt | hge
    · rw [Nat.toDigits_of_lt_base hlt]
      have hall : ∀ n < 10, n ≠ 0 → [n.digitChar].head? ≠ some '0' := by decide
      exact hall n hlt hn
    · rw [Nat.toDigits_of_base_le (by omega) hge, List.head?_append,
        List.head?_eq_some_head Nat.toDigits_ne_nil, Option.some_or, ← List.head?_eq_some_head]
      exact ih (n / 10) (by omega) (by omega)

theorem natOfDigits_toDigits (n : Nat) : natOfDigits (Nat.toDigits 10 n) = n := by
  rw [natOfDigits, Text.ofDigits, List.foldl_map]
  exact Nat.ofDigitChars_ten_toDigits

theorem Breaks.takeWhile_isDigit (h : Breaks rest) : rest.takeWhile Char.isDigit = [] := by
  cases rest with
  | nil => rfl
  | cons c rest => rw [List.takeWhile_cons, (h c rfl).1]; rfl

theorem Breaks.fractionDigits_eq (h : Breaks rest) : fractionDigits rest = [] := by
  unfold fractionDigits
  split
  · next rest => exact absurd rfl (h '.' rfl).2.1
  · rfl

theorem Breaks.exponentPart?_eq (h : Breaks rest) : exponentPart? rest = none := by
  cases rest with
  | nil => rfl
  | cons c rest =>
    obtain ⟨-, -, he, hE⟩ := h c rfl
    exact if_neg (by simp [he, hE])

theorem wholeDigits (h : Breaks rest) :
    (Nat.toDigits 10 n ++ rest).takeWhile Char.isDigit = Nat.toDigits 10 n := by
  rw [List.takeWhile_append_of_pos fun c hc => Nat.isDigit_of_mem_toDigits (by omega) (by omega) hc,
    h.takeWhile_isDigit, List.append_nil]

/-- The digits of a natural number are read to their end, as a number unless they are too many. -/
theorem readNumber?_digits (negative : Bool) (h : Breaks rest) :
    readNumber? here negative (Nat.toDigits 10 n ++ rest) =
      some (if Text.maxIntegerDigits < (Nat.toDigits 10 n).length
        then .broken ⟨.longInteger (Nat.toDigits 10 n).length, here⟩
        else .scalar (.int (if negative then -n else n)), (Nat.toDigits 10 n).length) := by
  have hwhole : (if (Nat.toDigits 10 n).head? = some '0' then ['0'] else Nat.toDigits 10 n) =
      Nat.toDigits 10 n := by
    by_cases hzero : n = 0
    · rw [hzero]
      rfl
    · rw [if_neg (head?_toDigits hzero)]
  unfold readNumber?
  simp only [wholeDigits h, hwhole, List.drop_left, h.fractionDigits_eq, List.isEmpty_nil, if_true,
    List.drop_zero, h.exponentPart?_eq, Option.isNone_none, Bool.and_self, natOfDigits_toDigits,
    List.isEmpty_iff, Nat.toDigits_ne_nil, if_false]
  split <;> rfl

theorem readNumber?_toDigits (negative : Bool)
    (hn : (Nat.toDigits 10 n).length ≤ Text.maxIntegerDigits) (h : Breaks rest) :
    readNumber? here negative (Nat.toDigits 10 n ++ rest) =
      some (.scalar (.int (if negative then -n else n)), (Nat.toDigits 10 n).length) := by
  rw [readNumber?_digits negative h, if_neg (Nat.not_lt.mpr hn)]

theorem find?_words (h : ∀ w ∈ words, w.1.toList.isPrefixOf cs = false) :
    (words.find? fun w => w.1.toList.isPrefixOf cs) = none :=
  List.find?_eq_none.mpr fun w hw => ne_true_of_eq_false (h w hw)

/-- Only numbers begin with a digit. -/
theorem token_digit (hc : c.isDigit = true) :
    token here (c :: cs) = (readNumber? here false (c :: cs)).getD (.unknown, 1) := by
  have hne : ∀ d, d.isDigit = false → c ≠ d := by
    rintro d hd rfl
    rw [hc] at hd
    cases hd
  have hwords : ∀ w ∈ words, w.1.toList.isPrefixOf (c :: cs) = false := by
    have hother : ∀ d ds, d.isDigit = false → List.isPrefixOf (d :: ds) (c :: cs) = false := by
      intro d ds hd
      rw [List.isPrefixOf_cons_cons, beq_false_of_ne (hne d hd).symm, Bool.false_and]
    simp only [words, List.forall_mem_cons]
    refine ⟨?_, ?_, ?_, ?_, ?_, ?_, by simp⟩ <;> exact hother _ _ rfl
  have hmark : ∀ d ds, d.isDigit = false → c :: cs = d :: ds → False :=
    fun d ds hd heq => hne d hd (List.cons.inj heq).1
  rw [token, find?_words hwords]
  all_goals exact fun ds => hmark _ ds rfl

/-- Behind a minus a digit makes a number. -/
theorem token_minus {t : Token} (hc : c.isDigit = true)
    (h : readNumber? here true (c :: cs) = some (t, n)) :
    token here ('-' :: c :: cs) = (t, n + 1) := by
  have hI : ('I' == c) = false := by
    refine beq_false_of_ne ?_
    rintro rfl
    cases hc
  have hwords : ∀ w ∈ words, w.1.toList.isPrefixOf ('-' :: c :: cs) = false := by
    simp only [words, List.forall_mem_cons]
    refine ⟨rfl, rfl, rfl, rfl, rfl, ?_, by simp⟩
    have hword : "-Infinity".toList = '-' :: 'I' :: "nfinity".toList := rfl
    rw [hword, List.isPrefixOf_cons_cons, List.isPrefixOf_cons_cons, hI, Bool.false_and,
      Bool.and_false]
  rw [token, find?_words hwords]
  simp only [h]

theorem toList_toString (n : Int) : (toString n).toList =
    if n < 0 then '-' :: Nat.toDigits 10 n.natAbs else Nat.toDigits 10 n.natAbs := by
  cases n with
  | ofNat n => exact Nat.toList_repr
  | negSucc n =>
    rw [if_pos (Int.negSucc_lt_zero n)]
    show ("-" ++ (n + 1).repr).toList = _
    rw [String.toList_append, Nat.toList_repr]
    rfl

/-- An integer is one token, if it has no more digits than are read. -/
theorem token_toString (n : Int) (hn : n.natAbs < 10 ^ Text.maxIntegerDigits) (h : Breaks rest) :
    token here ((toString n).toList ++ rest) = (.scalar (.int n), (toString n).toList.length) := by
  have hdigits : (Nat.toDigits 10 n.natAbs).length ≤ Text.maxIntegerDigits :=
    (Nat.length_toDigits_le_iff (by decide) (by decide)).mpr hn
  have hnumber (sign : Bool) := @readNumber?_toDigits here _ _ sign hdigits h
  obtain ⟨d, ds, hds⟩ :=
    List.exists_cons_of_ne_nil (Nat.toDigits_ne_nil : Nat.toDigits 10 n.natAbs ≠ [])
  have hd : d.isDigit = true :=
    Nat.isDigit_of_mem_toDigits (by decide) (by decide) (hds ▸ List.mem_cons_self)
  rw [toList_toString]
  rw [hds, List.cons_append] at hnumber
  split
  · next hneg =>
    have habs : -(n.natAbs : Int) = n := by omega
    rw [hds, List.cons_append, List.cons_append, token_minus hd (hnumber true)]
    simp only [if_true, habs, List.length_cons]
  · next hneg =>
    have habs : (n.natAbs : Int) = n := by omega
    rw [hds, List.cons_append, token_digit hd, hnumber false]
    simp only [Bool.false_eq_true, if_false, habs, Option.getD_some]

/-! ## Words -/

theorem token_null : token here ("null".toList ++ rest) = (.scalar .null, 4) := rfl

theorem token_bool (b : Bool) :
    token here ((if b then "true" else "false").toList ++ rest) =
      (.scalar (.bool b), (if b then "true" else "false").toList.length) := by
  cases b <;> rfl

end Chomsky.Json

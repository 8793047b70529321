import Chomsky.Event.Log
import Chomsky.Proofs.WrittenCharacters
import Mathlib.Data.List.DropRight

/-!
# A log is read as it was written

A line ends with the only line feed in it, so the lines of a log are found again
(`linesOf_join`). Its fields are found by the first two spaces, as there is none in the type or in
the seconds (`text_subset_figures`); what the data hold does not matter. So every line is read as its
event (`ofLine_line`), the fields of objects in the data put in order, and a log as its events
(`readLog_written`).

Integers of more digits than are converted are neither written nor read (`lost_of_long`).
-/

namespace Chomsky

open Json

variable {c : Char} {cs ds : List Char}

namespace Decimal

/-! ## Splitting -/

variable {p : Char → Bool} {d : Char} {rest : List Char}

theorem splitFirst_of_none (h : ∀ c ∈ cs, p c = false) : splitFirst p cs = (cs, none) := by
  have hall : cs.dropWhile (!p ·) = [] := List.dropWhile_eq_nil_iff.mpr fun c hc => by simp [h c hc]
  rw [splitFirst, hall]

theorem splitFirst_append (h : ∀ c ∈ cs, p c = false) (hd : p d = true) :
    splitFirst p (cs ++ d :: rest) = (cs, some rest) := by
  have hcs : ∀ c ∈ cs, (!p c) = true := fun c hc => by simp [h c hc]
  rw [splitFirst, List.dropWhile_append_of_pos hcs, List.takeWhile_append_of_pos hcs,
    List.dropWhile_cons_of_neg (by simp [hd]), List.takeWhile_cons_of_neg (by simp [hd]),
    List.append_nil]

end Decimal

/-! ## Long integers -/

/-- An integer of too many digits is no document. -/
theorem Json.read_longInteger {n : Nat} (hn : 10 ^ Text.maxIntegerDigits ≤ n) :
    ∃ flaw, read (Nat.toDigits 10 n) = .error flaw := by
  have hlong : Text.maxIntegerDigits < (Nat.toDigits 10 n).length := longInteger_iff.mpr hn
  have hnumber := @readNumber?_digits 0 n [] false breaks_nil
  obtain ⟨d, ds, hds⟩ := List.exists_cons_of_ne_nil (Nat.toDigits_ne_nil : Nat.toDigits 10 n ≠ [])
  have hd : d.isDigit = true :=
    Nat.isDigit_of_mem_toDigits (by decide) (by decide) (hds ▸ List.mem_cons_self)
  rw [List.append_nil, if_pos hlong, hds] at hnumber
  have htokens : tokens (d :: ds) =
      [(0, .broken ⟨.longInteger (d :: ds).length, 0⟩)] := by
    rw [tokens, tokensFrom, Decimal.isSpace_of_mem_figures (Decimal.mem_figures_of_isDigit hd),
      token_digit hd, hnumber]
    rfl
  have hmark : (d :: ds).head? ≠ some '\ufeff' := by
    rintro heq
    obtain rfl := Option.some.inj heq
    cases hd
  refine ⟨⟨.longInteger (d :: ds).length, 0⟩, ?_⟩
  rw [hds, read, if_neg hmark, htokens]
  rfl

namespace Event

variable {e : Event} {events : List Event} {kind time data : List Char} {lines : List String}

/-! ## Fields -/

theorem text_subset_figures (t : Timestamp) : t.text.toList ⊆ Decimal.figures :=
  Decimal.write_subset_figures _

theorem blank_notMem_text (t : Timestamp) {c : Char} (hc : isSpace c = true) :
    c ∉ t.text.toList := fun hmem =>
  Bool.false_ne_true
    ((Decimal.isSpace_of_mem_figures (text_subset_figures t hmem)).symm.trans hc)

theorem no_space (h : ' ' ∉ cs) : ∀ c ∈ cs, decide (c = ' ') = false := fun _ hc =>
  decide_eq_false (ne_of_mem_of_not_mem hc h)

theorem lineFields_two (hkind : ' ' ∉ kind) (htime : ' ' ∉ time) :
    lineFields (kind ++ ' ' :: time) = [kind, time] := by
  rw [lineFields, Decimal.splitFirst_append (no_space hkind) rfl]
  simp only [Decimal.splitFirst_of_none (no_space htime)]

theorem lineFields_three (hkind : ' ' ∉ kind) (htime : ' ' ∉ time) :
    lineFields (kind ++ ' ' :: (time ++ ' ' :: data)) = [kind, time, data] := by
  rw [lineFields, Decimal.splitFirst_append (no_space hkind) rfl]
  simp only [Decimal.splitFirst_append (d := ' ') (no_space htime) rfl]

/-- The fields of a line behind the seconds. -/
def dataFields : Json → List (List Char)
  | .null => []
  | data => [data.compact.toList]

theorem dataFields_of_ne {v : Json} (h : v ≠ .null) : dataFields v = [v.compact.toList] := by
  cases v with
  | null => exact absurd rfl h
  | _ => rfl

/-- The line without the line feed that ends it. -/
def body (e : Event) : List Char :=
  e.kind.toList ++ ' ' :: (e.time.text.toList ++ (dataFields e.data).flatMap (' ' :: ·))

theorem toList_line (e : Event) : e.line.toList = e.body ++ ['\n'] := by
  obtain ⟨kind, time, data⟩ := e
  cases data <;> simp [line, body, dataFields]

theorem newline_notMem_body (hkind : '\n' ∉ e.kind.toList) : '\n' ∉ e.body := by
  have htime : '\n' ∉ e.time.text.toList := blank_notMem_text _ rfl
  have hcompact := newline_notMem_compact e.data
  have hfields : '\n' ∉ (dataFields e.data).flatMap (' ' :: ·) := by
    unfold dataFields
    split
    · exact List.not_mem_nil
    · simpa using hcompact
  simp [body, hkind, htime, hfields]

/-- Of the line feeds at the end of a line there is only one. -/
theorem trimmed (h : '\n' ∉ cs) :
    ((cs ++ ['\n']).reverse.dropWhile (· = '\n')).reverse = cs := by
  change List.rdropWhile (· = '\n') (cs ++ ['\n']) = cs
  rw [List.rdropWhile_concat_pos _ _ _ (by decide), List.rdropWhile_eq_self_iff]
  intro hne hlast
  exact h (of_decide_eq_true hlast ▸ List.getLast_mem hne)

/-- The fields of a line are found again. -/
theorem lineFields_line (hspace : ' ' ∉ e.kind.toList) (hnewline : '\n' ∉ e.kind.toList) :
    lineFields (e.line.toList.reverse.dropWhile (· = '\n')).reverse =
      e.kind.toList :: e.time.text.toList :: dataFields e.data := by
  have htime : ' ' ∉ e.time.text.toList := blank_notMem_text _ rfl
  rw [toList_line, trimmed (newline_notMem_body hnewline), body]
  by_cases hnull : e.data = .null
  · rw [hnull]
    simp only [dataFields, List.flatMap_nil, List.append_nil]
    exact lineFields_two hspace htime
  · rw [dataFields_of_ne hnull, List.flatMap_singleton]
    exact lineFields_three hspace htime

/-! ## One event -/

/-- The time is the one that is read from its own text. -/
def Timestamp.Recovered (t : Timestamp) : Prop :=
  ∃ seconds, Decimal.read? t.text = some seconds ∧ ofSeconds seconds = .ok t

theorem Timestamp.recovered_iff {t : Timestamp} : t.Recovered ↔
    ((Decimal.read? t.text).bind fun seconds => (ofSeconds seconds).toOption) = some t := by
  rw [Option.bind_eq_some_iff]
  refine exists_congr fun seconds => and_congr_right fun _ => ?_
  cases ofSeconds seconds <;> simp [Except.toOption]

instance (t : Timestamp) : Decidable t.Recovered := decidable_of_iff _ Timestamp.recovered_iff.symm

theorem ofFields_recovered {t : Timestamp} (h : t.Recovered) (line kind : String) (data : Json) :
    ofFields line kind.toList t.text.toList data = .ok ⟨kind, t, data⟩ := by
  obtain ⟨seconds, hread, htime⟩ := h
  rw [ofFields, String.ofList_toList, String.ofList_toList, hread]
  simp only [htime]

/-- The event with the fields of objects in its data in order. -/
def sorted (e : Event) : Event := { e with data := e.data.sorted }

/-- A line is read as its event, with the fields of objects in order. -/
theorem ofLine_line (hspace : ' ' ∉ e.kind.toList) (hnewline : '\n' ∉ e.kind.toList)
    (hdata : e.data.Plain) (hshort : e.data.hasLongInteger = false) (htime : e.time.Recovered) :
    ofLine e.line = .ok e.sorted := by
  have hread := read_compact (hdata.exact hshort)
  rw [ofLine, lineFields_line hspace hnewline]
  by_cases hnull : e.data = .null
  · rw [sorted, hnull]
    exact ofFields_recovered htime e.line e.kind .null
  · simp only [dataFields_of_ne hnull, hread]
    exact ofFields_recovered htime e.line e.kind _

/-- A line whose data are no document is not read. -/
theorem ofLine_unreadable (hspace : ' ' ∉ e.kind.toList) (hnewline : '\n' ∉ e.kind.toList)
    (hnull : e.data ≠ .null) {flaw : Flaw}
    (hread : read e.data.compact.toList = .error flaw) :
    ofLine e.line = .error (.unreadable e.line) := by
  rw [ofLine, lineFields_line hspace hnewline]
  simp only [dataFields_of_ne hnull, hread]

/-! ## All events -/

theorem foldr_consLine (h : '\n' ∉ cs) (rest : List (List Char)) :
    (cs ++ ['\n']).foldr consLine rest = (cs ++ ['\n']) :: rest := by
  induction cs with
  | nil => rfl
  | cons c cs ih =>
    obtain ⟨hc, hcs⟩ := not_or.mp (mt List.mem_cons.mpr h)
    rw [List.cons_append, List.foldr_cons, ih hcs, consLine, if_neg (Ne.symm hc)]

/-- The lines of a text are found again if the only line feed in each of them is its end. -/
theorem linesOf_join (h : ∀ line ∈ lines, ∃ cs, '\n' ∉ cs ∧ line.toList = cs ++ ['\n']) :
    linesOf (String.join lines).toList = lines := by
  induction lines with
  | nil => rfl
  | cons line lines ih =>
    obtain ⟨⟨cs, hcs, hline⟩, hlines⟩ := List.forall_mem_cons.mp h
    have hrest := ih hlines
    rw [linesOf, String.toList_join] at hrest ⊢
    rw [List.flatMap_cons, List.foldr_append, hline, foldr_consLine hcs, List.map_cons, hrest,
      ← hline, String.ofList_toList]

theorem readLines_map {F : Event → Event} (h : ∀ e ∈ events, ofLine e.line = .ok (F e)) :
    readLines (events.map line) = (events.map F, none) := by
  induction events with
  | nil => rfl
  | cons e events ih =>
    obtain ⟨he, hevents⟩ := List.forall_mem_cons.mp h
    rw [List.map_cons, readLines, he]
    simp only [ih hevents, List.map_cons]

/-- The events are equal but for the order of fields in their data. -/
structure Like (e f : Event) : Prop where
  kind : e.kind = f.kind
  time : e.time = f.time
  data : e.data.Like f.data

theorem like_sorted (h : e.data.Plain) : e.Like e.sorted := ⟨rfl, rfl, e.data.like_sorted h⟩

/-- A log is read as events like those that were written, as many and in the same order. It takes
types without spaces and line feeds, data without doubles, repeated keys and integers of more digits
than are converted, and times that are read from their own texts. -/
theorem readLog_written
    (hkind : ∀ e ∈ events, ' ' ∉ e.kind.toList ∧ '\n' ∉ e.kind.toList)
    (hdata : ∀ e ∈ events, e.data.Plain)
    (hshort : ∀ e ∈ events, e.data.hasLongInteger = false)
    (htime : ∀ e ∈ events, e.time.Recovered) :
    ∃ lines found, List.Forall₂ (fun e line => written e = .ok line) events lines ∧
      readLog (String.join lines) = (found, none) ∧ List.Forall₂ Like events found := by
  have hwritten : ∀ e ∈ events, written e = .ok e.line := fun e he => by
    rw [written, hshort e he]
    rfl
  have hlines : ∀ l ∈ events.map line, ∃ cs, '\n' ∉ cs ∧ l.toList = cs ++ ['\n'] :=
    List.forall_mem_map.mpr fun e he =>
      ⟨e.body, newline_notMem_body (hkind e he).2, toList_line e⟩
  have hread : ∀ e ∈ events, ofLine e.line = .ok e.sorted := fun e he =>
    ofLine_line (hkind e he).1 (hkind e he).2 (hdata e he) (hshort e he) (htime e he)
  refine ⟨events.map line, events.map sorted, ?_, ?_, ?_⟩
  · rw [List.forall₂_map_right_iff, List.forall₂_same]
    exact hwritten
  · rw [readLog, linesOf_join hlines, readLines_map hread]
  · rw [List.forall₂_map_right_iff, List.forall₂_same]
    exact fun e he => like_sorted (hdata e he)

/-- Spaces and line feeds in the data, keys out of order, no data, and a time before 1970. -/
def twoEvents : List Event :=
  [⟨"phase", ⟨1700000000500000⟩, .object [
      ("b", .array [.int (-3), .null, .object [("", .bool true)]]),
      ("a", .string "two words\n \"ε\"")]⟩,
    ⟨"done", ⟨-250000⟩, .null⟩]

theorem readLog_written_twoEvents :
    ∃ lines found, List.Forall₂ (fun e line => written e = .ok line) twoEvents lines ∧
      readLog (String.join lines) = (found, none) ∧ List.Forall₂ Like twoEvents found := by
  refine readLog_written (by decide) ?_ (by decide) (by decide +kernel)
  simp [twoEvents, Plain, PlainItems, PlainFields]

/-- An event whose data are an integer of too many digits is not written, and what would be its line
is not read. -/
theorem lost_of_long {n : Nat} (hn : 10 ^ Text.maxIntegerDigits ≤ n) {kind : String} (t : Timestamp)
    (hspace : ' ' ∉ kind.toList) (hnewline : '\n' ∉ kind.toList) :
    written ⟨kind, t, .int n⟩ = .error .longInteger ∧
      readLog (line ⟨kind, t, .int n⟩) = ([], some (.unreadable (line ⟨kind, t, .int n⟩))) := by
  have hlong : (int n).hasLongInteger = true := decide_eq_true (longInteger_iff.mpr hn)
  have htext : (int n).compact.toList = Nat.toDigits 10 n := toList_toString n
  obtain ⟨flaw, hread⟩ := read_longInteger hn
  rw [← htext] at hread
  have hline := ofLine_unreadable (e := ⟨kind, t, .int n⟩) hspace hnewline nofun hread
  have hlines : linesOf (line ⟨kind, t, .int n⟩).toList = [line ⟨kind, t, .int n⟩] := by
    have hjoin := linesOf_join (List.forall_mem_singleton.mpr
      ⟨_, newline_notMem_body (e := ⟨kind, t, .int n⟩) hnewline, toList_line _⟩)
    rwa [String.toList_join, List.flatMap_singleton] at hjoin
  refine ⟨if_pos hlong, ?_⟩
  rw [readLog, hlines, readLines, hline]

/-- An event whose data are the least integer of too many digits. -/
def longEvent : Event := ⟨"x", ⟨0⟩, .int ((10 ^ Text.maxIntegerDigits : Nat) : Int)⟩

/-- No line is written for it, and none would be read back. -/
theorem longEvent_lost :
    (' ' ∉ longEvent.kind.toList ∧ '\n' ∉ longEvent.kind.toList) ∧ longEvent.data.Plain ∧
      longEvent.time.Recovered ∧ written longEvent = .error .longInteger ∧
      readLog longEvent.line = ([], some (.unreadable longEvent.line)) ∧
      ¬∃ lines found, List.Forall₂ (fun e line => written e = .ok line) [longEvent] lines ∧
        readLog (String.join lines) = (found, none) ∧ List.Forall₂ Like [longEvent] found := by
  have hlost := lost_of_long le_rfl ⟨0⟩ (by decide : ' ' ∉ "x".toList) (by decide)
  refine ⟨by decide, trivial, by decide +kernel, hlost.1, hlost.2, ?_⟩
  rintro ⟨lines, found, hwritten, -, -⟩
  cases hwritten with
  | cons hline _ => exact absurd (hlost.1.symm.trans hline) nofun

end Event

end Chomsky

import Chomsky.Proofs.ClockRange
import Chomsky.Proofs.EventLog

/-!
# What becomes of a line

A line is read as an event or refused with its text, whatever it holds, with one exception
(`ofLine_outcome`): a line that would be fine but for its seconds, if these are infinite or lie in no
year of the clock, fails with the fault of the seconds. Other seconds that are no timestamp, and
texts that are no number, only make the line unreadable.

What a line tells (`Tells`) is found by its first two spaces (`lineFields_cases`).
-/

namespace Chomsky.Event

open Timestamp

variable {line kind : String} {seconds : Float} {data : Json} {t : Timestamp} {fault : TimeFault}

/-! ## What a line tells -/

/-- A line, but for the line feeds at its end, is a type, a text of a number of seconds and, unless
there are no data, their document, with single spaces between them. There is no space in the type
and in the text of the seconds. -/
inductive Tells (line kind : String) (seconds : Float) : Json → Prop
  | alone {time : List Char} (hkind : ' ' ∉ kind.toList) (htime : ' ' ∉ time)
      (hline : line.toList.rdropWhile (· = '\n') = kind.toList ++ ' ' :: time)
      (hseconds : Decimal.read? (String.ofList time) = some seconds) :
      Tells line kind seconds .null
  | withData {time document : List Char} {data : Json} (hkind : ' ' ∉ kind.toList)
      (htime : ' ' ∉ time)
      (hline : line.toList.rdropWhile (· = '\n') =
        kind.toList ++ ' ' :: (time ++ ' ' :: document))
      (hseconds : Decimal.read? (String.ofList time) = some seconds)
      (hdata : Json.read document = .ok data) : Tells line kind seconds data

/-- The first two spaces of a line tell how many fields it has. -/
theorem lineFields_cases (cs : List Char) :
    lineFields cs = [cs] ∨
    (∃ kind time, ' ' ∉ kind ∧ ' ' ∉ time ∧ cs = kind ++ ' ' :: time ∧
      lineFields cs = [kind, time]) ∨
    ∃ kind time data, ' ' ∉ kind ∧ ' ' ∉ time ∧ cs = kind ++ ' ' :: (time ++ ' ' :: data) ∧
      lineFields cs = [kind, time, data] := by
  by_cases hfirst : ' ' ∈ cs
  · obtain ⟨kind, rest, rfl, hkind⟩ := List.eq_append_cons_of_mem hfirst
    by_cases hsecond : ' ' ∈ rest
    · obtain ⟨time, data, rfl, htime⟩ := List.eq_append_cons_of_mem hsecond
      exact .inr (.inr ⟨kind, time, data, hkind, htime, rfl, lineFields_three hkind htime⟩)
    · exact .inr (.inl ⟨kind, rest, hkind, hsecond, rfl, lineFields_two hkind hsecond⟩)
  · left
    rw [lineFields, Decimal.splitFirst_of_none (no_space hfirst)]

/-- A line that tells nothing is unreadable. -/
theorem tells_or_unreadable (line : String) :
    (∃ kind seconds data, Tells line kind seconds data) ∨
      ofLine line = .error (.unreadable line) := by
  rcases lineFields_cases (line.toList.rdropWhile (· = '\n')) with
    h | ⟨kind, time, hkind, htime, hline, h⟩ | ⟨kind, time, document, hkind, htime, hline, h⟩
  all_goals rw [List.rdropWhile] at h
  · right
    rw [ofLine, h]
  · rw [← String.toList_ofList (l := kind)] at hkind hline
    cases hread : Decimal.read? (String.ofList time) with
    | some seconds => exact .inl ⟨_, _, _, .alone hkind htime hline hread⟩
    | none =>
      right
      rw [ofLine, h]
      simp only [ofFields, hread]
  · rw [← String.toList_ofList (l := kind)] at hkind hline
    cases hdata : Json.read document with
    | error flaw =>
      right
      rw [ofLine, h]
      simp only [hdata]
    | ok data =>
      cases hread : Decimal.read? (String.ofList time) with
      | some seconds => exact .inl ⟨_, _, _, .withData hkind htime hline hread hdata⟩
      | none =>
        right
        rw [ofLine, h]
        simp only [hdata, ofFields, hread]

/-! ## From the seconds to the answer -/

/-- A line that tells something is read up to its seconds. -/
theorem Tells.ofLine_eq (h : Tells line kind seconds data) :
    ∃ time, Decimal.read? (String.ofList time) = some seconds ∧
      ofLine line = ofFields line kind.toList time data := by
  cases h with
  | @alone time hkind htime hline hseconds =>
    rw [List.rdropWhile] at hline
    refine ⟨time, hseconds, ?_⟩
    rw [ofLine, hline, lineFields_two hkind htime]
  | @withData time document _ hkind htime hline hseconds hdata =>
    rw [List.rdropWhile] at hline
    refine ⟨time, hseconds, ?_⟩
    rw [ofLine, hline, lineFields_three hkind htime]
    simp only [hdata]

theorem Tells.ofLine_of_ok (h : Tells line kind seconds data) (ht : ofSeconds seconds = .ok t) :
    ofLine line = .ok ⟨kind, t, data⟩ := by
  obtain ⟨time, hread, hline⟩ := h.ofLine_eq
  rw [hline, ofFields, hread, String.ofList_toList]
  simp only [ht]

theorem Tells.ofLine_of_error (h : Tells line kind seconds data)
    (ht : ofSeconds seconds = .error fault) :
    ofLine line = .error
      (if fault = .tooLarge ∨ fault = .yearTooLarge then .time fault else .unreadable line) := by
  obtain ⟨time, hread, hline⟩ := h.ofLine_eq
  rw [hline, ofFields, hread]
  simp only [ht]
  cases fault <;> rfl

theorem Tells.ofLine_beyondClock (h : Tells line kind seconds data)
    (ht : BeyondClock seconds fault) : ofLine line = .error (.time fault) := by
  rw [h.ofLine_of_error ht.ofSeconds_eq]
  cases ht <;> rfl

/-- All that a line can come to. -/
theorem ofLine_cases (line : String) :
    (∃ kind seconds data, Tells line kind seconds data ∧ OnCalendar seconds ∧
      ofLine line = .ok ⟨kind, ⟨microsOf seconds⟩, data⟩) ∨
    (∃ kind seconds data fault, Tells line kind seconds data ∧ BeyondClock seconds fault ∧
      ofLine line = .error (.time fault)) ∨
    ofLine line = .error (.unreadable line) := by
  rcases tells_or_unreadable line with ⟨kind, seconds, data, h⟩ | h
  · rcases ofSeconds_cases seconds with ⟨fault, ht⟩ | ⟨-, fault, ht, hlarge, hyear⟩ | ⟨-, ht⟩
    · exact .inr (.inl ⟨kind, seconds, data, fault, h, ht, h.ofLine_beyondClock ht⟩)
    · right
      right
      rw [h.ofLine_of_error ht, if_neg (not_or.mpr ⟨hlarge, hyear⟩)]
    · exact .inl ⟨kind, seconds, data, h, ht, h.ofLine_of_ok ht.ofSeconds_eq⟩
  · exact .inr (.inr h)

theorem ofLine_eq_ok_iff {e : Event} : ofLine line = .ok e ↔
    ∃ seconds, Tells line e.kind seconds e.data ∧ OnCalendar seconds ∧
      e.time = ⟨microsOf seconds⟩ := by
  constructor
  · intro he
    rcases ofLine_cases line with ⟨_, seconds, _, hline, ht, h⟩ | ⟨_, _, _, _, -, -, h⟩ | h
    · obtain rfl := Except.ok.inj (h.symm.trans he)
      exact ⟨seconds, hline, ht, rfl⟩
    · cases h.symm.trans he
    · cases h.symm.trans he
  · rintro ⟨seconds, hline, ht, htime⟩
    rw [hline.ofLine_of_ok ht.ofSeconds_eq, ← htime]

theorem ofLine_eq_time_iff : ofLine line = .error (.time fault) ↔
    ∃ kind seconds data, Tells line kind seconds data ∧ BeyondClock seconds fault := by
  constructor
  · intro hfault
    rcases ofLine_cases line with ⟨_, _, _, -, -, h⟩ | ⟨_, _, _, _, hline, ht, h⟩ | h
    · cases h.symm.trans hfault
    · obtain rfl := LineFault.time.inj (Except.error.inj (h.symm.trans hfault))
      exact ⟨_, _, _, hline, ht⟩
    · cases h.symm.trans hfault
  · rintro ⟨kind, seconds, data, hline, ht⟩
    exact hline.ofLine_beyondClock ht

theorem ofLine_settled_iff : (∃ e, ofLine line = .ok e) ∨ ofLine line = .error (.unreadable line) ↔
    ∀ kind seconds data, Tells line kind seconds data → WithinClock seconds := by
  constructor
  · intro hsettled kind seconds data hline
    rcases ofSeconds_cases seconds with ⟨fault, ht⟩ | ⟨hwithin, -⟩ | ⟨hwithin, -⟩
    · rw [hline.ofLine_beyondClock ht] at hsettled
      rcases hsettled with ⟨e, h⟩ | h
      · cases h
      · cases h
    · exact hwithin
    · exact hwithin
  · intro hwithin
    rcases ofLine_cases line with ⟨_, _, _, -, -, h⟩ | ⟨_, _, _, _, hline, ht, -⟩ | h
    · exact .inl ⟨_, h⟩
    · exact absurd (hwithin _ _ _ hline) ht.not_withinClock
    · exact .inr h

/-- A line is read as an event, or is unreadable, unless all is well with it but its seconds, which
are beyond the clock. The event is what the line tells, at the microsecond that the seconds are
rounded to; the fault is that of the seconds. -/
theorem ofLine_outcome (line : String) :
    ((∃ e, ofLine line = .ok e) ∨ ofLine line = .error (.unreadable line) ↔
      ∀ kind seconds data, Tells line kind seconds data → WithinClock seconds) ∧
    (∀ e, ofLine line = .ok e ↔ ∃ seconds, Tells line e.kind seconds e.data ∧
      OnCalendar seconds ∧ e.time = ⟨microsOf seconds⟩) ∧
    ∀ fault, ofLine line = .error (.time fault) ↔
      ∃ kind seconds data, Tells line kind seconds data ∧ BeyondClock seconds fault :=
  ⟨ofLine_settled_iff, fun _ => ofLine_eq_ok_iff, fun _ => ofLine_eq_time_iff⟩

/-- Not every line is read or unreadable: the seconds of this one are infinite. -/
theorem infinite_seconds_escape :
    ofLine "a inf" = .error (.time .tooLarge) ∧
      ¬((∃ e, ofLine "a inf" = .ok e) ∨ ofLine "a inf" = .error (.unreadable "a inf")) := by
  have h : ofLine "a inf" = .error (.time .tooLarge) := rfl
  refine ⟨h, ?_⟩
  rintro (⟨e, he⟩ | he)
  · cases h.symm.trans he
  · cases h.symm.trans he

end Chomsky.Event

import Chomsky.Event.Timestamp
import Chomsky.Proofs.Calendar

/-!
# Seconds beyond the clock

A number of seconds is rounded to microseconds, and the second in which they lie decides what becomes
of it. As long as its year, counted from 1900, fits into 32 bits, a clock can show it; of these
seconds, the ones whose years have at most four digits are timestamps. Infinite seconds and those of
no such year are beyond the clock. These three are all the cases (`ofSeconds_cases`).
-/

namespace Chomsky.Event.Timestamp

/-- The microseconds that a finite number of seconds is rounded to. -/
def microsOf (seconds : Float) : Int :=
  let whole := truncate seconds
  whole * microsPerSecond + roundToInt ((seconds - Float.ofInt whole) * 1e6)

/-- The second in which the microseconds lie. -/
def secondOf (seconds : Float) : Int := (microsOf seconds).fdiv microsPerSecond

/-- The first second of the first year that fits into 32 bits when it is counted from 1900. -/
def clockStart : Int := Date.firstDay (1900 - yearsLimit) * secondsPerDay

/-- The first second of the first year after them that does not. -/
def clockEnd : Int := Date.firstDay (1900 + yearsLimit) * secondsPerDay

/-- The seconds are those of a timestamp. -/
def OnCalendar (seconds : Float) : Prop :=
  seconds.isFinite = true ∧ firstSecond ≤ secondOf seconds ∧ secondOf seconds < endSecond

/-- A clock can show the seconds, if they are a number at all. -/
def WithinClock (seconds : Float) : Prop :=
  seconds.isInf = false ∧
    (seconds.isFinite = true → clockStart ≤ secondOf seconds ∧ secondOf seconds < clockEnd)

/-- No clock can show the seconds, for this reason. -/
inductive BeyondClock (seconds : Float) : TimeFault → Prop
  | infinite (h : seconds.isInf = true) : BeyondClock seconds .tooLarge
  | overflow (h : seconds.isFinite = true)
      (hsecond : secondOf seconds < -secondsLimit ∨ secondsLimit ≤ secondOf seconds) :
      BeyondClock seconds .tooLarge
  | noYear (h : seconds.isFinite = true)
      (hfits : -secondsLimit ≤ secondOf seconds ∧ secondOf seconds < secondsLimit)
      (hyear : secondOf seconds < clockStart ∨ clockEnd ≤ secondOf seconds) :
      BeyondClock seconds .yearTooLarge

variable {seconds : Float} {fault : TimeFault}

/-! ## One second -/

/-- A second is without a date exactly if its year does not fit. -/
theorem secondFault_cases (second : Int) :
    secondFault second = .yearTooLarge ∧ (second < clockStart ∨ clockEnd ≤ second) ∨
      (∃ year, secondFault second = .yearOutOfRange year) ∧
        clockStart ≤ second ∧ second < clockEnd := by
  -- a year begins with a day, and so a bound on the year is one on the second
  obtain ⟨day, hday⟩ : ∃ day, day = second.fdiv secondsPerDay := ⟨_, rfl⟩
  have hfirst := Date.year_ofDays_lt_iff day (1900 - yearsLimit)
  have hend := Date.year_ofDays_lt_iff day (1900 + yearsLimit)
  rw [secondFault, ← hday, clockStart, clockEnd]
  rw [Int.fdiv_eq_ediv_of_nonneg _ (by decide), secondsPerDay] at hday
  rw [secondsPerDay]
  simp only [Bool.or_eq_true, decide_eq_true_eq]
  split
  · exact .inl ⟨rfl, by omega⟩
  · exact .inr ⟨⟨_, rfl⟩, by omega⟩

/-- The clock covers all timestamps, and 64 bits are enough for it. -/
theorem clock_bounds :
    -secondsLimit < clockStart ∧ clockStart < firstSecond ∧ firstSecond < endSecond ∧
      endSecond < clockEnd ∧ clockEnd < secondsLimit := by
  decide

example : clockStart = -67768040609740800 ∧ clockEnd = 67768036191676800 := by decide

/-- All that microseconds can come to, by the second in which they lie. -/
theorem ofMicros_cases (micros second : Int) (hsecond : micros.fdiv microsPerSecond = second) :
    ofMicros micros = .error .tooLarge ∧ (second < -secondsLimit ∨ secondsLimit ≤ second) ∨
    ofMicros micros = .error .yearTooLarge ∧ (-secondsLimit ≤ second ∧ second < secondsLimit) ∧
      (second < clockStart ∨ clockEnd ≤ second) ∨
    (∃ year, ofMicros micros = .error (.yearOutOfRange year)) ∧
      (clockStart ≤ second ∧ second < clockEnd) ∧ (second < firstSecond ∨ endSecond ≤ second) ∨
    ofMicros micros = .ok ⟨micros⟩ ∧ firstSecond ≤ second ∧ second < endSecond := by
  have hclock := clock_bounds
  rw [ofMicros, hsecond]
  simp only [Bool.or_eq_true, decide_eq_true_eq]
  split
  · exact .inl ⟨rfl, by assumption⟩
  · split
    · rcases secondFault_cases second with ⟨hfault, h⟩ | ⟨⟨year, hfault⟩, h⟩
      · exact .inr (.inl ⟨by rw [hfault], by omega, h⟩)
      · exact .inr (.inr (.inl ⟨⟨year, by rw [hfault]⟩, h, by omega⟩))
    · exact .inr (.inr (.inr ⟨rfl, by omega⟩))

/-! ## Seconds -/

theorem isFinite_iff : seconds.isFinite = true ↔ seconds.isInf = false ∧ seconds.isNaN = false := by
  unfold Float.isFinite Float.isInf Float.isNaN
  unfold Float.Model.isFinite Float.Model.isInf Float.Model.isNaN
  cases seconds.toModel.unpack with
  | zero _ => exact ⟨fun _ => ⟨rfl, rfl⟩, fun _ => rfl⟩
  | finite _ _ _ _ => exact ⟨fun _ => ⟨rfl, rfl⟩, fun _ => rfl⟩
  | infinity _ => exact ⟨nofun, nofun⟩
  | notANumber => exact ⟨nofun, nofun⟩

theorem isNaN_of_isInf (h : seconds.isInf = true) : seconds.isNaN = false := by
  unfold Float.isInf Float.Model.isInf at h
  unfold Float.isNaN Float.Model.isNaN
  cases hunpack : seconds.toModel.unpack with
  | notANumber =>
    rw [hunpack] at h
    cases h
  | _ => rfl

theorem ofSeconds_of_isFinite (h : seconds.isFinite = true) :
    ofSeconds seconds = ofMicros (microsOf seconds) := by
  obtain ⟨hinf, hnan⟩ := isFinite_iff.mp h
  rw [ofSeconds, hnan, hinf, if_neg Bool.false_ne_true, if_neg Bool.false_ne_true, microsOf]

theorem ofSeconds_of_isInf (h : seconds.isInf = true) : ofSeconds seconds = .error .tooLarge := by
  rw [ofSeconds, isNaN_of_isInf h, h, if_neg Bool.false_ne_true, if_pos rfl]

theorem BeyondClock.ofSeconds_eq (h : BeyondClock seconds fault) :
    ofSeconds seconds = .error fault := by
  have hclock := clock_bounds
  have hcases := ofMicros_cases (microsOf seconds) (secondOf seconds) rfl
  cases h with
  | infinite hinf => exact ofSeconds_of_isInf hinf
  | overflow hfinite hsecond =>
    rw [ofSeconds_of_isFinite hfinite]
    rcases hcases with ⟨h, -⟩ | ⟨-, hfits, -⟩ | ⟨-, hwithin, -⟩ | ⟨-, hon⟩
    · exact h
    all_goals omega
  | noYear hfinite hfits hyear =>
    rw [ofSeconds_of_isFinite hfinite]
    rcases hcases with ⟨-, hover⟩ | ⟨h, -⟩ | ⟨-, hwithin, -⟩ | ⟨-, hon⟩
    · omega
    · exact h
    all_goals omega

theorem OnCalendar.ofSeconds_eq (h : OnCalendar seconds) :
    ofSeconds seconds = .ok ⟨microsOf seconds⟩ := by
  obtain ⟨hfinite, hfirst, hend⟩ := h
  have hclock := clock_bounds
  rw [ofSeconds_of_isFinite hfinite]
  rcases ofMicros_cases (microsOf seconds) (secondOf seconds) rfl with
    ⟨-, hover⟩ | ⟨-, -, hyear⟩ | ⟨-, -, hoff⟩ | ⟨h, -⟩
  · omega
  · omega
  · omega
  · exact h

theorem BeyondClock.not_withinClock (h : BeyondClock seconds fault) : ¬WithinClock seconds := by
  rintro ⟨hinf, hsecond⟩
  have hclock := clock_bounds
  cases h with
  | infinite h => exact Bool.false_ne_true (hinf.symm.trans h)
  | overflow h _ =>
    have := hsecond h
    omega
  | noYear h _ _ =>
    have := hsecond h
    omega

/-- Seconds are beyond the clock, or within it but no timestamp, or a timestamp. -/
theorem ofSeconds_cases (seconds : Float) :
    (∃ fault, BeyondClock seconds fault) ∨
    (WithinClock seconds ∧
      ∃ fault, ofSeconds seconds = .error fault ∧ fault ≠ .tooLarge ∧ fault ≠ .yearTooLarge) ∨
    WithinClock seconds ∧ OnCalendar seconds := by
  have hclock := clock_bounds
  cases hinf : seconds.isInf with
  | true => exact .inl ⟨_, .infinite hinf⟩
  | false =>
    cases hnan : seconds.isNaN with
    | true =>
      have hwithin : WithinClock seconds := ⟨hinf, fun hfinite =>
        absurd ((isFinite_iff.mp hfinite).2.symm.trans hnan) Bool.false_ne_true⟩
      have h : ofSeconds seconds = .error .notANumber := by rw [ofSeconds, if_pos hnan]
      exact .inr (.inl ⟨hwithin, _, h, nofun, nofun⟩)
    | false =>
      have hfinite := isFinite_iff.mpr ⟨hinf, hnan⟩
      rcases ofMicros_cases (microsOf seconds) (secondOf seconds) rfl with
        ⟨-, hsecond⟩ | ⟨-, hfits, hyear⟩ | ⟨⟨year, h⟩, hwithin, -⟩ | ⟨-, hfirst, hend⟩
      · exact .inl ⟨_, .overflow hfinite hsecond⟩
      · exact .inl ⟨_, .noYear hfinite hfits hyear⟩
      · rw [← ofSeconds_of_isFinite hfinite] at h
        exact .inr (.inl ⟨⟨hinf, fun _ => hwithin⟩, _, h, nofun, nofun⟩)
      · exact .inr (.inr ⟨⟨hinf, fun _ => by omega⟩, hfinite, hfirst, hend⟩)

/-- The first second of year 1, and a quarter of a second before it. -/
example : ofSeconds (-62135596800) = .ok ⟨-62135596800000000⟩ ∧
    ofSeconds (-62135596800.25) = .error (.yearOutOfRange 0) := by
  decide +kernel

end Chomsky.Event.Timestamp

import Chomsky.Event.Calendar
import Mathlib.Algebra.Order.Ring.Int

/-!
# The year of a day

A year begins with the day that the Gregorian rules for leap years make its first one
(`Date.firstDay`), and `Date.ofDays` puts a day into the year in which it lies
(`Date.year_ofDays_lt_iff`). There the year of an era is found by a division, after the leap days
before the day are taken out of the count. Since this count never falls, it is enough to look at the
first and the last day of each of the 400 years (`yearOfEra_bounds`).
-/

namespace Chomsky.Event

/-- The number of days of `n` years from the first year of an era on. -/
def daysOfYears (n : Int) : Int := 365 * n + n / 4 - n / 100 + n / 400

theorem daysOfYears_add_eras (n eras : Int) :
    daysOfYears (n + 400 * eras) = daysOfYears n + daysPerEra * eras := by
  unfold daysOfYears daysPerEra
  omega

theorem daysOfYears_succ (n : Int) :
    daysOfYears n + 365 ≤ daysOfYears (n + 1) ∧ daysOfYears (n + 1) ≤ daysOfYears n + 366 := by
  unfold daysOfYears
  omega

theorem daysOfYears_lt_iff {m n : Int} : daysOfYears m < daysOfYears n ↔ m < n := by
  have hmono : StrictMono daysOfYears := strictMono_int_of_lt_succ fun n => by
    have h := (daysOfYears_succ n).1
    omega
  exact hmono.lt_iff_lt

theorem daysOfYears_le_iff {m n : Int} : daysOfYears m ≤ daysOfYears n ↔ m ≤ n := by
  rw [← Int.not_lt, daysOfYears_lt_iff, Int.not_lt]

/-! ## Years of an era -/

/-- The number of days of an era before one of them, without leap days. -/
def commonDays (day : Nat) : Nat := day - day / 1460 + day / 36524 - day / 146096

theorem commonDays_mono {day day' : Nat} (h : day ≤ day') (hday' : day' < 146097) :
    commonDays day ≤ commonDays day' := by
  unfold commonDays
  omega

theorem le_commonDays_first :
    ∀ n : Nat, n < 400 → 365 * n ≤ commonDays (daysOfYears n).toNat := by
  decide +kernel

theorem commonDays_last_lt :
    ∀ n : Nat, n < 400 → commonDays ((daysOfYears (n + 1)).toNat - 1) < 365 * (n + 1) := by
  decide +kernel

/-- A day of an era lies in the year that the division answers. -/
theorem yearOfEra_bounds {day : Nat} (hday : day < 146097) :
    daysOfYears (commonDays day / 365 : Nat) ≤ day ∧
      (day : Int) < daysOfYears ((commonDays day / 365 : Nat) + 1) := by
  have hlast : commonDays day ≤ commonDays 146096 := commonDays_mono (by omega) (by decide)
  have hcount : commonDays 146096 = 145999 := by decide
  have hera : daysOfYears 400 = 146097 := by decide
  generalize hn : commonDays day / 365 = n
  constructor
  -- before the year begins, the count is at most that of the last day of the year before
  · by_contra hlate
    obtain _ | n := n
    · exact hlate (Int.natCast_nonneg day)
    have hless := commonDays_last_lt n (by omega)
    have hend : daysOfYears (n + 1) ≤ daysOfYears 400 := daysOfYears_le_iff.mpr (by omega)
    rw [Int.natCast_succ] at hlate
    have hmono : commonDays day ≤ commonDays ((daysOfYears (n + 1)).toNat - 1) :=
      commonDays_mono (by omega) (by omega)
    omega
  · by_contra hearly
    have hyear : n + 1 < 400 := by
      by_contra hyear
      have hend : daysOfYears 400 ≤ daysOfYears (n + 1) := daysOfYears_le_iff.mpr (by omega)
      omega
    have hmore := le_commonDays_first (n + 1) hyear
    rw [Int.natCast_succ] at hmore
    have hmono : commonDays (daysOfYears (n + 1)).toNat ≤ commonDays day :=
      commonDays_mono (by omega) hday
    omega

namespace Date

/-- The first of January of a year. The first 1969 years have 719162 days. -/
def firstDay (year : Int) : Int := daysOfYears (year - 1) - 719162

theorem firstDay_lt_iff {year year' : Int} : firstDay year < firstDay year' ↔ year < year' := by
  rw [firstDay, firstDay, Int.sub_lt_sub_right_iff, daysOfYears_lt_iff, Int.sub_lt_sub_right_iff]

theorem firstDay_eq {year : Int} (n eras : Int) (h : year = n + 1 + 400 * eras) :
    firstDay year = daysOfYears n + daysPerEra * eras - 719162 := by
  have hprevious : year - 1 = n + 400 * eras := by omega
  rw [firstDay, hprevious, daysOfYears_add_eras]

theorem month_le_two_iff {dayOfYear : Nat} (h : dayOfYear ≤ 365) :
    (if (5 * dayOfYear + 2) / 153 < 10 then (5 * dayOfYear + 2) / 153 + 3
      else (5 * dayOfYear + 2) / 153 - 9) ≤ 2 ↔ 306 ≤ dayOfYear := by
  split <;> omega

/-- Years are counted from March here, and so the days from the 306th on, those of January and
February, belong to the next year. -/
theorem exists_year (days : Int) :
    ∃ n day eras : Int, days = daysPerEra * eras + day - 719468 ∧
      daysOfYears n ≤ day ∧ day < daysOfYears (n + 1) ∧
      (ofDays days).year = n + eras * 400 + if daysOfYears n + 306 ≤ day then 1 else 0 := by
  obtain ⟨day, hday⟩ : ∃ day : Nat, day = ((days + 719468).fmod daysPerEra).toNat := ⟨_, rfl⟩
  obtain ⟨eras, heras⟩ : ∃ eras, eras = (days + 719468).fdiv daysPerEra := ⟨_, rfl⟩
  obtain ⟨n, hn⟩ : ∃ n, n = commonDays day / 365 := ⟨_, rfl⟩
  have hdays : days = daysPerEra * eras + day - 719468 ∧ day < 146097 := by
    rw [Int.fdiv_eq_ediv_of_nonneg _ (by decide), daysPerEra] at heras
    rw [Int.fmod_eq_emod_of_nonneg _ (by decide), daysPerEra] at hday
    rw [daysPerEra]
    omega
  have hbounds := yearOfEra_bounds hdays.2
  rw [← hn] at hbounds
  have hstart : daysOfYears n = (365 * n + n / 4 - n / 100 : Nat) := by
    have hera : (day : Int) < daysOfYears 400 := Int.ofNat_lt.mpr hdays.2
    have hn := daysOfYears_lt_iff.mp (hbounds.1.trans_lt hera)
    unfold daysOfYears
    omega
  have hlength := (daysOfYears_succ n).2
  refine ⟨n, day, eras, hdays.1, hbounds.1, hbounds.2, ?_⟩
  have hjanuary : daysOfYears n + 306 ≤ day ↔ 306 ≤ day - (365 * n + n / 4 - n / 100) := by omega
  rw [if_congr hjanuary rfl rfl, ← if_congr (month_le_two_iff (by omega)) rfl rfl]
  subst hn hday heras
  rfl

/-- A day lies in its year. -/
theorem year_ofDays (days : Int) :
    firstDay (ofDays days).year ≤ days ∧ days < firstDay ((ofDays days).year + 1) := by
  obtain ⟨n, day, eras, hdays, hfirst, hnext, hyear⟩ := exists_year days
  rw [hyear]
  split
  · rw [firstDay_eq n eras (by omega), firstDay_eq (n + 1) eras (by omega)]
    omega
  · have hprevious := (daysOfYears_succ (n - 1)).1
    rw [Int.sub_add_cancel] at hprevious
    rw [firstDay_eq (n - 1) eras (by omega), firstDay_eq n eras (by omega)]
    omega

theorem year_ofDays_lt_iff (days year : Int) :
    (ofDays days).year < year ↔ days < firstDay year := by
  obtain ⟨hfirst, hnext⟩ := year_ofDays days
  constructor
  · intro h
    have hyear : firstDay ((ofDays days).year + 1) ≤ firstDay year := by
      rw [← Int.not_lt, firstDay_lt_iff]
      omega
    exact hnext.trans_le hyear
  · intro h
    exact firstDay_lt_iff.mp (hfirst.trans_lt h)

end Date

end Chomsky.Event

import Mathlib

/-!
# The civil calendar in years that begin in March

With the leap day at the end of the year, the days before a month are a linear function of the
month, rounded down, and the days before a year one of the year with three corrections.  Four
hundred years, an era, repeat.  Within an era the year of a day is again a rounded linear
function of the day.
-/

namespace Foundation

/-! ## 1. Months -/

/-- The days before a month, where month 0 is March. -/
def monthStart (month : Nat) : Nat := (153 * month + 2) / 5

/-- The month of a day of the year. -/
def monthOf (day : Nat) : Nat := (5 * day + 2) / 153

theorem monthOf_eq_iff {day month : Nat} :
    monthOf day = month ↔ monthStart month ≤ day ∧ day < monthStart (month + 1) := by
  unfold monthOf monthStart
  omega

theorem monthStart_le {month month' : Nat} (h : month ≤ month') :
    monthStart month ≤ monthStart month' := by
  unfold monthStart
  omega

/-! ## 2. Years of an era -/

/-- The days before a year of the era. -/
def yearStart (year : Nat) : Nat := 365 * year + year / 4 - year / 100

/-- The first day after a year of the era.  The last year has the leap day of the era. -/
def yearEnd (year : Nat) : Nat := yearStart (year + 1) + (year + 1) / 400

/-- A day of the era without the leap days before it. -/
def commonDay (day : Nat) : Nat := day + day / 36524 - day / 1460 - day / 146096

/-- The year of a day of the era. -/
def yearOf (day : Nat) : Nat := commonDay day / 365

theorem commonDay_le {day day' : Nat} (h : day ≤ day') : commonDay day ≤ commonDay day' := by
  unfold commonDay
  omega

theorem commonDay_years : ∀ year < 400, 365 * year ≤ commonDay (yearStart year)
      ∧ commonDay (yearEnd year - 1) < 365 * (year + 1) := by
  decide +kernel

theorem yearOf_eq {day year : Nat} (hyear : year < 400) (hstart : yearStart year ≤ day)
    (hend : day < yearEnd year) : yearOf day = year := by
  have hfirst := (commonDay_years year hyear).1
  have hlast := (commonDay_years year hyear).2
  have hlower := commonDay_le hstart
  have hupper : commonDay day ≤ commonDay (yearEnd year - 1) :=
    commonDay_le (Nat.le_sub_one_of_lt hend)
  unfold yearOf
  omega

theorem exists_year {day count : Nat} (h : day < yearStart count + count / 400)
    (hcount : count ≤ 400) : ∃ year < count, yearStart year ≤ day ∧ day < yearEnd year := by
  induction count with
  | zero => exact absurd h (Nat.not_lt_zero _)
  | succ count ih =>
    by_cases hday : yearStart count ≤ day
    · exact ⟨count, Nat.lt_succ_self _, hday, h⟩
    · have hbefore : day < yearStart count + count / 400 := by omega
      rcases ih hbefore (Nat.le_of_succ_le hcount) with ⟨year, hyear, hdays⟩
      exact ⟨year, Nat.lt_succ_of_lt hyear, hdays⟩

/-- **Every day of the era is in its year.** -/
theorem yearOf_spec {day : Nat} (h : day < 146097) :
    yearOf day < 400 ∧ yearStart (yearOf day) ≤ day ∧ day < yearEnd (yearOf day) := by
  have hera : day < yearStart 400 + 400 / 400 := h
  rcases exists_year hera le_rfl with ⟨year, hyear, hstart, hend⟩
  rw [yearOf_eq hyear hstart hend]
  exact ⟨hyear, hstart, hend⟩

/-! ## 3. All years -/

/-- The days before a year, counted from year 0. -/
def daysBefore (year : Int) : Int := 365 * year + year / 4 - year / 100 + year / 400

theorem daysBefore_le {year year' : Int} (h : year ≤ year') :
    daysBefore year ≤ daysBefore year' := by
  unfold daysBefore
  omega

theorem daysBefore_era (era year : Nat) :
    daysBefore (era * 400 + year : Nat) = era * 146097 + yearStart year + (year / 400 : Nat) := by
  unfold daysBefore yearStart
  omega

end Foundation

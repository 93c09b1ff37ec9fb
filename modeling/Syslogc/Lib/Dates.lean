-- SUMMARY: Dates and their day numbers.
import Syslogc.Lib.Calendar

/-!
# Dates

`daysOf` numbers the days of the Gregorian calendar from 1 January 1970. It is linear in the
day of the month, so that days that a month does not have are counted on into the next.
`civil` gives the date of a day number; every day number belongs to exactly one date.
-/

namespace Calendar

def isLeap (year : Int) : Bool := year % 4 = 0 && (year % 100 ≠ 0 || year % 400 = 0)

/-- The number of days of a month, counted from 1. -/
def daysIn (month : Nat) (year : Int) : Nat :=
  match month with
  | 2 => if isLeap year then 29 else 28
  | 4 | 6 | 9 | 11 => 30
  | _ => 31

/-- The days in front of a year that starts in March, counted from March of year 0. -/
def yearDays (year : Int) : Int := 365 * year + year / 4 - year / 100 + year / 400

/-- The number of a day, from 1 January 1970 on. -/
def daysOf (year : Int) (month : Nat) (day : Int) : Int :=
  if month ≤ 2 then yearDays (year - 1) + (153 * (month + 9) + 2) / 5 + (day - 1) - 719468
  else yearDays year + (153 * (month - 3) + 2) / 5 + (day - 1) - 719468

/-- A date that the calendar has. -/
structure IsDate (year : Int) (month day : Nat) : Prop where
  month_pos : 1 ≤ month
  month_le : month ≤ 12
  day_pos : 1 ≤ day
  day_le : day ≤ daysIn month year

variable {year : Int} {month day : Nat}

theorem isLeap_iff : isLeap year = true ↔ year % 4 = 0 ∧ (year % 100 ≠ 0 ∨ year % 400 = 0) := by
  simp [isLeap]

theorem daysIn_le (month : Nat) (year : Int) : daysIn month year ≤ 31 := by
  unfold daysIn
  split
  · split <;> decide
  all_goals decide

theorem le_daysIn (month : Nat) (year : Int) : 28 ≤ daysIn month year := by
  unfold daysIn
  split
  · split <;> decide
  all_goals decide

/-! ## The numbering -/

theorem daysOf_day (year : Int) (month : Nat) (day : Int) :
    daysOf year month day = daysOf year month 1 + (day - 1) := by
  unfold daysOf
  split <;> omega

/-- A leap day is the last day of a year that starts in March. -/
theorem yearDays_pred (year : Int) : yearDays year = yearDays (year - 1) + 365 + if isLeap year then 1 else 0 := by
  have hfour : year / 4 = (year - 1) / 4 + if year % 4 = 0 then 1 else 0 := by split <;> omega
  have hhundred : year / 100 = (year - 1) / 100 + if year % 100 = 0 then 1 else 0 := by split <;> omega
  have hfourHundred : year / 400 = (year - 1) / 400 + if year % 400 = 0 then 1 else 0 := by split <;> omega
  have hdvd : year % 100 = 0 → year % 4 = 0 := by omega
  have hdvd' : year % 400 = 0 → year % 100 = 0 := by omega
  simp only [yearDays, isLeap, hfour, hhundred, hfourHundred]
  by_cases h4 : year % 4 = 0 <;> by_cases h100 : year % 100 = 0 <;> by_cases h400 : year % 400 = 0 <;>
    simp_all <;> omega

/-- The months follow each other. -/
theorem daysOf_next_month (hpos : 1 ≤ month) (hlt : month < 12) :
    daysOf year (month + 1) 1 = daysOf year month 1 + daysIn month year := by
  have hleap := yearDays_pred year
  by_cases htwo : month = 2
  · subst htwo
    cases hl : isLeap year <;> simp only [daysOf, daysIn, hleap, hl] <;> norm_num <;> omega
  · interval_cases month
    all_goals first
      | exact absurd rfl htwo
      | (simp only [daysOf, daysIn]; norm_num; omega)

theorem daysOf_next_year (year : Int) : daysOf (year + 1) 1 1 = daysOf year 12 1 + 31 := by
  simp only [daysOf, yearDays]
  norm_num
  omega

/-- A month comes round after a year, or a day later if a leap day lies in between. -/
theorem daysOf_succ_year (year : Int) (month : Nat) (day : Int) :
    daysOf year month day + 365 ≤ daysOf (year + 1) month day ∧
      daysOf (year + 1) month day ≤ daysOf year month day + 366 := by
  simp only [daysOf, yearDays]
  split <;> omega

theorem daysOf_of_lt {year year' : Int} (h : year < year') (month : Nat) (day : Int) :
    daysOf year month day + 365 * (year' - year) ≤ daysOf year' month day := by
  simp only [daysOf, yearDays]
  split <;> omega

/-! ## The calendar undoes the numbering -/

/-- The days of an era of 400 years, scaled to years of 365 days. -/
def eraScale (doe : Nat) : Nat := doe - doe / 1460 + doe / 36524 - doe / 146096

theorem eraScale_mono : Monotone eraScale := by
  apply monotone_nat_of_le_succ
  intro doe
  unfold eraScale
  omega

/-- The first day of a year within its era, and the last. -/
def eraStart (yoe : Nat) : Nat := 365 * yoe + yoe / 4 - yoe / 100

def eraLast (yoe : Nat) : Nat := eraStart yoe + if isLeap (yoe + 1) then 365 else 364

theorem eraScale_bounds {yoe : Nat} (h : yoe < 400) :
    365 * yoe ≤ eraScale (eraStart yoe) ∧ eraScale (eraLast yoe) < 365 * (yoe + 1) := by
  have hall : (List.range 400).all (fun yoe =>
      decide (365 * yoe ≤ eraScale (eraStart yoe)) && decide (eraScale (eraLast yoe) < 365 * (yoe + 1))) = true := by
    decide +kernel
  simpa using List.all_eq_true.mp hall yoe (List.mem_range.mpr h)

/-- The year within an era, from the day within the era. -/
theorem eraScale_div {yoe doe : Nat} (hyoe : yoe < 400) (hfirst : eraStart yoe ≤ doe) (hlast : doe ≤ eraLast yoe) :
    eraScale doe / 365 = yoe := by
  have hbounds := eraScale_bounds hyoe
  have hlow := eraScale_mono hfirst
  have hhigh := eraScale_mono hlast
  omega

/-- Where a month starts in a year that starts in March, its months counted from 0. -/
def monthStart (mp : Nat) : Nat := (153 * mp + 2) / 5

/-- The month of a day in a year that starts in March. -/
theorem month_of_day {mp day : Nat} (hmp : mp ≤ 11) (hpos : 1 ≤ day)
    (hlast : monthStart mp + day ≤ monthStart (mp + 1)) :
    (5 * (monthStart mp + (day - 1)) + 2) / 153 = mp := by
  simp only [monthStart] at hlast ⊢
  interval_cases mp <;> omega

theorem yearDays_era (year : Int) : yearDays year = 146097 * (year / 400) + eraStart (year % 400).toNat := by
  have hmod := Int.emod_nonneg year (by decide : (400 : Int) ≠ 0)
  unfold yearDays eraStart
  omega

/-- The number of a day, from its place in its era. -/
theorem civil_of_era (era : Int) {yoe mp day : Nat} (hyoe : yoe < 400) (hmp : mp ≤ 11) (hpos : 1 ≤ day)
    (hlast : monthStart mp + day ≤ monthStart (mp + 1))
    (hdoe : eraStart yoe + (monthStart mp + (day - 1)) ≤ eraLast yoe) :
    civil (146097 * era + eraStart yoe + (monthStart mp + (day - 1) : Nat) - 719468) =
      (era * 400 + yoe + (if mp < 10 then 0 else 1), if mp < 10 then mp + 3 else mp - 9, day) := by
  have hera : eraLast yoe < 146097 := by
    simp only [eraLast, eraStart]
    split <;> omega
  have hz : 146097 * era + eraStart yoe + (monthStart mp + (day - 1) : Nat) - 719468 + 719468 =
      146097 * era + ((eraStart yoe + (monthStart mp + (day - 1)) : Nat) : Int) := by
    push_cast
    omega
  have hyear := eraScale_div hyoe (Nat.le_add_right _ (monthStart mp + (day - 1))) hdoe
  have hmonth := month_of_day hmp hpos hlast
  generalize hdoe' : eraStart yoe + (monthStart mp + (day - 1)) = doe at hz hyear hdoe
  have hdiv : (146097 * era + (doe : Int)) / 146097 = era := by omega
  have hmod : ((146097 * era + (doe : Int)) % 146097).toNat = doe := by omega
  have hdoy : doe - eraStart yoe = monthStart mp + (day - 1) := by omega
  simp only [eraScale] at hyear
  simp only [eraStart] at hdoy
  simp only [civil, hz, hdiv, hmod, hyear, hdoy, hmonth]
  have hday : monthStart mp + (day - 1) - (153 * mp + 2) / 5 + 1 = day := by
    rw [monthStart]
    omega
  by_cases hm : mp < 10
  · have hthree : ¬mp + 3 ≤ 2 := by omega
    simp only [hm, if_true, hthree, if_false, hday]
  · have htwo : mp - 9 ≤ 2 := by omega
    simp only [hm, if_false, htwo, if_true, hday]

theorem isLeap_era (y : Int) : isLeap ((y % 400).toNat + 1) = isLeap (y + 1) := by
  have hmod := Int.emod_nonneg y (by decide : (400 : Int) ≠ 0)
  rw [Bool.eq_iff_iff, isLeap_iff, isLeap_iff]
  omega

/-- A date by its year that starts in March, the months of which are counted from 0. -/
theorem civil_of_march (y : Int) {mp : Nat} (hmp : mp ≤ 11) (hpos : 1 ≤ day)
    (hday : day ≤ daysIn (if mp < 10 then mp + 3 else mp - 9) (y + if mp < 10 then 0 else 1)) :
    civil (yearDays y + monthStart mp + (day - 1) - 719468) =
      (y + (if mp < 10 then 0 else 1), if mp < 10 then mp + 3 else mp - 9, day) := by
  have hmod := Int.emod_nonneg y (by decide : (400 : Int) ≠ 0)
  have hmod' := Int.emod_lt_of_pos y (by decide : (0 : Int) < 400)
  have hyoe : (y % 400).toNat < 400 := by omega
  have hlast : monthStart mp + day ≤ monthStart (mp + 1) ∧
      monthStart mp + day ≤ if isLeap (y + 1) then 366 else 365 := by
    interval_cases mp <;> cases hl : isLeap (y + 1) <;> simp [monthStart, daysIn, hl] at hday ⊢ <;> omega
  have hdoe : eraStart (y % 400).toNat + (monthStart mp + (day - 1)) ≤ eraLast (y % 400).toNat := by
    have hle := hlast.2
    rw [eraLast, isLeap_era]
    split <;> simp_all <;> omega
  have hcivil := civil_of_era (y / 400) hyoe hmp hpos hlast.1 hdoe
  have hz : yearDays y + monthStart mp + (day - 1) - 719468 =
      146097 * (y / 400) + eraStart (y % 400).toNat + (monthStart mp + (day - 1) : Nat) - 719468 := by
    rw [yearDays_era y]
    push_cast
    omega
  have hy : y / 400 * 400 + (y % 400).toNat = y := by omega
  rw [hz, hcivil, hy]

/-- The date of a day number is the date that has it. -/
theorem civil_daysOf (h : IsDate year month day) : civil (daysOf year month day) = (year, month, day) := by
  obtain ⟨hmpos, hmle, hdpos, hdle⟩ := h
  by_cases hm : month ≤ 2
  · have hten : ¬month + 9 < 10 := by omega
    have hcivil := civil_of_march (year - 1) (by omega : month + 9 ≤ 11) hdpos
    simp only [hten, if_false, Nat.add_sub_cancel, Int.sub_add_cancel] at hcivil
    rw [← hcivil hdle, daysOf, if_pos hm, monthStart]
    push_cast
    rfl
  · have hten : month - 3 < 10 := by omega
    have hcivil := civil_of_march year (by omega : month - 3 ≤ 11) hdpos
    simp only [hten, if_true, Nat.sub_add_cancel (by omega : 3 ≤ month), Int.add_zero] at hcivil
    have hcast : ((month - 3 : Nat) : Int) = month - 3 := by omega
    rw [← hcivil hdle, daysOf, if_neg hm, monthStart]
    push_cast
    rw [hcast]

theorem daysOf_one (year : Int) (month day : Nat) : daysOf year month day = daysOf year month 1 + day - 1 := by
  rw [daysOf_day]
  omega

/-- The next day has a date too. -/
theorem exists_next (h : IsDate year month day) :
    ∃ year' month' day', IsDate year' month' day' ∧ daysOf year' month' day' = daysOf year month day + 1 := by
  obtain ⟨hmpos, hmle, hdpos, hdle⟩ := h
  by_cases hlast : day < daysIn month year
  · refine ⟨year, month, day + 1, ⟨hmpos, hmle, by omega, hlast⟩, ?_⟩
    rw [daysOf_one, daysOf_one]
    omega
  by_cases hm : month < 12
  · have hpos := le_daysIn (month + 1) year
    refine ⟨year, month + 1, 1, ⟨by omega, hm, le_rfl, by omega⟩, ?_⟩
    rw [Nat.cast_one, daysOf_next_month hmpos hm, daysOf_one]
    omega
  · obtain rfl : month = 12 := by omega
    have hdec : daysIn 12 year = 31 := rfl
    refine ⟨year + 1, 1, 1, ⟨le_rfl, by decide, le_rfl, le_trans (by decide) (le_daysIn 1 _)⟩, ?_⟩
    rw [Nat.cast_one, daysOf_next_year, daysOf_one]
    omega

/-- And so has the day before. -/
theorem exists_previous (h : IsDate year month day) :
    ∃ year' month' day', IsDate year' month' day' ∧ daysOf year' month' day' = daysOf year month day - 1 := by
  obtain ⟨hmpos, hmle, hdpos, hdle⟩ := h
  by_cases hfirst : 1 < day
  · refine ⟨year, month, day - 1, ⟨hmpos, hmle, by omega, by omega⟩, ?_⟩
    rw [daysOf_one, daysOf_one]
    omega
  obtain rfl : day = 1 := by omega
  by_cases hm : 1 < month
  · obtain ⟨m, rfl⟩ : ∃ m, month = m + 1 := ⟨month - 1, by omega⟩
    have hpos := le_daysIn m year
    refine ⟨year, m, daysIn m year, ⟨by omega, by omega, by omega, le_rfl⟩, ?_⟩
    rw [Nat.cast_one, daysOf_next_month (by omega) (by omega), daysOf_one]
  · obtain rfl : month = 1 := by omega
    refine ⟨year - 1, 12, 31, ⟨by decide, le_rfl, by decide, le_rfl⟩, ?_⟩
    have hnext := daysOf_next_year (year - 1)
    rw [Int.sub_add_cancel] at hnext
    rw [Nat.cast_one, hnext, daysOf_one]
    omega

theorem exists_date (n : Int) : ∃ year month day, IsDate year month day ∧ daysOf year month day = n := by
  induction n using Int.induction_on with
  | zero => exact ⟨1970, 1, 1, ⟨le_rfl, by decide, le_rfl, by decide⟩, by decide⟩
  | succ n ih =>
    obtain ⟨year, month, day, hdate, hn⟩ := ih
    rw [← hn]
    exact exists_next hdate
  | pred n ih =>
    obtain ⟨year, month, day, hdate, hn⟩ := ih
    rw [← hn]
    exact exists_previous hdate

/-- Every day number is that of its date. -/
theorem daysOf_civil (n : Int) :
    IsDate (civil n).1 (civil n).2.1 (civil n).2.2 ∧ daysOf (civil n).1 (civil n).2.1 (civil n).2.2 = n := by
  obtain ⟨year, month, day, hdate, rfl⟩ := exists_date n
  rw [civil_daysOf hdate]
  exact ⟨hdate, rfl⟩

theorem daysOf_month_le (year : Int) {month' : Nat} (hpos : 1 ≤ month) (hle : month ≤ month') (htwelve : month' ≤ 12) :
    daysOf year month 1 ≤ daysOf year month' 1 := by
  induction month', hle using Nat.le_induction with
  | base => exact le_rfl
  | succ m hm ih =>
    have hnext : daysOf year (m + 1) 1 = daysOf year m 1 + daysIn m year := daysOf_next_month (by omega) (by omega)
    have := ih (by omega)
    omega

/-- A date lies within its year. -/
theorem IsDate.in_year (h : IsDate year month day) :
    daysOf year 1 1 ≤ daysOf year month day ∧ daysOf year month day < daysOf (year + 1) 1 1 := by
  have hlast := h.day_le
  have hfirst := h.day_pos
  have hday := daysOf_one year month day
  constructor
  · have := daysOf_month_le year le_rfl h.month_pos h.month_le
    omega
  · have hyear := daysOf_next_year year
    rcases h.month_le.lt_or_eq with hlt | rfl
    · have hnext : daysOf year (month + 1) 1 = daysOf year month 1 + daysIn month year :=
        daysOf_next_month h.month_pos hlt
      have := daysOf_month_le year (by omega : 1 ≤ month + 1) hlt le_rfl
      omega
    · have : daysIn 12 year = 31 := rfl
      omega

end Calendar

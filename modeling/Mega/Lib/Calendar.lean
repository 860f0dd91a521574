/-
# The Gregorian calendar

Dates, and the number of a date: how many days it comes after January 1 of the
year 1. The numbers of one year follow those of the year before, so the number
determines whether the year is below a bound.

Conversions count years from March, so that the leap day comes last: `ofMarch`
is the date a number of days after March 1, and the month and day in it are found
by a division. An era is 400 years of 146097 days, and the year of a day of the
era is also found by a division (`yearOfEra_spec`).

Key definitions: `Date`, `Date.number`, `ofMarch`, `yearOfEra`, `ofEra`.
Key theorems: `Date.number_eq`, `Date.year_lt_iff`, `number_ofMarch`,
`yearOfEra_spec`, `number_ofEra`.
-/
import Mathlib

namespace Calendar

def IsLeap (y : ℤ) : Prop := y % 4 = 0 ∧ (y % 100 ≠ 0 ∨ y % 400 = 0)

instance : DecidablePred IsLeap := fun y => inferInstanceAs (Decidable (y % 4 = 0 ∧ (y % 100 ≠ 0 ∨ y % 400 = 0)))

/-- The days of a month. -/
def daysIn (y : ℤ) : ℕ → ℕ
  | 2 => if IsLeap y then 29 else 28
  | 4 | 6 | 9 | 11 => 30
  | _ => 31

structure Date where
  year : ℤ
  month : ℕ
  day : ℕ
  monthPos : 1 ≤ month
  monthLe : month ≤ 12
  dayPos : 1 ≤ day
  dayLe : day ≤ daysIn year month

def daysBeforeMonth (y : ℤ) (m : ℕ) : ℕ := ((List.range (m - 1)).map fun i => daysIn y (i + 1)).sum

/-- The days from January 1 of the year 1. -/
def daysBeforeYear (y : ℤ) : ℤ := 365 * (y - 1) + (y - 1) / 4 - (y - 1) / 100 + (y - 1) / 400

theorem daysBeforeYear_succ (y : ℤ) : daysBeforeYear (y + 1) = daysBeforeYear y + if IsLeap y then 366 else 365 := by
  unfold daysBeforeYear IsLeap
  split_ifs with h <;> omega

theorem daysBeforeYear_mono : Monotone daysBeforeYear := by
  refine monotone_int_of_le_succ fun y => ?_
  rw [daysBeforeYear_succ]
  split_ifs <;> omega

namespace Date

/-- How many days a date comes after January 1 of the year 1. -/
def number (date : Date) : ℤ := daysBeforeYear date.year + daysBeforeMonth date.year date.month + date.day - 1

/-- The year, if it began in March. -/
def marchYear (date : Date) : ℤ := if date.month ≤ 2 then date.year - 1 else date.year

/-- The months since March. -/
def marchMonth (date : Date) : ℕ := if date.month ≤ 2 then date.month + 9 else date.month - 3

/-- **The number of a date, counted from March.** -/
theorem number_eq (date : Date) : date.number =
    daysBeforeYear (date.marchYear + 1) - 306 + ((153 * date.marchMonth + 2) / 5 : ℕ) + date.day - 1 := by
  obtain ⟨year, month, day, hpos, hle, -, -⟩ := date
  have hyear := daysBeforeYear_succ year
  simp only [number, marchYear, marchMonth]
  by_cases hleap : IsLeap year
  · rw [if_pos hleap] at hyear
    interval_cases month <;>
      simp only [daysBeforeMonth, daysIn, hleap, List.range_succ, List.map_append, List.sum_append] <;> simp <;> omega
  · rw [if_neg hleap] at hyear
    interval_cases month <;>
      simp only [daysBeforeMonth, daysIn, hleap, List.range_succ, List.map_append, List.sum_append] <;> simp <;> omega

theorem daysBeforeYear_le_number (date : Date) : daysBeforeYear date.year ≤ date.number := by
  have hday := date.dayPos
  unfold number
  omega

theorem number_lt (date : Date) : date.number < daysBeforeYear (date.year + 1) := by
  have hnumber := date.number_eq
  have hyear := daysBeforeYear_succ date.year
  obtain ⟨year, month, day, hpos, hle, hfirst, hday⟩ := date
  simp only [marchYear, marchMonth] at hnumber hyear ⊢
  interval_cases month
  all_goals simp only [daysIn, Nat.reduceLeDiff, if_true, if_false, sub_add_cancel] at hday hnumber
  all_goals split_ifs at hday hyear <;> omega

/-- **The number of a date bounds its year.** -/
theorem year_lt_iff (date : Date) (y : ℤ) : date.year < y ↔ date.number < daysBeforeYear y := by
  constructor
  · intro h
    exact date.number_lt.trans_le (daysBeforeYear_mono h)
  · intro h
    by_contra hle
    have hmono := daysBeforeYear_mono (not_lt.mp hle)
    have hnumber := date.daysBeforeYear_le_number
    omega

end Date

/-! ### Dates from the days since March -/

/-- The month `p` months after March, and the year it lies in. -/
def monthAfter (p : ℕ) : ℕ := if p < 10 then p + 3 else p - 9

def yearAfter (y : ℤ) (p : ℕ) : ℤ := if p < 10 then y else y + 1

theorem daysIn_monthAfter {y : ℤ} {doy : ℕ} (h : doy < 365 + if IsLeap (y + 1) then 1 else 0) :
    doy - (153 * ((5 * doy + 2) / 153) + 2) / 5 + 1 ≤
      daysIn (yearAfter y ((5 * doy + 2) / 153)) (monthAfter ((5 * doy + 2) / 153)) := by
  have hdoy : doy ≤ 365 := by split_ifs at h <;> omega
  generalize hp : (5 * doy + 2) / 153 = p
  have hmonth : p ≤ 11 := by omega
  unfold yearAfter monthAfter
  interval_cases p
  all_goals simp only [daysIn, Nat.reduceAdd, Nat.reduceSub, Nat.reduceLT, if_true, if_false]
  all_goals try omega
  -- February: its last day is there in leap years only
  split_ifs at h ⊢ <;> omega

/-- The date `doy` days after March 1 of the year `y`. -/
def ofMarch (y : ℤ) (doy : ℕ) (h : doy < 365 + if IsLeap (y + 1) then 1 else 0) : Date where
  year := yearAfter y ((5 * doy + 2) / 153)
  month := monthAfter ((5 * doy + 2) / 153)
  day := doy - (153 * ((5 * doy + 2) / 153) + 2) / 5 + 1
  monthPos := by unfold monthAfter; split_ifs <;> omega
  monthLe := by
    have hdoy : doy ≤ 365 := by split_ifs at h <;> omega
    unfold monthAfter
    split_ifs <;> omega
  dayPos := Nat.le_add_left 1 _
  dayLe := daysIn_monthAfter h

theorem marchYear_ofMarch {y : ℤ} {doy : ℕ} (h : doy < 365 + if IsLeap (y + 1) then 1 else 0) :
    (ofMarch y doy h).marchYear = y := by
  have hdoy : doy ≤ 365 := by split_ifs at h <;> omega
  simp only [Date.marchYear, ofMarch, monthAfter, yearAfter]
  split_ifs <;> omega

theorem marchMonth_ofMarch {y : ℤ} {doy : ℕ} (h : doy < 365 + if IsLeap (y + 1) then 1 else 0) :
    (ofMarch y doy h).marchMonth = (5 * doy + 2) / 153 := by
  have hdoy : doy ≤ 365 := by split_ifs at h <;> omega
  simp only [Date.marchMonth, ofMarch, monthAfter]
  split_ifs <;> omega

/-- **The number of the date is that of March 1 and the days after it.** -/
theorem number_ofMarch {y : ℤ} {doy : ℕ} (h : doy < 365 + if IsLeap (y + 1) then 1 else 0) :
    (ofMarch y doy h).number = daysBeforeYear (y + 1) - 306 + doy := by
  have hday : (ofMarch y doy h).day = doy - (153 * ((5 * doy + 2) / 153) + 2) / 5 + 1 := rfl
  rw [Date.number_eq, marchYear_ofMarch, marchMonth_ofMarch, hday]
  omega

/-! ### The year of a day of the era -/

/-- The days of the era before its year `y`, both counted from March. -/
def daysOfEra (y : ℕ) : ℕ := 365 * y + y / 4 - y / 100

/-- The days without the leap days. -/
def leapless (doe : ℕ) : ℕ := doe - doe / 1460 + doe / 36524 - doe / 146096

def yearOfEra (doe : ℕ) : ℕ := leapless doe / 365

theorem leapless_mono : Monotone leapless := by
  intro a b h
  have ha : a / 146096 = a / 36524 / 4 := (Nat.div_div_eq_div_mul a 36524 4).symm
  have hb : b / 146096 = b / 36524 / 4 := (Nat.div_div_eq_div_mul b 36524 4).symm
  have hcentury : a / 36524 ≤ b / 36524 := Nat.div_le_div_right h
  have hdays : a - a / 1460 ≤ b - b / 1460 := by omega
  have hfourths : a / 36524 - a / 36524 / 4 ≤ b / 36524 - b / 36524 / 4 := by omega
  unfold leapless
  rw [ha, hb]
  omega

theorem leapless_daysOfEra : ∀ y < 400, 365 * y ≤ leapless (daysOfEra y) ∧
    (0 < y → leapless (daysOfEra y - 1) < 365 * y) := by decide +kernel

theorem daysOfEra_succ : ∀ y < 400, daysOfEra y + (365 + if IsLeap (y + 1) then 1 else 0) =
    if y + 1 = 400 then 146097 else daysOfEra (y + 1) := by decide +kernel

/-- **The year of a day of the era**: the day is one of this year. -/
theorem yearOfEra_spec {doe : ℕ} (h : doe < 146097) : yearOfEra doe < 400 ∧ daysOfEra (yearOfEra doe) ≤ doe ∧
    doe - daysOfEra (yearOfEra doe) < 365 + if IsLeap (yearOfEra doe + 1) then 1 else 0 := by
  have hlast : leapless doe ≤ leapless 146096 := leapless_mono (by omega)
  have hvalue : leapless 146096 = 145999 := by decide
  obtain ⟨y, hy⟩ : ∃ y, yearOfEra doe = y := ⟨_, rfl⟩
  have hdiv : 365 * y ≤ leapless doe ∧ leapless doe < 365 * (y + 1) := by
    unfold yearOfEra at hy
    omega
  have hlt : y < 400 := by omega
  have hle : daysOfEra y ≤ doe := by
    by_contra hlater
    have hbefore := leapless_mono (show doe ≤ daysOfEra y - 1 by omega)
    have hstart : 0 < y := by
      rcases Nat.eq_zero_or_pos y with rfl | hpos
      · exact absurd (Nat.zero_le doe) hlater
      · exact hpos
    have hend := (leapless_daysOfEra y hlt).2 hstart
    omega
  have hbefore : doe < if y + 1 = 400 then 146097 else daysOfEra (y + 1) := by
    split_ifs with hend
    · exact h
    · by_contra hlater
      have hafter := leapless_mono (show daysOfEra (y + 1) ≤ doe by omega)
      have hstart := (leapless_daysOfEra (y + 1) (by omega)).1
      omega
  rw [← daysOfEra_succ y hlt] at hbefore
  rw [hy]
  exact ⟨hlt, hle, by omega⟩

theorem isLeap_era (era y : ℤ) : IsLeap (400 * era + y) ↔ IsLeap y := by
  unfold IsLeap
  omega

theorem daysBeforeYear_era {y : ℕ} (era : ℤ) (h : y < 400) :
    daysBeforeYear (400 * era + y + 1) = 146097 * era + daysOfEra y := by
  unfold daysBeforeYear daysOfEra
  omega

theorem lt_ofEra {doe : ℕ} (era : ℤ) (h : doe < 146097) : doe - daysOfEra (yearOfEra doe) <
    365 + if IsLeap (400 * era + yearOfEra doe + 1) then 1 else 0 := by
  rw [add_assoc]
  simp only [isLeap_era]
  exact (yearOfEra_spec h).2.2

/-- The date of a day of an era. -/
def ofEra (era : ℤ) (doe : ℕ) (h : doe < 146097) : Date :=
  ofMarch (400 * era + yearOfEra doe) (doe - daysOfEra (yearOfEra doe)) (lt_ofEra era h)

/-- **The number of a day of an era**: the first era begins 306 days before the year 1. -/
theorem number_ofEra {era : ℤ} {doe : ℕ} (h : doe < 146097) : (ofEra era doe h).number = 146097 * era + doe - 306 := by
  obtain ⟨hyear, hle, -⟩ := yearOfEra_spec h
  rw [ofEra, number_ofMarch, daysBeforeYear_era era hyear]
  omega

end Calendar

/-
# Timestamps of the ledger

`rfc3339_utc` of `contract/policy/secure_hardcap.rs` and `age_of_rfc3339` of
`contract/policy/secure_lifecycle.rs`. A ledger entry carries the time it was made
as text, and its age is found by reading the text again. The two sides convert
between day numbers and dates each in its own way. Both agree with the calendar:
`civil_from_days` gives the date with this number, and `days_from_civil` the number
of a date. So a timestamp that is read again is the second it was made in.

A `SystemTime` is the nanoseconds since the epoch, a `Duration` is nanoseconds.
Arithmetic of `i32` and `i64` goes round.

Key definitions: `civilFromDays`, `daysFromCivil`, `rfc3339Utc`, `ageOfRfc3339`.
Key theorems: `civilFromDays_eq`, `daysFromCivil_eq`, `timestamps_round_trip`.
-/
import Mega.Lib.Calendar
import Mega.Lib.Fallible
import Mega.Lib.Splits
import Mega.Json.Decimals

namespace Mega
namespace Policy

open List Calendar
open Json (Text IsDigits wrapI32 parseI32 wrapI32_of_lt)

/-! ### Days and dates -/

def wrapI64 (n : ℤ) : ℤ := n.bmod (2 ^ 64)

/-- `as u64`. -/
def asU64 (n : ℤ) : ℕ := (n % 2 ^ 64).toNat

/-- The date of a day of an era. -/
def civilOfEra (era : ℤ) (doe : ℕ) : ℤ × ℕ × ℕ :=
  let yoe := (doe - doe / 1460 + doe / 36524 - doe / 146096) / 365
  let y := wrapI32 (wrapI32 yoe + wrapI32 (wrapI32 era * 400))
  let doy := doe - (365 * yoe + yoe / 4 - yoe / 100)
  let mp := (5 * doy + 2) / 153
  let d := doy - (153 * mp + 2) / 5 + 1
  let m := if mp < 10 then mp + 3 else mp - 9
  (if m ≤ 2 then wrapI32 (y + 1) else y, m, d)

def civilFromDays (days : ℤ) : ℤ × ℕ × ℕ :=
  let z := wrapI64 (days + 719468)
  let era := (if 0 ≤ z then z else wrapI64 (z - 146096)).tdiv 146097
  let doe := asU64 (wrapI64 (z - wrapI64 (era * 146097)))
  civilOfEra era doe

inductive ArtifactError where
  | lifecycleRejected (reason : Text)
deriving DecidableEq

def rejected {α : Type} (reason : String) : Except ArtifactError α := .error (.lifecycleRejected reason.toList)

/-- A reason that names the timestamp. -/
def rejectedIn {α : Type} (reason : String) (stamp : Text) : Except ArtifactError α :=
  .error (.lifecycleRejected (reason.toList ++ stamp))

def dim : List ℕ := [31, 28, 31, 30, 31, 30, 31, 31, 30, 31, 30, 31]

def daysFromCivil (year : ℤ) (month day : ℕ) : Except ArtifactError ℤ :=
  if ¬ (1 ≤ month ∧ month ≤ 12) then rejected "invalid date"
  else
    let leap := year.tmod 4 = 0 ∧ (year.tmod 100 ≠ 0 ∨ year.tmod 400 = 0)
    let maxDay := if month = 2 ∧ leap then 29 else dim.getD (month - 1) 0
    if day = 0 ∨ maxDay < day then rejected "invalid date"
    else
      let y := if month ≤ 2 then wrapI32 (year - 1) else year
      let era := (if 0 ≤ y then y else wrapI32 (y - 399)).tdiv 400
      let yoe := asU64 (wrapI32 (y - wrapI32 (era * 400)))
      let mp := if 2 < month then month - 3 else month + 9
      let doy := (153 * mp + 2) / 5 + day - 1
      let doe := yoe * 365 + yoe / 4 - yoe / 100 + doy
      .ok (era * 146097 + doe - 719468)

/-! ### Printing -/

/-- `{n:0width}`, with the sign before the zeros. -/
def zeroPad (width : ℕ) (n : ℤ) : Text :=
  if n < 0 then '-' :: (Nat.toDigits 10 n.natAbs).leftpad (width - 1) '0'
  else (Nat.toDigits 10 n.natAbs).leftpad width '0'

abbrev SystemTime := ℤ

def nanosPerSec : ℕ := 1000000000

/-- `duration_since`, which fails if the other time is later. -/
def durationSince (now earlier : SystemTime) : Option ℕ := if earlier ≤ now then some (now - earlier).toNat else none

def rfc3339Utc (now : SystemTime) : Text :=
  let secs := (durationSince now 0).getD 0 / nanosPerSec
  let days := secs / 86400
  let rem := secs % 86400
  let hour := rem / 3600
  let min := rem % 3600 / 60
  let sec := rem % 60
  let (y, m, d) := civilFromDays days
  zeroPad 4 y ++ ['-'] ++ zeroPad 2 m ++ ['-'] ++ zeroPad 2 d ++ ['T'] ++
    zeroPad 2 hour ++ [':'] ++ zeroPad 2 min ++ [':'] ++ zeroPad 2 sec ++ ['Z']

/-! ### Reading -/

/-- `str::parse::<u32>`. -/
def parseU32 (text : Text) : Option ℕ :=
  let digits := if text.head? = some '+' then text.tail else text
  if digits = [] ∨ digits.any (fun ch => !ch.isDigit) then none
  else if Decimal.value digits < 2 ^ 32 then some (Decimal.value digits) else none

/-- A part of the timestamp that has to be a number. -/
def numberOr {α : Type} (parsed : Option α) (reason : String) (stamp : Text) : Except ArtifactError α :=
  match parsed with
  | some n => .ok n
  | none => rejectedIn reason stamp

def checkedI64 (n : ℤ) : Option ℤ := if -2 ^ 63 ≤ n ∧ n < 2 ^ 63 then some n else none

def secsOf (days : ℤ) (hour min sec : ℕ) : Option ℤ := do
  let secs ← checkedI64 (days * 86400)
  let secs ← checkedI64 (secs + hour * 3600)
  let secs ← checkedI64 (secs + min * 60)
  checkedI64 (secs + sec)

/-- The date and the time of day are there: the age that they give. -/
def ageOfParts (stamp : Text) (year month day hour min sec : Text) (now : SystemTime) : Except ArtifactError ℕ := do
  let year ← numberOr (parseI32 year) "bad year in " stamp
  let month ← numberOr (parseU32 month) "bad month in " stamp
  let day ← numberOr (parseU32 day) "bad day in " stamp
  let hour ← numberOr (parseU32 hour) "bad hour in " stamp
  let min ← numberOr (parseU32 min) "bad minute in " stamp
  let sec ← numberOr (parseU32 sec) "bad second in " stamp
  if 23 < hour ∨ 59 < min ∨ 60 < sec then rejectedIn "out-of-range time in " stamp
  else do
    let days ← daysFromCivil year month day
    let secs ← numberOr (secsOf days hour min sec) "timestamp overflow " stamp
    if secs < 0 then rejectedIn "pre-epoch timestamp rejected: " stamp
    else .ok ((durationSince now (secs * nanosPerSec)).getD 0)

def ageOfRfc3339 (stamp : Text) (now : SystemTime) : Except ArtifactError ℕ :=
  if stamp.getLast? ≠ some 'Z' then rejectedIn "timestamp must end with Z: " stamp
  else if 'Z' ∈ stamp.dropLast ∨ stamp.count 'Z' ≠ 1 then rejectedIn "timestamp must contain exactly one Z: " stamp
  else
    match stamp.dropLast.splitOn 'T' with
    | [date, time] =>
      match date.splitOn '-', time.splitOn ':' with
      | [year, month, day], [hour, min, sec] => ageOfParts stamp year month day hour min sec now
      | _, _ => rejectedIn "bad timestamp " stamp
    | _ => rejectedIn "bad created_at/settled_at " stamp

/-! ### The conversions agree with the calendar -/

theorem wrapI64_of_lt {n : ℤ} (hlow : -2 ^ 63 ≤ n) (hhigh : n < 2 ^ 63) : wrapI64 n = n :=
  Int.bmod_eq_of_le (by omega) (by omega)

/-- The number of the first day of 1970. -/
def epochNumber : ℤ := 719162

theorem daysBeforeYear_max : daysBeforeYear (2 ^ 31) < 2 ^ 40 := by decide

/-- The date of the day `days`, found by way of its era. -/
def dateOf (days : ℕ) : Date := ofEra ((days + 719468) / 146097 : ℕ) ((days + 719468) % 146097) (Nat.mod_lt _ (by decide))

theorem number_dateOf (days : ℕ) : (dateOf days).number = days + epochNumber := by
  rw [dateOf, number_ofEra, epochNumber]
  omega

theorem days_lt_of_year {days : ℕ} (h : (dateOf days).year < 2 ^ 31) : days < 2 ^ 40 := by
  have hnumber := ((dateOf days).year_lt_iff _).mp h
  have hmax := daysBeforeYear_max
  rw [number_dateOf, epochNumber] at hnumber
  omega

/-- The year counted from March, and the year of the date. -/
theorem marchYear_le (date : Date) : date.marchYear ≤ date.year := by
  unfold Date.marchYear
  split_ifs <;> omega

/-- The year and the month, if the year does not go round. -/
theorem year_month_eq {y : ℤ} {mp : ℕ} (hlow : 0 ≤ y) (hhigh : yearAfter y mp < 2 ^ 31) (hmp : mp ≤ 11) :
    (if monthAfter mp ≤ 2 then wrapI32 (y + 1) else y) = yearAfter y mp := by
  unfold yearAfter monthAfter at *
  split_ifs at * with hmonth hafter
  · omega
  · rfl
  · exact wrapI32_of_lt (by omega) hhigh
  · omega

theorem civilOfEra_eq {era doe : ℕ} (h : doe < 146097) (hyear : (ofEra era doe h).year < 2 ^ 31) :
    civilOfEra era doe = ((ofEra era doe h).year, (ofEra era doe h).month, (ofEra era doe h).day) := by
  have hmarch := (marchYear_le (ofEra era doe h)).trans_lt hyear
  rw [ofEra, marchYear_ofMarch] at hmarch
  obtain ⟨hyoe, -, hdoy⟩ := yearOfEra_spec h
  have hmp : (5 * (doe - daysOfEra (yearOfEra doe)) + 2) / 153 ≤ 11 := by
    have hle : doe - daysOfEra (yearOfEra doe) ≤ 365 := by split_ifs at hdoy <;> omega
    omega
  have hy : wrapI32 (wrapI32 (yearOfEra doe) + wrapI32 (wrapI32 era * 400)) = 400 * era + yearOfEra doe := by
    rw [wrapI32_of_lt (n := (yearOfEra doe : ℤ)) (by omega) (by omega),
      wrapI32_of_lt (n := (era : ℤ)) (by omega) (by omega),
      wrapI32_of_lt (n := (era : ℤ) * 400) (by omega) (by omega), wrapI32_of_lt (by omega) (by omega)]
    ring
  have hdate := year_month_eq (y := 400 * era + yearOfEra doe) (by omega) hyear hmp
  unfold civilOfEra
  simp only [← leapless.eq_1, ← yearOfEra.eq_1, ← daysOfEra.eq_1, ← monthAfter.eq_1, hy, hdate]
  rfl

theorem civilFromDays_natCast {days : ℕ} (h : days < 2 ^ 40) :
    civilFromDays days = civilOfEra ((days + 719468) / 146097 : ℕ) ((days + 719468) % 146097) := by
  have hz : wrapI64 (days + 719468) = days + 719468 := wrapI64_of_lt (by omega) (by omega)
  have hera : (days + 719468 : ℤ).tdiv 146097 = ((days + 719468) / 146097 : ℕ) := rfl
  have hback : wrapI64 (((days + 719468) / 146097 : ℕ) * 146097) = ((days + 719468) / 146097 : ℕ) * 146097 :=
    wrapI64_of_lt (by omega) (by omega)
  have hdoe : asU64 (wrapI64 (days + 719468 - ((days + 719468) / 146097 : ℕ) * 146097)) = (days + 719468) % 146097 := by
    rw [wrapI64_of_lt (by omega) (by omega)]
    unfold asU64
    omega
  unfold civilFromDays
  simp only [hz, if_pos (by omega : (0 : ℤ) ≤ days + 719468), hera, hback, hdoe]

/-- **`civil_from_days` is the date of the day.** -/
theorem civilFromDays_eq {days : ℕ} (hyear : (dateOf days).year < 2 ^ 31) :
    civilFromDays days = ((dateOf days).year, (dateOf days).month, (dateOf days).day) := by
  rw [civilFromDays_natCast (days_lt_of_year hyear)]
  exact civilOfEra_eq _ hyear

theorem tmod_eq_zero_iff (a b : ℤ) : a.tmod b = 0 ↔ a % b = 0 := by
  rw [← Int.dvd_iff_tmod_eq_zero, Int.dvd_iff_emod_eq_zero]

theorem maxDay_eq (year : ℤ) {month : ℕ} (hpos : 1 ≤ month) (hle : month ≤ 12) :
    (if month = 2 ∧ year.tmod 4 = 0 ∧ (year.tmod 100 ≠ 0 ∨ year.tmod 400 = 0) then 29 else dim.getD (month - 1) 0) =
      daysIn year month := by
  simp only [ne_eq, tmod_eq_zero_iff]
  show (if month = 2 ∧ IsLeap year then 29 else dim.getD (month - 1) 0) = daysIn year month
  by_cases hfebruary : month = 2
  · subst hfebruary
    by_cases hleap : IsLeap year <;> simp [hleap, daysIn, dim]
  · rw [if_neg fun h => hfebruary h.1]
    interval_cases month <;> first | rfl | exact absurd rfl hfebruary

/-- **`days_from_civil` is the number of the date.** -/
theorem daysFromCivil_eq {date : Date} (hlow : 0 < date.year) (hhigh : date.year < 2 ^ 31) :
    daysFromCivil date.year date.month date.day = .ok (date.number - epochNumber) := by
  have hmarch := marchYear_le date
  have hmarch' : 0 ≤ date.marchYear := by
    unfold Date.marchYear
    split_ifs <;> omega
  have hy : (if date.month ≤ 2 then wrapI32 (date.year - 1) else date.year) = date.marchYear := by
    unfold Date.marchYear
    rw [wrapI32_of_lt (by omega) (by omega)]
  have hmp : (if 2 < date.month then date.month - 3 else date.month + 9) = date.marchMonth := by
    unfold Date.marchMonth
    split_ifs <;> omega
  have hday := date.dayPos
  have hlast := date.dayLe
  rw [Date.number_eq]
  unfold daysFromCivil
  simp only [hy, hmp, maxDay_eq date.year date.monthPos date.monthLe]
  rw [if_neg (not_not.mpr ⟨date.monthPos, date.monthLe⟩), if_neg (by omega)]
  obtain ⟨y, hmarchYear⟩ := Int.eq_ofNat_of_zero_le hmarch'
  rw [hmarchYear] at hmarch ⊢
  have hera : (if 0 ≤ (y : ℤ) then (y : ℤ) else wrapI32 (y - 399)).tdiv 400 = (y / 400 : ℕ) := by
    rw [if_pos (Int.natCast_nonneg y)]
    rfl
  have hback : wrapI32 ((y / 400 : ℕ) * 400) = (y / 400 : ℕ) * 400 := wrapI32_of_lt (by omega) (by omega)
  have hyoe : asU64 (wrapI32 (y - (y / 400 : ℕ) * 400)) = y % 400 := by
    rw [wrapI32_of_lt (by omega) (by omega)]
    unfold asU64
    omega
  have hyear : daysBeforeYear (y + 1) = 146097 * (y / 400 : ℕ) + daysOfEra (y % 400) := by
    have hsplit : (y : ℤ) + 1 = 400 * (y / 400 : ℕ) + (y % 400 : ℕ) + 1 := by omega
    rw [hsplit, daysBeforeYear_era _ (Nat.mod_lt y (by decide))]
  simp only [hera, hback, hyoe, hyear]
  unfold daysOfEra epochNumber
  rw [Except.ok.injEq]
  omega

theorem year_dateOf (days : ℕ) : 1970 ≤ (dateOf days).year := by
  have hnumber := number_dateOf days
  have hepoch : daysBeforeYear 1970 = epochNumber := by decide
  by_contra hbefore
  have hlt := ((dateOf days).year_lt_iff 1970).mp (not_le.mp hbefore)
  omega

/-- **`days_from_civil` takes the date of a day back to the day.** -/
theorem daysFromCivil_dateOf {days : ℕ} (hyear : (dateOf days).year < 2 ^ 31) :
    daysFromCivil (dateOf days).year (dateOf days).month (dateOf days).day = .ok days := by
  have hafter := year_dateOf days
  rw [daysFromCivil_eq (by omega) hyear, number_dateOf, add_sub_cancel_right]

/-! ### What is printed is read again -/

theorem value_leftpad (width n : ℕ) : Decimal.value ((Nat.toDigits 10 n).leftpad width '0') = n := by
  rw [leftpad, Decimal.value_append, Decimal.value_zeros, Decimal.value_toDigits, Nat.zero_mul, Nat.zero_add]

theorem isDigits_leftpad (width n : ℕ) : IsDigits ((Nat.toDigits 10 n).leftpad width '0') := by
  obtain ⟨hne, hdigits⟩ := Json.isDigits_toDigits n
  refine ⟨append_ne_nil_of_right_ne_nil _ hne, fun ch hch => ?_⟩
  rcases mem_append.mp hch with hch | hch
  · rw [eq_of_mem_replicate hch]
    rfl
  · exact hdigits ch hch

theorem zeroPad_natCast (width n : ℕ) : zeroPad width n = (Nat.toDigits 10 n).leftpad width '0' := by
  rw [zeroPad, if_neg (by omega), Int.natAbs_natCast]

theorem isDigits_zeroPad (width n : ℕ) : IsDigits (zeroPad width n) := by
  rw [zeroPad_natCast]
  exact isDigits_leftpad width n

theorem parseU32_digits {digits : Text} (h : IsDigits digits) (hvalue : Decimal.value digits < 2 ^ 32) :
    parseU32 digits = some (Decimal.value digits) := by
  have hplus : digits.head? ≠ some '+' := Json.head_ne_of_digits h rfl
  have hany : ¬ digits.any (fun ch => !ch.isDigit) = true := by simpa using h.2
  simp only [parseU32, if_neg hplus, h.1, false_or, if_neg hany, if_pos hvalue]

theorem parseU32_zeroPad {width n : ℕ} (h : n < 2 ^ 32) : parseU32 (zeroPad width n) = some n := by
  have hvalue := value_leftpad width n
  rw [← zeroPad_natCast] at hvalue
  rw [parseU32_digits (isDigits_zeroPad width n) (by rw [hvalue]; exact h), hvalue]

theorem parseI32_zeroPad {width n : ℕ} (h : n < 2 ^ 31) : parseI32 (zeroPad width n) = some (n : ℤ) := by
  have hvalue := value_leftpad width n
  rw [← zeroPad_natCast] at hvalue
  have hdigits := isDigits_zeroPad width n
  have hplus : (zeroPad width n).head? ≠ some '+' := Json.head_ne_of_digits hdigits rfl
  have hminus : (zeroPad width n).head? ≠ some '-' := Json.head_ne_of_digits hdigits rfl
  have hany : ¬ (zeroPad width n).any (fun ch => !ch.isDigit) = true := by simpa using hdigits.2
  simp only [parseI32, hminus, hplus, or_self, if_false, hdigits.1, false_or, if_neg hany, hvalue]
  rw [if_pos (by omega)]

theorem not_mem_of_digits {digits : Text} (h : IsDigits digits) {ch : Char} (hch : ch.isDigit = false) :
    ch ∉ digits := by
  intro hmem
  have hdigit := h.2 ch hmem
  rw [hch] at hdigit
  cases hdigit

section Stamp

variable {year month day hour min sec : Text}

/-- The parts of a timestamp and what stands between them. -/
def stampText (year month day hour min sec : Text) : Text :=
  year ++ ['-'] ++ month ++ ['-'] ++ day ++ ['T'] ++ hour ++ [':'] ++ min ++ [':'] ++ sec ++ ['Z']

/-- A timestamp whose parts are digits is taken apart into them. -/
theorem ageOfRfc3339_stampText (hyear : IsDigits year) (hmonth : IsDigits month) (hday : IsDigits day)
    (hhour : IsDigits hour) (hmin : IsDigits min) (hsec : IsDigits sec) (now : SystemTime) :
    ageOfRfc3339 (stampText year month day hour min sec) now =
      ageOfParts (stampText year month day hour min sec) year month day hour min sec now := by
  have hno {digits : Text} (h : IsDigits digits) : '-' ∉ digits ∧ ':' ∉ digits ∧ 'T' ∉ digits ∧ 'Z' ∉ digits :=
    ⟨not_mem_of_digits h rfl, not_mem_of_digits h rfl, not_mem_of_digits h rfl, not_mem_of_digits h rfl⟩
  obtain ⟨date, hdate⟩ : ∃ date, date = year ++ '-' :: (month ++ '-' :: day) := ⟨_, rfl⟩
  obtain ⟨time, htime⟩ : ∃ time, time = hour ++ ':' :: (min ++ ':' :: sec) := ⟨_, rfl⟩
  have hstamp : stampText year month day hour min sec = date ++ 'T' :: time ++ ['Z'] := by
    rw [hdate, htime]
    simp [stampText]
  have hdateT : 'T' ∉ date := by simp [hdate, hno hyear, hno hmonth, hno hday]
  have htimeT : 'T' ∉ time := by simp [htime, hno hhour, hno hmin, hno hsec]
  have hbody : 'Z' ∉ date ++ 'T' :: time := by
    simp [hdate, htime, hno hyear, hno hmonth, hno hday, hno hhour, hno hmin, hno hsec]
  have hcount : (date ++ 'T' :: time ++ ['Z']).count 'Z' = 1 := by
    rw [count_append, count_eq_zero.mpr hbody]
    rfl
  have hsplitDate : date.splitOn '-' = [year, month, day] := by
    rw [hdate, Splits.splitOn_three (hno hyear).1 (hno hmonth).1 (hno hday).1]
  have hsplitTime : time.splitOn ':' = [hour, min, sec] := by
    rw [htime, Splits.splitOn_three (hno hhour).2.1 (hno hmin).2.1 (hno hsec).2.1]
  unfold ageOfRfc3339
  rw [hstamp, getLast?_concat, dropLast_concat, hcount, if_neg (not_not.mpr rfl), if_neg (by simp [hbody]),
    Splits.splitOn_two hdateT htimeT]
  simp only [hsplitDate, hsplitTime]

end Stamp

theorem checkedI64_of_lt {n : ℤ} (hlow : 0 ≤ n) (hhigh : n < 2 ^ 63) : checkedI64 n = some n := by
  rw [checkedI64, if_pos (by omega)]

theorem secsOf_natCast {days hour min sec : ℕ} (hdays : days < 2 ^ 40) (hhour : hour ≤ 23) (hmin : min ≤ 59)
    (hsec : sec ≤ 59) : secsOf days hour min sec = some ((days * 86400 + hour * 3600 + min * 60 + sec : ℕ) : ℤ) := by
  have hday : checkedI64 (days * 86400) = some (days * 86400 : ℤ) := checkedI64_of_lt (by omega) (by omega)
  have hhours := checkedI64_of_lt (n := days * 86400 + hour * 3600) (by omega) (by omega)
  have hmins := checkedI64_of_lt (n := days * 86400 + hour * 3600 + min * 60) (by omega) (by omega)
  have hsecs := checkedI64_of_lt (n := days * 86400 + hour * 3600 + min * 60 + sec) (by omega) (by omega)
  have hsum : ((days * 86400 + hour * 3600 + min * 60 + sec : ℕ) : ℤ) =
      days * 86400 + hour * 3600 + min * 60 + sec := by push_cast; ring
  unfold secsOf
  rw [hday, Option.bind_eq_bind, Option.bind_some, hhours, Option.bind_some, hmins, Option.bind_some, hsecs, hsum]

theorem durationSince_getD (now earlier : SystemTime) : (durationSince now earlier).getD 0 = (now - earlier).toNat := by
  unfold durationSince
  split_ifs with h
  · rfl
  · exact (Int.toNat_of_nonpos (sub_nonpos.mpr (le_of_not_ge h))).symm

/-- The parts of a time of day that exists, on a date of the calendar: the age is that of the second they name. -/
theorem ageOfParts_zeroPad {days y m d hour min sec : ℕ} (stamp : Text) (now : SystemTime) (hdays : days < 2 ^ 40)
    (hdate : daysFromCivil y m d = .ok days) (hy : y < 2 ^ 31) (hm : m < 2 ^ 32) (hd : d < 2 ^ 32) (hhour : hour ≤ 23)
    (hmin : min ≤ 59) (hsec : sec ≤ 59) :
    ageOfParts stamp (zeroPad 4 y) (zeroPad 2 m) (zeroPad 2 d) (zeroPad 2 hour) (zeroPad 2 min) (zeroPad 2 sec) now =
      .ok (now - (days * 86400 + hour * 3600 + min * 60 + sec : ℕ) * nanosPerSec).toNat := by
  unfold ageOfParts
  rw [parseI32_zeroPad hy, parseU32_zeroPad hm, parseU32_zeroPad hd, parseU32_zeroPad (by omega : hour < 2 ^ 32),
    parseU32_zeroPad (by omega : min < 2 ^ 32), parseU32_zeroPad (by omega : sec < 2 ^ 32)]
  refine Fallible.bind_eq_ok.mpr ⟨_, rfl, ?_⟩
  refine Fallible.bind_eq_ok.mpr ⟨_, rfl, ?_⟩
  refine Fallible.bind_eq_ok.mpr ⟨_, rfl, ?_⟩
  refine Fallible.bind_eq_ok.mpr ⟨_, rfl, ?_⟩
  refine Fallible.bind_eq_ok.mpr ⟨_, rfl, ?_⟩
  refine Fallible.bind_eq_ok.mpr ⟨_, rfl, ?_⟩
  rw [if_neg (by omega)]
  refine Fallible.bind_eq_ok.mpr ⟨days, hdate, ?_⟩
  rw [secsOf_natCast hdays hhour hmin hsec]
  refine Fallible.bind_eq_ok.mpr ⟨_, rfl, ?_⟩
  rw [if_neg (by omega), durationSince_getD]

/-! ### Round trips -/

/-- The year of a day fits an `i32`. -/
def YearFits (days : ℕ) : Prop := ∃ date : Date, date.number = days + epochNumber ∧ date.year < 2 ^ 31

theorem YearFits.dateOf {days : ℕ} (h : YearFits days) : (dateOf days).year < 2 ^ 31 := by
  obtain ⟨date, hnumber, hyear⟩ := h
  rw [Date.year_lt_iff] at hyear ⊢
  rw [number_dateOf, ← hnumber]
  exact hyear

/-- The whole seconds since the epoch. -/
def wholeSecs (t : SystemTime) : ℕ := t.toNat / nanosPerSec

theorem rfc3339Utc_eq (t : SystemTime) : rfc3339Utc t =
    let (y, m, d) := civilFromDays (wholeSecs t / 86400 : ℕ)
    stampText (zeroPad 4 y) (zeroPad 2 m) (zeroPad 2 d) (zeroPad 2 (wholeSecs t % 86400 / 3600 : ℕ))
      (zeroPad 2 (wholeSecs t % 86400 % 3600 / 60 : ℕ)) (zeroPad 2 (wholeSecs t % 86400 % 60 : ℕ)) := by
  have hsecs : (durationSince t 0).getD 0 / nanosPerSec = wholeSecs t := by
    rw [durationSince_getD, sub_zero, wholeSecs]
  unfold rfc3339Utc
  rw [hsecs]
  rfl

theorem daysIn_le (y : ℤ) (m : ℕ) : daysIn y m ≤ 31 := by
  unfold daysIn
  split <;> first | decide | split_ifs <;> decide

/-- A timestamp is read again as the second it was made in. -/
theorem ageOfRfc3339_rfc3339Utc {t : SystemTime} (hyear : YearFits (wholeSecs t / 86400)) (now : SystemTime) :
    ageOfRfc3339 (rfc3339Utc t) now = .ok (now - wholeSecs t * nanosPerSec).toNat := by
  have hfits := hyear.dateOf
  have hback := daysFromCivil_dateOf hfits
  have hdays := days_lt_of_year hfits
  rw [rfc3339Utc_eq, civilFromDays_eq hfits]
  have hmonth := (dateOf (wholeSecs t / 86400)).monthLe
  have hday := ((dateOf (wholeSecs t / 86400)).dayLe).trans (daysIn_le _ _)
  obtain ⟨y, hy⟩ := Int.eq_ofNat_of_zero_le ((by decide : (0 : ℤ) ≤ 1970).trans (year_dateOf (wholeSecs t / 86400)))
  rw [hy] at hback hfits ⊢
  generalize (dateOf (wholeSecs t / 86400)).month = m at *
  generalize (dateOf (wholeSecs t / 86400)).day = d at *
  have hsecs : wholeSecs t = wholeSecs t / 86400 * 86400 + wholeSecs t % 86400 / 3600 * 3600 +
      wholeSecs t % 86400 % 3600 / 60 * 60 + wholeSecs t % 86400 % 60 := by omega
  show ageOfRfc3339 (stampText _ _ _ _ _ _) now = _
  rw [ageOfRfc3339_stampText (isDigits_zeroPad 4 y) (isDigits_zeroPad 2 m) (isDigits_zeroPad 2 d)
      (isDigits_zeroPad 2 _) (isDigits_zeroPad 2 _) (isDigits_zeroPad 2 _),
    ageOfParts_zeroPad _ now hdays hback (by omega) (by omega) (by omega) (by omega) (by omega) (by omega), ← hsecs]

/-- **Timestamps round trip.** The age of a timestamp is the time since the whole second it was made in, and the two
conversions between days and dates are inverse to each other, by way of a date of the calendar. -/
theorem timestamps_round_trip :
    (∀ t now : SystemTime, 0 ≤ t → YearFits (wholeSecs t / 86400) →
      ageOfRfc3339 (rfc3339Utc t) now = .ok (now - t / nanosPerSec * nanosPerSec).toNat) ∧
    ∀ days : ℕ, YearFits days → ∃ date : Date, date.number = days + epochNumber ∧
      civilFromDays days = (date.year, date.month, date.day) ∧
      daysFromCivil date.year date.month date.day = .ok days := by
  constructor
  · intro t now hepoch hyear
    have hsecond : (wholeSecs t : ℤ) = t / nanosPerSec := by
      rw [wholeSecs, Int.natCast_div, Int.toNat_of_nonneg hepoch]
    rw [ageOfRfc3339_rfc3339Utc hyear, hsecond]
  · intro days hyear
    have hfits := hyear.dateOf
    exact ⟨dateOf days, number_dateOf days, civilFromDays_eq hfits, daysFromCivil_dateOf hfits⟩

/-- Half a second after the second in which February 29 of 2000 began. -/
theorem timestamps_round_trip_leapDay : ageOfRfc3339 (rfc3339Utc 951782400500000000) 951782410000000000 =
    .ok 10000000000 :=
  timestamps_round_trip.1 951782400500000000 951782410000000000 (by decide)
    ⟨⟨2000, 2, 29, by decide, by decide, by decide, by decide⟩, by decide, by decide⟩

end Policy
end Mega

import OmenDb.Lib.Trap
import OmenDb.Sql.Value

/-! The proleptic Gregorian calendar, as days from 1970-01-01. Years run from March, so that the
leap day is the last of its year, and 400 years make an era of 146097 days. Only the era is divided
out of a number that may be negative. -/
namespace OmenDb.Sql

/-- `civil_from_days`: year, month and day. -/
def civilFromDays (days : ℤ) : ℤ × ℤ × ℤ :=
  let z := days + 719468
  let era := (if 0 ≤ z then z else z - 146096).tdiv 146097
  let dayOfEra := z - era * 146097
  let yearOfEra := (dayOfEra - dayOfEra / 1460 + dayOfEra / 36524 - dayOfEra / 146096) / 365
  let year := yearOfEra + era * 400
  let dayOfYear := dayOfEra - (365 * yearOfEra + yearOfEra / 4 - yearOfEra / 100)
  let mp := (5 * dayOfYear + 2) / 153
  let day := dayOfYear - (153 * mp + 2) / 5 + 1
  let month := if mp < 10 then mp + 3 else mp - 9
  (if month ≤ 2 then year + 1 else year, month, day)

def daysFromCivil (year month day : ℤ) : ℤ :=
  let year := if month ≤ 2 then year - 1 else year
  let era := (if 0 ≤ year then year else year - 399).tdiv 400
  let yearOfEra := year - era * 400
  let monthShift := if 2 < month then month - 3 else month + 9
  let dayOfYear := (153 * monthShift + 2) / 5 + day - 1
  let dayOfEra := yearOfEra * 365 + yearOfEra / 4 - yearOfEra / 100 + dayOfYear
  era * 146097 + dayOfEra - 719468

def isGregorianValid (year month day : ℤ) : Bool :=
  let leap := year % 4 = 0 ∧ (year % 100 ≠ 0 ∨ year % 400 = 0)
  if month ∈ [1, 3, 5, 7, 8, 10, 12] then day ≤ 31
  else if month ∈ [4, 6, 9, 11] then day ≤ 30
  else if month = 2 then day ≤ if leap then 29 else 28
  else false

/-- The steps of `days_from_civil` in a signed type, unchecked. -/
def daysFromCivilIn (w : ℕ) (year month day : ℤ) : Trap DbError ℤ := do
  let year ← Trap.signed w (if month ≤ 2 then year - 1 else year)
  let era := (← Trap.signed w (if 0 ≤ year then year else year - 399)).tdiv 400
  let yearOfEra ← Trap.signed w (year - (← Trap.signed w (era * 400)))
  let monthShift ← Trap.unsigned 32 (if 2 < month then month - 3 else month + 9)
  let shifted ← Trap.signed w ((← Trap.signed w (153 * monthShift)) + 2)
  let dayOfYear ← Trap.signed w ((← Trap.signed w (shifted / 5 + day)) - 1)
  let yearDays ← Trap.signed w ((← Trap.signed w (yearOfEra * 365)) + yearOfEra / 4)
  let dayOfEra ← Trap.signed w ((← Trap.signed w (yearDays - yearOfEra / 100)) + dayOfYear)
  Trap.signed w ((← Trap.signed w ((← Trap.signed w (era * 146097)) + dayOfEra)) - 719468)

/-- `days_from_civil` of the parser, on `i32`. -/
def parserDaysFromCivil (year month day : ℤ) : Trap DbError ℤ := daysFromCivilIn 32 year month day

/-- The steps of `civil_from_days` on `i64`, unchecked. -/
def civilFromDaysIn (days : ℤ) : Trap DbError (ℤ × ℤ × ℤ) := do
  let z ← Trap.signed 64 (days + 719468)
  let era := (← Trap.signed 64 (if 0 ≤ z then z else z - 146096)).tdiv 146097
  let dayOfEra ← Trap.signed 64 (z - (← Trap.signed 64 (era * 146097)))
  let years ← Trap.signed 64 ((← Trap.signed 64 (dayOfEra - dayOfEra / 1460)) + dayOfEra / 36524)
  let yearOfEra := (← Trap.signed 64 (years - dayOfEra / 146096)) / 365
  let year ← Trap.signed 64 (yearOfEra + (← Trap.signed 64 (era * 400)))
  let yearDays ← Trap.signed 64 ((← Trap.signed 64 (365 * yearOfEra)) + yearOfEra / 4)
  let dayOfYear ← Trap.signed 64 (dayOfEra - (← Trap.signed 64 (yearDays - yearOfEra / 100)))
  let mp := (← Trap.signed 64 ((← Trap.signed 64 (5 * dayOfYear)) + 2)) / 153
  let monthDays := (← Trap.signed 64 ((← Trap.signed 64 (153 * mp)) + 2)) / 5
  let day ← Trap.signed 64 ((← Trap.signed 64 (dayOfYear - monthDays)) + 1)
  let month ← Trap.signed 64 (if mp < 10 then mp + 3 else mp - 9)
  return (← Trap.signed 64 (if month ≤ 2 then year + 1 else year), month, day)

def minTimestampMicros : ℤ := -62135596800000000
def maxTimestampMicros : ℤ := 253402300799999999

def fromMicros (micros : ℤ) : DbResult Value :=
  if h : minTimestampMicros ≤ micros ∧ micros ≤ maxTimestampMicros then
    .ok (.timestamp ⟨micros, by unfold minTimestampMicros maxTimestampMicros at h; omega⟩)
  else .error (.sqlNumericValueOutOfRange s!"timestamp value {micros} is outside the representable range")

def microsPerDay : ℤ := 86400000000

/-- `date_trunc` of `apply_date_function` on a timestamp. -/
def dateTrunc (field : String) (timestamp : ℤ) : DbResult Value :=
  let days := timestamp / microsPerDay
  let civil := civilFromDays days
  let time := timestamp % microsPerDay
  match field.toLower with
  | "year" => fromMicros (daysFromCivil civil.1 1 1 * microsPerDay)
  | "month" => fromMicros (daysFromCivil civil.1 civil.2.1 1 * microsPerDay)
  | "day" => fromMicros (days * microsPerDay)
  | "hour" => fromMicros (days * microsPerDay + time / 3600000000 * 3600000000)
  | "minute" => fromMicros (days * microsPerDay + time / 60000000 * 60000000)
  | other => .error (.sqlUnsupported "date_trunc"
      s!"field {other} is not supported; supported fields are year, month, day, hour, minute")

theorem tdiv_floor {m : ℤ} (hm : 0 < m) (z : ℤ) : (if 0 ≤ z then z else z - (m - 1)).tdiv m = z / m := by
  split
  · exact Int.tdiv_eq_ediv_of_nonneg (by assumption)
  · obtain ⟨x, hx⟩ : ∃ x, x = -z - 1 := ⟨_, rfl⟩
    have hshift : z - (m - 1) = -(x + m) := by omega
    have hquot : z / m = -(x / m) - 1 := by
      have hmod := Int.emod_lt_of_pos x hm
      have hmod0 := Int.emod_nonneg x hm.ne'
      have hdiv := Int.mul_ediv_add_emod x m
      have hboth : z / m = -(x / m) - 1 ∧ z % m = m - 1 - x % m :=
        (Int.ediv_emod_unique hm).mpr ⟨by linear_combination -hx - hdiv, by omega, by omega⟩
      exact hboth.1
    have hnext : (x + m) / m = x / m + 1 := by
      simpa using Int.add_mul_ediv_left x 1 hm.ne'
    rw [hshift, Int.neg_tdiv, Int.tdiv_eq_ediv_of_nonneg (by omega), hnext, hquot]
    ring

/-- A day of an era by its century, its four years in the century, its year in the four and its
day in the year. A 366th day closes the four years, and the last four of a century only in the
last century. -/
structure EraDay (doe c q r s : ℤ) : Prop where
  sum : doe = 36524 * c + 1461 * q + 365 * r + s
  century : 0 ≤ c ∧ c ≤ 3
  four : 0 ≤ q ∧ q ≤ 24
  year : 0 ≤ r ∧ r ≤ 3
  day : 0 ≤ s ∧ s ≤ 365
  closing : s = 365 → r = 3 ∧ (q = 24 → c = 3)

theorem exists_eraDay {doe : ℤ} (h0 : 0 ≤ doe) (h1 : doe < 146097) : ∃ c q r s, EraDay doe c q r s := by
  obtain ⟨c, t, hdoe, hc0, hc3, ht0, ht⟩ : ∃ c t : ℤ, doe = 36524 * c + t ∧ 0 ≤ c ∧ c ≤ 3 ∧ 0 ≤ t ∧
      (t < 36524 ∨ t = 36524 ∧ c = 3) := by
    refine ⟨min (doe / 36524) 3, doe - 36524 * min (doe / 36524) 3, by ring, ?_, ?_, ?_, ?_⟩ <;> omega
  obtain ⟨q, u, htq, hq0, hu0, hu⟩ : ∃ q u : ℤ, t = 1461 * q + u ∧ 0 ≤ q ∧ 0 ≤ u ∧ u < 1461 :=
    ⟨t / 1461, t % 1461, by omega, by omega, by omega, by omega⟩
  obtain ⟨r, s, hur, hr0, hr3, hs0, hs⟩ : ∃ r s : ℤ, u = 365 * r + s ∧ 0 ≤ r ∧ r ≤ 3 ∧ 0 ≤ s ∧
      (s < 365 ∨ s = 365 ∧ r = 3) := by
    refine ⟨min (u / 365) 3, u - 365 * min (u / 365) 3, by ring, ?_, ?_, ?_, ?_⟩ <;> omega
  exact ⟨c, q, r, s, by omega, ⟨hc0, hc3⟩, ⟨hq0, by omega⟩, ⟨hr0, hr3⟩, ⟨hs0, by omega⟩, by omega⟩

namespace EraDay

variable {doe c q r s : ℤ}

theorem century_day (h : EraDay doe c q r s) : 0 ≤ 1461 * q + 365 * r + s ∧
    (1461 * q + 365 * r + s < 36524 ∨ 1461 * q + 365 * r + s = 36524 ∧ c = 3) := by
  obtain ⟨-, -, ⟨hq0, hq⟩, ⟨hr0, hr⟩, ⟨hs0, hs⟩, hclosing⟩ := h
  omega

theorem quotients (h : EraDay doe c q r s) : doe / 36524 - doe / 146096 = c := by
  obtain ⟨ht0, ht1⟩ := h.century_day
  obtain ⟨hsum, ⟨hc0, hc⟩, -, -, -, -⟩ := h
  obtain ⟨t, ht⟩ : ∃ t, t = 1461 * q + 365 * r + s := ⟨_, rfl⟩
  have hdoe : doe = 36524 * c + t := by omega
  rw [← ht] at ht0 ht1
  clear hsum ht
  omega

theorem yearOfEra (h : EraDay doe c q r s) :
    (doe - doe / 1460 + doe / 36524 - doe / 146096) / 365 = 100 * c + 4 * q + r := by
  have hcentury := h.quotients
  obtain ⟨hsum, ⟨hc0, hc⟩, ⟨hq0, hq⟩, ⟨hr0, hr⟩, ⟨hs0, hs⟩, hclosing⟩ := h
  have hfour : doe / 1460 = 25 * c + q + (24 * c + q + 365 * r + s) / 1460 := by
    rw [hsum, show 36524 * c + 1461 * q + 365 * r + s = 24 * c + q + 365 * r + s + 1460 * (25 * c + q) by ring,
      Int.add_mul_ediv_left _ _ (by norm_num)]
    ring
  -- The leap days before this one cost a day, except in the first days of a year.
  have hlost : 0 ≤ s - (24 * c + q + 365 * r + s) / 1460 ∧ s - (24 * c + q + 365 * r + s) / 1460 ≤ 364 := by omega
  have hdays : doe - doe / 1460 + doe / 36524 - doe / 146096 =
      s - (24 * c + q + 365 * r + s) / 1460 + 365 * (100 * c + 4 * q + r) := by
    linear_combination hsum - hfour + hcentury
  rw [hdays, Int.add_mul_ediv_left _ _ (by norm_num), Int.ediv_eq_zero_of_lt hlost.1 (by omega)]
  ring

theorem yearStart (h : EraDay doe c q r s) :
    365 * (100 * c + 4 * q + r) + (100 * c + 4 * q + r) / 4 - (100 * c + 4 * q + r) / 100 + s = doe := by
  obtain ⟨hsum, ⟨hc0, hc⟩, ⟨hq0, hq⟩, ⟨hr0, hr⟩, -, -⟩ := h
  omega

end EraDay

theorem civilFromDays_spec (days : ℤ) :
    ∃ era yoe doy mp : ℤ, days + 719468 = era * 146097 + (365 * yoe + yoe / 4 - yoe / 100 + doy) ∧
      0 ≤ yoe ∧ yoe ≤ 399 ∧ 0 ≤ doy ∧ doy ≤ 365 ∧
      (doy = 365 → (yoe + 1) % 4 = 0 ∧ ((yoe + 1) % 100 ≠ 0 ∨ yoe = 399)) ∧
      mp = (5 * doy + 2) / 153 ∧
      civilFromDays days = (yoe + era * 400 + (if 10 ≤ mp then 1 else 0), if mp < 10 then mp + 3 else mp - 9,
        doy - (153 * mp + 2) / 5 + 1) := by
  obtain ⟨doe, hdoe⟩ : ∃ doe, doe = (days + 719468) % 146097 := ⟨_, rfl⟩
  obtain ⟨era, hera⟩ : ∃ era, era = (days + 719468) / 146097 := ⟨_, rfl⟩
  have hz : days + 719468 - era * 146097 = doe := by omega
  obtain ⟨c, q, r, s, hday⟩ := exists_eraDay (show 0 ≤ doe by omega) (by omega)
  have hstart := hday.yearStart
  have hyoe := hday.yearOfEra
  obtain ⟨-, ⟨hc0, hc⟩, ⟨hq0, hq⟩, ⟨hr0, hr⟩, ⟨hs0, hs⟩, hclosing⟩ := hday
  have hbound : 0 ≤ 100 * c + 4 * q + r ∧ 100 * c + 4 * q + r ≤ 399 := by omega
  have hleap : s = 365 → (100 * c + 4 * q + r + 1) % 4 = 0 ∧
      ((100 * c + 4 * q + r + 1) % 100 ≠ 0 ∨ 100 * c + 4 * q + r = 399) := by
    omega
  have hfloor := tdiv_floor (show (0 : ℤ) < 146097 by norm_num) (days + 719468)
  rw [← hera] at hfloor
  norm_num only at hfloor
  generalize 100 * c + 4 * q + r = yoe at *
  have hdoy : doe - (365 * yoe + yoe / 4 - yoe / 100) = s := by omega
  refine ⟨era, yoe, s, (5 * s + 2) / 153, by omega, hbound.1, hbound.2, hs0, hs, hleap, rfl, ?_⟩
  simp only [civilFromDays, hfloor, hz, hyoe, hdoy, Prod.mk.injEq, and_true]
  have hmp : 0 ≤ (5 * s + 2) / 153 ∧ (5 * s + 2) / 153 ≤ 11 := by omega
  clear hstart hyoe hdoy hz hera hdoe hfloor
  split <;> split <;> omega

theorem daysFromCivil_civilFromDays (days : ℤ) :
    daysFromCivil (civilFromDays days).1 (civilFromDays days).2.1 (civilFromDays days).2.2 = days := by
  obtain ⟨era, yoe, doy, mp, hdays, hy0, hy, hd0, hd, -, hmp, hcivil⟩ := civilFromDays_spec days
  have hmp' : 0 ≤ mp ∧ mp ≤ 11 := by omega
  have hmonth : (if 2 < (if mp < 10 then mp + 3 else mp - 9) then (if mp < 10 then mp + 3 else mp - 9) - 3
      else (if mp < 10 then mp + 3 else mp - 9) + 9) = mp := by
    split <;> split <;> omega
  have hyear : (if (if mp < 10 then mp + 3 else mp - 9) ≤ 2 then yoe + era * 400 + (if 10 ≤ mp then 1 else 0) - 1
      else yoe + era * 400 + (if 10 ≤ mp then 1 else 0)) = yoe + era * 400 := by
    split <;> split <;> omega
  have hfloor := tdiv_floor (show (0 : ℤ) < 400 by norm_num) (yoe + era * 400)
  rw [Int.add_mul_ediv_right _ _ (by norm_num), Int.ediv_eq_zero_of_lt hy0 (by omega), zero_add] at hfloor
  norm_num only at hfloor
  rw [hcivil]
  simp only [daysFromCivil, hmonth, hyear, hfloor, add_sub_cancel_right]
  linear_combination -hdays

theorem civilFromDays_valid (days : ℤ) :
    1 ≤ (civilFromDays days).2.1 ∧ (civilFromDays days).2.1 ≤ 12 ∧ 1 ≤ (civilFromDays days).2.2 ∧
    (civilFromDays days).2.2 ≤ 31 ∧
    isGregorianValid (civilFromDays days).1 (civilFromDays days).2.1 (civilFromDays days).2.2 = true := by
  obtain ⟨era, yoe, doy, mp, -, hy0, hy, hd0, hd, hleap, hmp, hcivil⟩ := civilFromDays_spec days
  have hmp0 : 0 ≤ mp := by omega
  have hmp11 : mp ≤ 11 := by omega
  rw [hcivil]
  -- February is the last month of the shifted year, and the only one that looks at the leap day.
  interval_cases mp <;> simp [isGregorianValid] <;> omega

def daysInMonth (year month : ℤ) : ℤ :=
  if month ∈ [1, 3, 5, 7, 8, 10, 12] then 31
  else if month ∈ [4, 6, 9, 11] then 30
  else if year % 4 = 0 ∧ (year % 100 ≠ 0 ∨ year % 400 = 0) then 29 else 28

theorem le_daysInMonth {year month day : ℤ} (h : isGregorianValid year month day = true) :
    day ≤ daysInMonth year month := by
  unfold isGregorianValid at h
  unfold daysInMonth
  dsimp only at h
  split at h
  · rw [if_pos (by assumption)]
    exact of_decide_eq_true h
  · rename_i hlong
    split at h
    · rename_i hshort
      rw [if_neg hlong, if_pos hshort]
      exact of_decide_eq_true h
    · rename_i hshort
      rw [if_neg hlong, if_neg hshort]
      split at h
      · exact of_decide_eq_true h
      · cases h

theorem daysFromCivil_eq (year month day : ℤ) :
    daysFromCivil year month day =
      365 * (if month ≤ 2 then year - 1 else year) + (if month ≤ 2 then year - 1 else year) / 4 -
        (if month ≤ 2 then year - 1 else year) / 100 + (if month ≤ 2 then year - 1 else year) / 400 +
        (153 * (if 2 < month then month - 3 else month + 9) + 2) / 5 + day - 719469 := by
  unfold daysFromCivil
  generalize (if month ≤ 2 then year - 1 else year) = y
  generalize (if 2 < month then month - 3 else month + 9) = shift
  have hfloor := tdiv_floor (show (0 : ℤ) < 400 by norm_num) y
  norm_num only at hfloor
  simp only [hfloor]
  omega

/-- The first day of a month, months numbered through the years. -/
def monthStart (n : ℤ) : ℤ := daysFromCivil (n / 12) (n % 12 + 1) 1

theorem monthStart_succ (n : ℤ) : monthStart (n + 1) = monthStart n + daysInMonth (n / 12) (n % 12 + 1) := by
  have hmonth : 0 ≤ n % 12 ∧ n % 12 < 12 := ⟨Int.emod_nonneg n (by norm_num), Int.emod_lt_of_pos n (by norm_num)⟩
  obtain ⟨year, month, hn, hyear, hlow, hhigh⟩ : ∃ year month : ℤ, n = 12 * year + month ∧ n / 12 = year ∧
      0 ≤ month ∧ month < 12 := ⟨n / 12, n % 12, by omega, rfl, hmonth.1, hmonth.2⟩
  have hmod : n % 12 = month := by omega
  simp only [monthStart, daysFromCivil_eq, hyear, hmod]
  by_cases hlast : month = 11
  · -- December is followed by January of the next year
    subst hlast
    rw [show (n + 1) / 12 = year + 1 by omega, show (n + 1) % 12 = 0 by omega]
    simp [daysInMonth]
    omega
  · rw [show (n + 1) / 12 = year by omega, show (n + 1) % 12 = month + 1 by omega]
    clear hn hyear hmod hmonth
    interval_cases month <;> simp [daysInMonth] <;> omega

theorem monthStart_strictMono : StrictMono monthStart := by
  refine strictMono_int_of_lt_succ fun n => ?_
  rw [monthStart_succ]
  have hlong : 28 ≤ daysInMonth (n / 12) (n % 12 + 1) := by
    unfold daysInMonth
    split
    · norm_num
    · split
      · norm_num
      · split <;> norm_num
  omega

def monthOf (days : ℤ) : ℤ := 12 * (civilFromDays days).1 + ((civilFromDays days).2.1 - 1)

theorem monthStart_number {year month : ℤ} (hlow : 1 ≤ month) (hhigh : month ≤ 12) :
    monthStart (12 * year + (month - 1)) = daysFromCivil year month 1 := by
  rw [monthStart, show (12 * year + (month - 1)) / 12 = year by omega,
    show (12 * year + (month - 1)) % 12 + 1 = month by omega]

theorem monthOf_spec (days : ℤ) :
    monthStart (monthOf days) + ((civilFromDays days).2.2 - 1) = days ∧ monthStart (monthOf days) ≤ days ∧
      days < monthStart (monthOf days + 1) := by
  obtain ⟨hlow, hhigh, hday, -, hvalid⟩ := civilFromDays_valid days
  have hinverse := daysFromCivil_civilFromDays days
  have hstart := @monthStart_number (civilFromDays days).1 _ hlow hhigh
  have hlength := le_daysInMonth hvalid
  have hnext := monthStart_succ (monthOf days)
  rw [daysFromCivil_eq] at hinverse hstart
  unfold monthOf at hnext ⊢
  rw [show (12 * (civilFromDays days).1 + ((civilFromDays days).2.1 - 1)) / 12 = (civilFromDays days).1 by omega,
    show (12 * (civilFromDays days).1 + ((civilFromDays days).2.1 - 1)) % 12 + 1 = (civilFromDays days).2.1 by omega]
      at hnext
  omega

theorem monthStart_le_iff (n days : ℤ) : monthStart n ≤ days ↔ n ≤ monthOf days := by
  obtain ⟨-, hstart, hend⟩ := monthOf_spec days
  constructor
  · intro h
    by_contra hlt
    have := monthStart_strictMono.monotone (show monthOf days + 1 ≤ n by omega)
    omega
  · intro h
    exact (monthStart_strictMono.monotone h).trans hstart

theorem civilFromDays_strictMono : StrictMono fun days : ℤ =>
    toLex ((civilFromDays days).1, toLex ((civilFromDays days).2.1, (civilFromDays days).2.2)) := by
  intro days later h
  obtain ⟨hplace, hstart, -⟩ := monthOf_spec days
  obtain ⟨hplace', -, -⟩ := monthOf_spec later
  obtain ⟨hlow, hhigh, -⟩ := civilFromDays_valid days
  obtain ⟨hlow', hhigh', -⟩ := civilFromDays_valid later
  have hmonth : monthOf days ≤ monthOf later := (monthStart_le_iff _ _).mp (by omega)
  simp only [Prod.Lex.toLex_lt_toLex]
  by_cases hsame : monthOf days = monthOf later
  · rw [hsame] at hplace
    unfold monthOf at hsame
    omega
  · unfold monthOf at hmonth hsame
    omega

theorem daysFromCivilIn_eq {w : ℕ} {bound year month day : ℤ} (hw : 366 * bound + 1000000 ≤ 2 ^ (w - 1))
    (hyear : -bound ≤ year ∧ year ≤ bound) (hmonth : 1 ≤ month ∧ month ≤ 12) (hday : 1 ≤ day ∧ day ≤ 31) :
    daysFromCivilIn w year month day = pure (daysFromCivil year month day) := by
  have hsigned : ∀ {n : ℤ}, -(366 * bound + 1000000) ≤ n → n ≤ 366 * bound + 999999 →
      (Trap.signed w n : Trap DbError ℤ) = pure n :=
    fun h h' => Trap.within_eq (by omega) (by omega)
  have hy : -bound - 1 ≤ (if month ≤ 2 then year - 1 else year) ∧ (if month ≤ 2 then year - 1 else year) ≤ bound := by
    split <;> omega
  have hs : 0 ≤ (if 2 < month then month - 3 else month + 9) ∧ (if 2 < month then month - 3 else month + 9) ≤ 11 := by
    split <;> omega
  unfold daysFromCivilIn daysFromCivil
  generalize (if month ≤ 2 then year - 1 else year) = y at hy ⊢
  generalize (if 2 < month then month - 3 else month + 9) = shift at hs ⊢
  have hfloor := tdiv_floor (show (0 : ℤ) < 400 by norm_num) y
  norm_num only at hfloor
  have hmoved : -bound - 400 ≤ (if 0 ≤ y then y else y - 399) ∧ (if 0 ≤ y then y else y - 399) ≤ bound + 400 := by
    split <;> omega
  have hshift : (Trap.unsigned 32 shift : Trap DbError ℤ) = pure shift := Trap.within_eq (by omega) (by omega)
  -- every intermediate result is small beside the bound
  rw [hsigned (by omega) (by omega), pure_bind, hsigned (by omega) (by omega), pure_bind]
  simp (disch := omega) only [hfloor, hshift, hsigned, pure_bind]

/-- No step of `days_from_civil` on `i64` overflows for a year of 50 bits. -/
theorem daysFromCivil_no_overflow {year month day : ℤ} (hyear : -2 ^ 50 ≤ year ∧ year ≤ 2 ^ 50)
    (hmonth : 1 ≤ month ∧ month ≤ 12)
    (hday : 1 ≤ day ∧ day ≤ 31) : daysFromCivilIn 64 year month day = pure (daysFromCivil year month day) :=
  daysFromCivilIn_eq (by norm_num) hyear hmonth hday

/-- No step of `civil_from_days` overflows for a day of 62 bits. -/
theorem civilFromDays_no_overflow {days : ℤ} (h : -2 ^ 62 ≤ days ∧ days ≤ 2 ^ 62) :
    civilFromDaysIn days = pure (civilFromDays days) := by
  have hsigned : ∀ {n : ℤ}, -2 ^ 63 ≤ n → n ≤ 2 ^ 63 - 1 → (Trap.signed 64 n : Trap DbError ℤ) = pure n :=
    fun h h' => Trap.within_eq h h'
  have hfloor := tdiv_floor (show (0 : ℤ) < 146097 by norm_num) (days + 719468)
  norm_num only at hfloor
  have hera : -2 ^ 50 ≤ (days + 719468) / 146097 ∧ (days + 719468) / 146097 ≤ 2 ^ 50 := by omega
  have hdoe : 0 ≤ days + 719468 - (days + 719468) / 146097 * 146097 ∧
      days + 719468 - (days + 719468) / 146097 * 146097 < 146097 := by omega
  unfold civilFromDaysIn civilFromDays
  rw [hsigned (by omega) (by omega), pure_bind, hsigned (by split <;> omega) (by split <;> omega), pure_bind]
  dsimp only
  rw [hfloor, hsigned (by omega) (by omega), pure_bind, hsigned (by omega) (by omega), pure_bind]
  generalize days + 719468 - (days + 719468) / 146097 * 146097 = doe at hdoe ⊢
  generalize (days + 719468) / 146097 = era at hera ⊢
  have hyoe : 0 ≤ (doe - doe / 1460 + doe / 36524 - doe / 146096) / 365 ∧
      (doe - doe / 1460 + doe / 36524 - doe / 146096) / 365 ≤ 400 := by omega
  rw [hsigned (by omega) (by omega), pure_bind, hsigned (by omega) (by omega), pure_bind,
    hsigned (by omega) (by omega), pure_bind]
  generalize (doe - doe / 1460 + doe / 36524 - doe / 146096) / 365 = yoe at hyoe ⊢
  simp (disch := omega) only [hsigned, pure_bind]

inductive DateUnit
  | year | month | day | hour | minute

namespace DateUnit

def name : DateUnit → String
  | year => "year"
  | month => "month"
  | day => "day"
  | hour => "hour"
  | minute => "minute"

def Starts : DateUnit → ℤ → Prop
  | year, micros => ∃ y, micros = daysFromCivil y 1 1 * microsPerDay
  | month, micros => ∃ y m, 1 ≤ m ∧ m ≤ 12 ∧ micros = daysFromCivil y m 1 * microsPerDay
  | day, micros => microsPerDay ∣ micros
  | hour, micros => 3600000000 ∣ micros
  | minute, micros => 60000000 ∣ micros

/-- The microseconds `date_trunc` arrives at. -/
def truncate (timestamp : ℤ) : DateUnit → ℤ
  | year => daysFromCivil (civilFromDays (timestamp / microsPerDay)).1 1 1 * microsPerDay
  | month => daysFromCivil (civilFromDays (timestamp / microsPerDay)).1
      (civilFromDays (timestamp / microsPerDay)).2.1 1 * microsPerDay
  | day => timestamp / microsPerDay * microsPerDay
  | hour => timestamp / microsPerDay * microsPerDay + timestamp % microsPerDay / 3600000000 * 3600000000
  | minute => timestamp / microsPerDay * microsPerDay + timestamp % microsPerDay / 60000000 * 60000000

theorem dateTrunc_eq {unit : DateUnit} {field : String} (h : field.toLower = unit.name) (timestamp : ℤ) :
    dateTrunc field timestamp = fromMicros (unit.truncate timestamp) := by
  unfold dateTrunc
  simp only [h]
  cases unit <;> rfl

theorem days_le_iff (n timestamp : ℤ) : n * microsPerDay ≤ timestamp ↔ n ≤ timestamp / microsPerDay := by
  unfold microsPerDay
  omega

theorem truncate_greatest (unit : DateUnit) (timestamp : ℤ) :
    IsGreatest {micros | unit.Starts micros ∧ micros ≤ timestamp} (unit.truncate timestamp) := by
  obtain ⟨hlow, hhigh, -⟩ := civilFromDays_valid (timestamp / microsPerDay)
  cases unit with
  | year =>
    refine ⟨⟨⟨_, rfl⟩, ?_⟩, ?_⟩
    · rw [truncate, days_le_iff, ← monthStart_number (by norm_num) (by norm_num), monthStart_le_iff]
      unfold monthOf
      omega
    · rintro micros ⟨⟨y, rfl⟩, hle⟩
      rw [days_le_iff, ← monthStart_number (by norm_num) (by norm_num), monthStart_le_iff] at hle
      have hyear : y ≤ (civilFromDays (timestamp / microsPerDay)).1 := by
        unfold monthOf at hle
        omega
      have hmono := monthStart_strictMono.monotone
        (show 12 * y + (1 - 1) ≤ 12 * (civilFromDays (timestamp / microsPerDay)).1 + (1 - 1) by omega)
      rw [monthStart_number (by norm_num) (by norm_num), monthStart_number (by norm_num) (by norm_num)] at hmono
      exact mul_le_mul_of_nonneg_right hmono (by norm_num [microsPerDay])
  | month =>
    refine ⟨⟨⟨_, _, hlow, hhigh, rfl⟩, ?_⟩, ?_⟩
    · rw [truncate, days_le_iff, ← monthStart_number hlow hhigh, monthStart_le_iff]
      exact le_rfl
    · rintro micros ⟨⟨y, m, h1, h12, rfl⟩, hle⟩
      rw [days_le_iff, ← monthStart_number h1 h12, monthStart_le_iff] at hle
      have hmono := monthStart_strictMono.monotone hle
      rw [monthStart_number h1 h12, monthOf, monthStart_number hlow hhigh] at hmono
      exact mul_le_mul_of_nonneg_right hmono (by norm_num [microsPerDay])
  | day =>
    refine ⟨⟨⟨timestamp / microsPerDay, mul_comm _ _⟩, ?_⟩, ?_⟩
    · rw [truncate, days_le_iff]
    · rintro micros ⟨⟨n, rfl⟩, hle⟩
      rw [truncate]
      unfold microsPerDay at hle ⊢
      omega
  | hour | minute =>
    simp only [IsGreatest, upperBounds, Starts, truncate, microsPerDay, Set.mem_ofPred_eq]
    exact ⟨by omega, fun micros h => by omega⟩

theorem starts_min (unit : DateUnit) : unit.Starts minTimestampMicros := by
  cases unit with
  | year => exact ⟨1, by decide⟩
  | month => exact ⟨1, 1, by decide, by decide, by decide⟩
  | day | hour | minute =>
    simp only [Starts]
    decide

/-- Truncation stays in the range of timestamps, so that none of its products overflows. -/
theorem truncate_range (unit : DateUnit) {timestamp : ℤ} (hmin : minTimestampMicros ≤ timestamp)
    (hmax : timestamp ≤ maxTimestampMicros) :
    minTimestampMicros ≤ unit.truncate timestamp ∧ unit.truncate timestamp ≤ maxTimestampMicros :=
  have hgreatest := unit.truncate_greatest timestamp
  ⟨hgreatest.2 ⟨unit.starts_min, hmin⟩, hgreatest.1.2.trans hmax⟩

end DateUnit

/-- Day numbers and dates correspond, in order; the parser counts days as the calendar does; and a
truncated timestamp is the last start of the unit that is not after it. -/
theorem calendar_exact :
    (∀ days : ℤ,
      (1 ≤ (civilFromDays days).2.1 ∧ (civilFromDays days).2.1 ≤ 12 ∧ 1 ≤ (civilFromDays days).2.2 ∧
        isGregorianValid (civilFromDays days).1 (civilFromDays days).2.1 (civilFromDays days).2.2 = true) ∧
      daysFromCivil (civilFromDays days).1 (civilFromDays days).2.1 (civilFromDays days).2.2 = days) ∧
    (StrictMono fun days : ℤ =>
      toLex ((civilFromDays days).1, toLex ((civilFromDays days).2.1, (civilFromDays days).2.2))) ∧
    (∀ year month day : ℤ, 0 ≤ year ∧ year ≤ 9999 → 1 ≤ month ∧ month ≤ 12 → 1 ≤ day ∧ day ≤ 31 →
      isGregorianValid year month day = true → parserDaysFromCivil year month day =
        pure (daysFromCivil year month day)) ∧
    ∀ (unit : DateUnit) (field : String) (timestamp : ℤ), field.toLower = unit.name →
      minTimestampMicros ≤ timestamp → timestamp ≤ maxTimestampMicros →
      ∃ start : I64, dateTrunc field timestamp = .ok (.timestamp start) ∧
        IsGreatest {micros | unit.Starts micros ∧ micros ≤ timestamp} start.val := by
  refine ⟨fun days => ⟨?_, daysFromCivil_civilFromDays days⟩, civilFromDays_strictMono,
    fun year month day hyear hmonth hday _ =>
      daysFromCivilIn_eq (w := 32) (by norm_num) ⟨by omega, hyear.2⟩ hmonth hday,
    fun unit field timestamp hfield hmin hmax => ?_⟩
  · obtain ⟨hlow, hhigh, hday, -, hvalid⟩ := civilFromDays_valid days
    exact ⟨hlow, hhigh, hday, hvalid⟩
  · rw [DateUnit.dateTrunc_eq hfield, fromMicros, dif_pos (unit.truncate_range hmin hmax)]
    exact ⟨_, rfl, unit.truncate_greatest timestamp⟩

end OmenDb.Sql

import CldcVm.Lib.Calendars
import CldcVm.Util.CalendarFields

/-!
# The date of a time

Results:

* `timeToFields_date`: the fields of a time are those of the date of its day.
-/

namespace CldcVm.CalendarImpl

open CldcVm.Calendars

/-! ## The calendars -/

/-- Every fourth year is a leap year. -/
def julian : Calendar where
  isLeap year := decide (year % 4 = 0)
  start year := 365 * (year - 1) + (year - 1) / 4 - 719164
  start_succ year := by
    simp only [decide_eq_true_eq]
    split_ifs <;> omega

/-- Three of four centuries do not begin with a leap year. -/
def gregorian : Calendar where
  isLeap year := decide (year % 4 = 0 ∧ (year % 100 ≠ 0 ∨ year % 400 = 0))
  start year := 365 * (year - 1) + (year - 1) / 4 - (year - 1) / 100 + (year - 1) / 400 - 719162
  start_succ year := by
    simp only [decide_eq_true_eq]
    split_ifs <;> omega

/-- The first day of the Gregorian calendar is 15 October 1582, which follows 4 October of the
Julian one. -/
def cutoverDay : ℤ := gregorian.number ⟨1582, 9, 15⟩

example : cutoverDay = julian.number ⟨1582, 9, 4⟩ + 1 := by decide +kernel

/-- The calendar of a day. -/
def calendarOf (day : ℤ) : Calendar := if day < cutoverDay then julian else gregorian

/-- `fields[YEAR]` of a year. -/
def yearField (year : ℤ) : ℤ := if year < 1 then 1 - year else year

/-! ## Divisions -/

theorem floorDivide_eq {n d : ℤ} (hd : 0 < d) : floorDivide n d = n / d := by
  rw [floorDivide]
  by_cases hn : n ≥ 0
  · rw [if_pos hn, Int.tdiv_eq_ediv_of_nonneg hn]
  · rw [if_neg hn]
    have hmod := Int.emod_nonneg n hd.ne'
    have hlt := Int.emod_lt_of_pos n hd
    have hdiv := Int.emod_add_mul_ediv n d
    have hneg : (-(n + 1)) / d = -(n / d) - 1 ∧ (-(n + 1)) % d = d - 1 - n % d := by
      refine (Int.ediv_emod_unique hd).mpr ⟨?_, by omega, by omega⟩
      linear_combination -hdiv
    have htdiv : (n + 1).tdiv d = -((-(n + 1)) / d) := by
      rw [← Int.tdiv_eq_ediv_of_nonneg (by omega), Int.neg_tdiv, neg_neg]
    rw [htdiv, hneg.1]
    ring

theorem jint_congr {x y : ℤ} (h : (x - y) % 2 ^ 32 = 0) : jint x = jint y := by
  unfold jint
  omega

theorem jint_jint_mul (x k : ℤ) : jint (jint x * k) = jint (x * k) := by
  refine jint_congr ?_
  have hmod : (jint x - x) % 2 ^ 32 = 0 := by
    unfold jint
    omega
  rw [← sub_mul, Int.mul_emod, hmod]
  simp

/-- The remainder is right even if the quotient does not fit. -/
theorem floorDivideRem_eq {n d : ℤ} (hd : 0 < d) (hd' : d < 2 ^ 31) :
    floorDivideRem n d = (jint (n / d), n % d) := by
  have hmod := Int.emod_nonneg n hd.ne'
  have hlt := Int.emod_lt_of_pos n hd
  have hdiv := Int.emod_add_mul_ediv n d
  have hfloor := @floorDivide_eq n d hd
  rw [floorDivide] at hfloor
  rw [floorDivideRem]
  by_cases hn : n ≥ 0
  · rw [if_pos hn] at hfloor
    rw [if_pos hn, hfloor, Int.tmod_eq_emod_of_nonneg hn, @jint_eq (n % d) (by omega) (by omega)]
  · rw [if_neg hn] at hfloor
    rw [if_neg hn, hfloor]
    refine Prod.ext rfl ?_
    show jint (jlong (n - jint (jint (n / d) * d))) = n % d
    have hproduct : d * (n / d) = n / d * d := mul_comm ..
    rw [jint_jint_mul, ← @jint_eq (n % d) (by omega) (by omega)]
    refine jint_congr ?_
    generalize n / d * d = product at hproduct
    rw [jlong, jint]
    omega

theorem floorDivideRem_of_fits {n d : ℤ} (hd : 0 < d) (hd' : d < 2 ^ 31) (h0 : -2 ^ 31 ≤ n / d)
    (h1 : n / d < 2 ^ 31) : floorDivideRem n d = (n / d, n % d) := by
  rw [floorDivideRem_eq hd hd', jint_eq h0 h1]

/-! ## Fields of a day of a year -/

theorem month_spec (leap : Bool) (doy : ℕ) (h : doy < if leap then 366 else 365) :
    ∃ month < 12, (12 * ((doy : ℤ) + if (doy : ℤ) ≥ (if leap then 60 else 59) then
        if leap then 1 else 2 else 0) + 6).tdiv 367 = (month : ℕ) ∧
      numDays leap (month : ℕ) = daysBefore leap month ∧ daysBefore leap month ≤ doy ∧
        doy < daysBefore leap (month + 1) := by
  revert doy leap
  decide +kernel

theorem dayOfWeek_spec (x : ℤ) :
    jint (x.tmod 7) + (if jint (x.tmod 7) < 0 then SUNDAY + 7 else SUNDAY) = x % 7 + 1 := by
  have hx := Int.tmod_add_mul_tdiv x 7
  have hlt := Int.tmod_lt_of_pos x (show (0 : ℤ) < 7 by decide)
  have hgt : -7 < x.tmod 7 := Int.lt_tmod_of_pos x (by decide)
  rw [jint_eq (by omega) (by omega), SUNDAY]
  split_ifs <;> omega

/-- **Spec lemma** of the end of `timeToFields`. -/
theorem setFields_spec {c : Calendar} {yd : YearDay} {n : ℤ} (fields : Fields)
    (hleap : yd.isLeap = c.isLeap yd.rawYear) (hfirst : 0 ≤ yd.dayOfYear)
    (hlast : yd.dayOfYear < if c.isLeap yd.rawYear then 366 else 365)
    (hday : c.start yd.rawYear + yd.dayOfYear = n)
    (hweek : ∃ x, yd.dayOfWeek = jint (x.tmod 7) ∧ x % 7 = (n + 4) % 7) :
    ∃ date, c.IsDateOf n date ∧ setFields yd fields = { fields with
        YEAR := yearField date.year
        MONTH := date.month
        DATE := date.day
        DAY_OF_WEEK := (n + 4) % 7 + 1 } := by
  obtain ⟨doy, hdoy⟩ := Int.eq_ofNat_of_zero_le hfirst
  obtain ⟨x, hx, hmod⟩ := hweek
  rw [hdoy] at hlast hday
  obtain ⟨month, htwelve, hmonth, hnum, hge, hlt⟩ := month_spec (c.isLeap yd.rawYear) doy
    (by split_ifs at hlast ⊢ <;> omega)
  rw [daysBefore] at hlt
  refine ⟨⟨yd.rawYear, month, doy - daysBefore (c.isLeap yd.rawYear) month + 1⟩,
    ⟨⟨htwelve, ?_, ?_⟩, ?_⟩, ?_⟩
  · show 1 ≤ (doy : ℤ) - daysBefore (c.isLeap yd.rawYear) month + 1
    omega
  · show (doy : ℤ) - daysBefore (c.isLeap yd.rawYear) month + 1 ≤
      monthLength (c.isLeap yd.rawYear) month
    omega
  · show c.start yd.rawYear + daysBefore (c.isLeap yd.rawYear) month +
      (doy - daysBefore (c.isLeap yd.rawYear) month + 1 - 1) = n
    omega
  · rw [setFields, hleap, hdoy, hx, dayOfWeek_spec, hmod, hmonth, hnum, yearField]

/-! ## Years -/

theorem millisToJulianDay_eq {t : ℤ} (h0 : -2 ^ 63 ≤ t) (h1 : t < 2 ^ 63) :
    millisToJulianDay t = 2440588 + t / 86400000 := by
  rw [millisToJulianDay, floorDivide_eq (by decide), EPOCH_JULIAN_DAY, ONE_DAY,
    jlong_eq (by omega) (by omega)]

/-- **Spec lemma** of the branch before the cutover. -/
theorem julianYearDay_spec {t : ℤ} (h0 : -2 ^ 63 ≤ t) (h1 : t < gregorianCutover) :
    let yd := julianYearDay t
    yd.isLeap = julian.isLeap yd.rawYear ∧ 0 ≤ yd.dayOfYear ∧
      (yd.dayOfYear < if julian.isLeap yd.rawYear then 366 else 365) ∧
      julian.start yd.rawYear + yd.dayOfYear = t / 86400000 ∧
      ∃ x, yd.dayOfWeek = jint (x.tmod 7) ∧ x % 7 = (t / 86400000 + 4) % 7 := by
  rw [gregorianCutover] at h1
  have hn0 : -106751991168 ≤ t / 86400000 := by omega
  have hn1 : t / 86400000 < -141427 := by omega
  generalize hn : t / 86400000 = n at hn0 hn1
  have hepoch : jlong (millisToJulianDay t - (JAN_1_1_JULIAN_DAY - 2)) = n + 719164 := by
    rw [millisToJulianDay_eq h0 (by omega), JAN_1_1_JULIAN_DAY, jlong_eq (by omega) (by omega)]
    omega
  have hyear : jint (floorDivide (jlong (4 * (n + 719164) + 1464)) 1461) =
      (4 * (n + 719164) + 1464) / 1461 := by
    rw [jlong_eq (by omega) (by omega), floorDivide_eq (by decide), jint_eq (by omega) (by omega)]
  generalize hy : (4 * (n + 719164) + 1464) / 1461 = y at hyear
  have hprevious : jint (y - 1) = y - 1 := jint_eq (by omega) (by omega)
  have hdoy : jint (jlong (n + 719164 -
      jint (jint (365 * jint (y - 1)) + floorDivide (jint (y - 1)) 4))) =
      n + 719164 - (365 * (y - 1) + (y - 1) / 4) := by
    rw [hprevious, floorDivide_eq (by decide)]
    refine (jint_congr ?_).trans (jint_eq (by omega) (by omega))
    unfold jint jlong
    omega
  simp only [julianYearDay, hepoch, hyear, hdoy, julian]
  refine ⟨trivial, by omega, ?_, by omega, n + 719164 - 1, rfl, by omega⟩
  simp only [decide_eq_true_eq]
  by_cases hleap : y % 4 = 0
  · rw [if_pos hleap]
    omega
  · have hsame : (y - 1) / 4 = y / 4 := by omega
    rw [if_neg hleap]
    omega

theorem isLeap_eq {year : ℤ} (h : 0 ≤ year) :
    decide (year % 4 = 0 ∧ (year.tmod 100 ≠ 0 ∨ year.tmod 400 = 0)) = gregorian.isLeap year := by
  rw [Int.tmod_eq_emod_of_nonneg h, Int.tmod_eq_emod_of_nonneg h]
  rfl

theorem gregorian_start {a b e f : ℤ} (hb : 0 ≤ b ∧ b ≤ 3) (he : 0 ≤ e ∧ e ≤ 24)
    (hf : 0 ≤ f ∧ f ≤ 3) : gregorian.start (400 * a + 100 * b + 4 * e + f + 1) =
      146097 * a + 36524 * b + 1461 * e + 365 * f - 719162 := by
  have h4 : (400 * a + 100 * b + 4 * e + f) / 4 = 100 * a + 25 * b + e := by omega
  have h100 : (400 * a + 100 * b + 4 * e + f) / 100 = 4 * a + b := by omega
  have h400 : (400 * a + 100 * b + 4 * e + f) / 400 = a := by omega
  simp only [gregorian, add_sub_cancel_right, h4, h100, h400]
  ring

/-- Digits of a day in cycles of 400, 100 and 4 years, years and days. -/
structure Cycles (day a b e f r : ℤ) : Prop where
  sum : day = 146097 * a + 36524 * b + 1461 * e + 365 * f + r
  first : 0 ≤ a
  centuries : 0 ≤ b ∧ b ≤ 4
  cycles : 0 ≤ e ∧ e ≤ 24
  years : 0 ≤ f ∧ f ≤ 4
  days : 0 ≤ r ∧ r ≤ 364
  lastCentury : b = 4 → e = 0 ∧ f = 0 ∧ r = 0
  lastYear : f = 4 → r = 0 ∧ e ≤ 23

theorem cycles_of_day {day : ℤ} (h : 0 ≤ day) :
    Cycles day (day / 146097) (day % 146097 / 36524) (day % 146097 % 36524 / 1461)
      (day % 146097 % 36524 % 1461 / 365) (day % 146097 % 36524 % 1461 % 365) := by
  constructor <;> omega

theorem Cycles.lastDay {day a b e f r : ℤ} (h : Cycles day a b e f r) (hlast : b = 4 ∨ f = 4) :
    gregorian.isLeap (400 * a + 100 * b + 4 * e + f) = true ∧
      gregorian.start (400 * a + 100 * b + 4 * e + f) + 365 = day - 719162 := by
  obtain ⟨rfl, -, hb, he, -, -, hcentury, hyear⟩ := h
  obtain rfl | rfl := hlast
  · obtain ⟨rfl, rfl, rfl⟩ := hcentury rfl
    refine ⟨decide_eq_true ⟨by omega, by omega⟩, ?_⟩
    rw [show 400 * a + 100 * 4 + 4 * 0 + 0 = 400 * a + 100 * 3 + 4 * 24 + 3 + 1 by ring,
      gregorian_start (by decide) (by decide) (by decide)]
    ring
  · obtain ⟨rfl, he'⟩ := hyear rfl
    have hb3 : b ≤ 3 := by
      by_contra hb4
      have hfour := (hcentury (by omega)).2.1
      omega
    refine ⟨decide_eq_true ⟨by omega, by omega⟩, ?_⟩
    rw [show 400 * a + 100 * b + 4 * e + 4 = 400 * a + 100 * b + 4 * e + 3 + 1 by ring,
      gregorian_start ⟨hb.1, hb3⟩ he (by decide)]
    ring

theorem Cycles.day {day a b e f r : ℤ} (h : Cycles day a b e f r) (hlast : ¬ (b = 4 ∨ f = 4)) :
    gregorian.start (400 * a + 100 * b + 4 * e + f + 1) + r = day - 719162 := by
  obtain ⟨rfl, -, hb, he, hf, -, -, -⟩ := h
  rw [not_or] at hlast
  rw [gregorian_start ⟨hb.1, by omega⟩ he ⟨hf.1, by omega⟩]
  ring

/-- **Spec lemma** of the branch from the cutover on. -/
theorem gregorianYearDay_spec {t : ℤ} (h0 : gregorianCutover ≤ t) (h1 : t < 2 ^ 63) :
    let yd := gregorianYearDay t
    yd.isLeap = gregorian.isLeap yd.rawYear ∧ 0 ≤ yd.dayOfYear ∧
      (yd.dayOfYear < if gregorian.isLeap yd.rawYear then 366 else 365) ∧
      gregorian.start yd.rawYear + yd.dayOfYear = t / 86400000 ∧
      ∃ x, yd.dayOfWeek = jint (x.tmod 7) ∧ x % 7 = (t / 86400000 + 4) % 7 := by
  rw [gregorianCutover] at h0
  obtain ⟨day, hday⟩ : ∃ day, t / 86400000 = day - 719162 := ⟨t / 86400000 + 719162, by ring⟩
  have hday0 : 577735 ≤ day := by omega
  have hday1 : day ≤ 106752710329 := by omega
  have hepoch : jlong (millisToJulianDay t - JAN_1_1_JULIAN_DAY) = day := by
    rw [millisToJulianDay_eq (by omega) h1, JAN_1_1_JULIAN_DAY, hday,
      jlong_eq (by omega) (by omega)]
    ring
  have hweek : ∃ x, jint ((day + 1).tmod 7) = jint (x.tmod 7) ∧
      x % 7 = (day - 719162 + 4) % 7 := ⟨_, rfl, by omega⟩
  rw [hday]
  clear hday h0 h1
  have hcycles := cycles_of_day (show 0 ≤ day by omega)
  have h400 : floorDivideRem day 146097 = (day / 146097, day % 146097) :=
    floorDivideRem_of_fits (by decide) (by decide) (by omega) (by omega)
  have h100 : floorDivideRem (day % 146097) 36524 = (day % 146097 / 36524, day % 146097 % 36524) :=
    floorDivideRem_of_fits (by decide) (by decide) (by omega) (by omega)
  have h4 : floorDivideRem (day % 146097 % 36524) 1461 =
      (day % 146097 % 36524 / 1461, day % 146097 % 36524 % 1461) :=
    floorDivideRem_of_fits (by decide) (by decide) (by omega) (by omega)
  have h1 : floorDivideRem (day % 146097 % 36524 % 1461) 365 =
      (day % 146097 % 36524 % 1461 / 365, day % 146097 % 36524 % 1461 % 365) :=
    floorDivideRem_of_fits (by decide) (by decide) (by omega) (by omega)
  have ha : day / 146097 ≤ 730697 := by omega
  simp only [gregorianYearDay, hepoch, h400, h100, h4, h1]
  generalize day / 146097 = a at hcycles ha
  generalize day % 146097 / 36524 = b at hcycles
  generalize day % 146097 % 36524 / 1461 = e at hcycles
  generalize day % 146097 % 36524 % 1461 / 365 = f at hcycles
  generalize day % 146097 % 36524 % 1461 % 365 = r at hcycles
  obtain ⟨-, ha', hb, he, hf, hr, -, -⟩ := id hcycles
  have hyears : jint (400 * a + 100 * b + 4 * e + f) = 400 * a + 100 * b + 4 * e + f :=
    jint_eq (by omega) (by omega)
  have hnextYear : jint (400 * a + 100 * b + 4 * e + f + 1) = 400 * a + 100 * b + 4 * e + f + 1 :=
    jint_eq (by omega) (by omega)
  simp only [hyears, hnextYear]
  by_cases hlast : b = 4 ∨ f = 4
  · obtain ⟨hleap, hstart⟩ := hcycles.lastDay hlast
    rw [if_pos hlast]
    refine ⟨isLeap_eq (by omega), show (0 : ℤ) ≤ 365 by decide, ?_, hstart, hweek⟩
    rw [if_pos hleap]
    show (365 : ℤ) < 366
    decide
  · rw [if_neg hlast]
    refine ⟨isLeap_eq (by omega), hr.1, ?_, hcycles.day hlast, hweek⟩
    show r < _
    split_ifs <;> omega

/-! ## Times -/

theorem calendarOf_time (t : ℤ) :
    calendarOf (t / 86400000) = if t ≥ gregorianCutover then gregorian else julian := by
  have hcutover : cutoverDay = -141427 := by decide +kernel
  rw [calendarOf, hcutover, gregorianCutover]
  split_ifs with h h'
  · omega
  · rfl
  · rfl
  · omega

/-- **Spec lemma** of `timeToFields`. -/
theorem timeToFields_spec {t : ℤ} (h0 : -2 ^ 63 ≤ t) (h1 : t < 2 ^ 63) (fields : Fields) :
    ∃ date, (calendarOf (t / 86400000)).IsDateOf (t / 86400000) date ∧
      timeToFields t fields = { fields with
        YEAR := yearField date.year
        MONTH := date.month
        DATE := date.day
        DAY_OF_WEEK := (t / 86400000 + 4) % 7 + 1 } := by
  rw [calendarOf_time, timeToFields]
  by_cases ht : t ≥ gregorianCutover
  · rw [if_pos ht, if_pos ht]
    obtain ⟨hleap, hfirst, hlast, hday, hweek⟩ := gregorianYearDay_spec ht h1
    exact setFields_spec fields hleap hfirst hlast hday hweek
  · rw [if_neg ht, if_neg ht]
    obtain ⟨hleap, hfirst, hlast, hday, hweek⟩ := julianYearDay_spec h0 (not_le.mp ht)
    exact setFields_spec fields hleap hfirst hlast hday hweek

/-- **Main theorem**: `timeToFields` sets the date of the day of a time, in the Julian calendar
before 15 October 1582 and in the Gregorian one from then on. -/
theorem timeToFields_date (theTime : BitVec 64) (fields : Fields) :
    ∃ date, (calendarOf (theTime.toInt / 86400000)).IsDateOf (theTime.toInt / 86400000) date ∧
      (∀ date', (calendarOf (theTime.toInt / 86400000)).IsDateOf (theTime.toInt / 86400000) date' →
        date' = date) ∧
      timeToFields theTime.toInt fields = { fields with
        YEAR := yearField date.year
        MONTH := date.month
        DATE := date.day
        DAY_OF_WEEK := (theTime.toInt / 86400000 + 4) % 7 + 1 } := by
  obtain ⟨date, hdate, heq⟩ :=
    timeToFields_spec (BitVec.le_toInt theTime) BitVec.toInt_lt fields
  exact ⟨date, hdate, fun date' hdate' => Calendar.number_injective _ hdate'.1 hdate.1
    (hdate'.2.trans hdate.2.symm), heq⟩

end CldcVm.CalendarImpl

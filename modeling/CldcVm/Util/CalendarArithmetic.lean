import CldcVm.Util.CalendarRoundTrip

/-!
# Arithmetic on the fields of a time

`computeTime` guesses the calendar of a date from its year, and it corrects the guess once.

Results:

* `computeTime_computeFields`: the fields of a time give the time back.
-/

namespace CldcVm.CalendarImpl

open CldcVm.Calendars

/-! ## The two calendars -/

theorem number_add (c : Calendar) (year : ℤ) (month : ℕ) (date n : ℤ) :
    c.number ⟨year, month, date + n⟩ = c.number ⟨year, month, date⟩ + n := by
  simp only [Calendar.number]
  ring

theorem daysBefore_leap {month : ℕ} (h : month < 12) :
    daysBefore false month ≤ daysBefore true month ∧
      daysBefore true month ≤ daysBefore false month + 1 := by
  revert month
  decide

/-- How far the days of a date are apart. -/
def calendarGap (date : Date) : ℤ := gregorian.number date - julian.number date

theorem calendarGap_bounds {date : Date} (hyear : 1 ≤ date.year) (hyear' : date.year < 2 ^ 31)
    (h12 : date.month < 12) :
    -2 ^ 25 ≤ calendarGap date ∧ (date.year = 1582 → calendarGap date = -10) ∧
      (1582 ≤ date.year → calendarGap date ≤ -10) := by
  obtain ⟨year, month, date⟩ := date
  change 1 ≤ year at hyear
  change year < 2 ^ 31 at hyear'
  change month < 12 at h12
  rw [calendarGap]
  have hleap := daysBefore_leap h12
  have hdays : daysBefore (gregorian.isLeap year) month ≤ daysBefore (julian.isLeap year) month ∧
      daysBefore (julian.isLeap year) month ≤ daysBefore (gregorian.isLeap year) month + 1 ∧
      (year % 4 ≠ 0 →
        daysBefore (gregorian.isLeap year) month = daysBefore (julian.isLeap year) month) := by
    by_cases h4 : year % 4 = 0
    · have hjulian : julian.isLeap year = true := decide_eq_true h4
      rw [hjulian]
      cases gregorian.isLeap year <;> omega
    · have hjulian : julian.isLeap year = false := decide_eq_false h4
      have hgregorian : gregorian.isLeap year = false := decide_eq_false fun h => h4 h.1
      rw [hjulian, hgregorian]
      omega
  simp only [Calendar.number]
  generalize daysBefore (gregorian.isLeap year) month = dg at hdays
  generalize daysBefore (julian.isLeap year) month = dj at hdays
  simp only [gregorian, julian]
  refine ⟨?_, ?_, ?_⟩
  · omega
  · omega
  · omega

theorem cutoverDay_eq : cutoverDay = -141427 := by decide +kernel

theorem year_of_day {day : ℤ} {date : Date} (h : (calendarOf day).IsDateOf day date) :
    (cutoverDay ≤ day → 1582 ≤ date.year) ∧ (day < cutoverDay → date.year ≤ 1582) := by
  obtain ⟨hvalid, hnumber⟩ := h
  constructor
  · intro hday
    rw [calendarOf, if_neg (not_lt.mpr hday)] at hvalid hnumber
    have hfirst : gregorian.Valid ⟨1582, 9, 15⟩ := ⟨by decide, by decide, by decide +kernel⟩
    exact gregorian.year_le hfirst hvalid (hnumber ▸ hday)
  · intro hday
    rw [calendarOf, if_pos hday] at hvalid hnumber
    have hlast : julian.Valid ⟨1582, 9, 4⟩ := ⟨by decide, by decide, by decide +kernel⟩
    have hnumber' : julian.number ⟨1582, 9, 4⟩ = -141428 := by decide +kernel
    refine julian.year_le hvalid hlast ?_
    rw [hnumber, hnumber']
    rw [cutoverDay_eq] at hday
    omega

/-- The years that a `long` reaches. -/
theorem year_lt {day : ℤ} {date : Date} (h : (calendarOf day).IsDateOf day date)
    (hday : day < 2 ^ 37) : date.year < 2 ^ 31 := by
  obtain ⟨hvalid, hnumber⟩ := h
  have hbounds := Calendar.number_bounds _ hvalid
  rw [hnumber] at hbounds
  rw [calendarOf] at hbounds
  split_ifs at hbounds
  · simp only [julian] at hbounds
    omega
  · simp only [gregorian] at hbounds
    omega

/-! ## The day that is found -/

/-- When the day of a date is found again after an addition. -/
def DateAdds (day : ℤ) (date : Date) (n : ℤ) : Prop :=
  if cutoverDay ≤ day then cutoverDay ≤ day + n ∧ (day + n) * 86400000 < 2 ^ 63
  else if date.year = 1582 then day + n < cutoverDay + 10
  else day + n < cutoverDay ∨ gregorian.number date = day

/-- The test of `computeTime`, with the overflow. -/
theorem cutover_test {day : ℤ} (h0 : -2 ^ 35 ≤ day) (h1 : day < 2 ^ 37 + 2 ^ 34) :
    jlong (day * 86400000) ≥ gregorianCutover ↔ cutoverDay ≤ day ∧ day * 86400000 < 2 ^ 63 := by
  rw [cutoverDay_eq, gregorianCutover]
  by_cases hfits : day * 86400000 < 2 ^ 63
  · rw [jlong_eq (by omega) hfits]
    omega
  · have hwrap : jlong (day * 86400000) = day * 86400000 - 2 ^ 64 := by
      rw [jlong]
      omega
    rw [hwrap]
    omega

section

variable {day n : ℤ} {date : Date}

theorem guessedDay_gregorian (h : (calendarOf day).IsDateOf day date) (hday : cutoverDay ≤ day)
    (hyear : date.year < 2 ^ 31) (hlimit : day < 2 ^ 37) (hn : -2 ^ 33 ≤ n) (hn' : n < 2 ^ 33) :
    guessedDay date.year date.month (date.day + n) = day + n ↔
      cutoverDay ≤ day + n ∧ (day + n) * 86400000 < 2 ^ 63 := by
  have hyear' := (year_of_day h).1 hday
  obtain ⟨hvalid, hnumber⟩ := h
  rw [calendarOf, if_neg (not_lt.mpr hday)] at hvalid hnumber
  obtain ⟨hlow, -, hgap⟩ := calendarGap_bounds (by omega) hyear hvalid.1
  have hgap := hgap hyear'
  obtain ⟨year, month, date⟩ := date
  change 1582 ≤ year at hyear'
  rw [calendarGap, hnumber] at hgap hlow
  rw [guessedDay, decide_eq_true hyear']
  simp only [calendarFor, if_true, number_add, Bool.not_true, Bool.false_eq_true, if_false]
  rw [hnumber, cutoverDay_eq]
  rw [cutoverDay_eq] at hday
  generalize julian.number ⟨year, month, date⟩ = other at hgap hlow
  have htest := @cutover_test (day + n) (by omega) (by omega)
  rw [cutoverDay_eq] at htest
  by_cases hright : -141427 ≤ day + n ∧ (day + n) * 86400000 < 2 ^ 63
  · rw [if_pos (decide_eq_true (htest.mpr hright)).symm]
    simp only [true_iff]
    exact hright
  · rw [if_neg (by rw [decide_eq_false fun h => hright (htest.mp h)]; decide)]
    simp only [hright, iff_false]
    omega

/-- Before the cutover: the Gregorian calendar is tried first in its first year, and the Julian one
before. -/
theorem guessedDay_julian (h : (calendarOf day).IsDateOf day date) (hday : day < cutoverDay)
    (hyear : 1 ≤ date.year) (hlimit : -2 ^ 34 ≤ day) (hn : -2 ^ 33 ≤ n) (hn' : n < 2 ^ 33) :
    guessedDay date.year date.month (date.day + n) = day + n ↔
      if date.year = 1582 then day + n < cutoverDay + 10
      else day + n < cutoverDay ∨ gregorian.number date = day := by
  have hyear' := (year_of_day h).2 hday
  obtain ⟨hvalid, hnumber⟩ := h
  rw [calendarOf, if_pos hday] at hvalid hnumber
  obtain ⟨-, hgap, -⟩ := calendarGap_bounds hyear (by omega) hvalid.1
  obtain ⟨year, month, date⟩ := date
  change year ≤ 1582 at hyear'
  change year = 1582 → _ at hgap
  rw [calendarGap, hnumber] at hgap
  rw [guessedDay]
  rw [cutoverDay_eq] at hday
  by_cases hfirst : year = 1582
  · have hgap := hgap hfirst
    rw [if_pos hfirst, decide_eq_true (show year ≥ 1582 by omega)]
    simp only [calendarFor, if_true, number_add, Bool.not_true, Bool.false_eq_true, if_false]
    have htest := @cutover_test (gregorian.number ⟨year, month, date⟩ + n) (by omega) (by omega)
    rw [hnumber, cutoverDay_eq]
    rw [cutoverDay_eq] at htest
    by_cases hafter : -141427 ≤ gregorian.number ⟨year, month, date⟩ + n
    · rw [if_pos (decide_eq_true (htest.mpr ⟨hafter, by omega⟩)).symm]
      omega
    · rw [if_neg (by rw [decide_eq_false fun h => hafter (htest.mp h).1]; decide)]
      omega
  · rw [if_neg hfirst, decide_eq_false (show ¬year ≥ 1582 by omega)]
    simp only [calendarFor, if_true, number_add, Bool.not_false, Bool.false_eq_true, if_false]
    have htest := @cutover_test (day + n) (by omega) (by omega)
    rw [hnumber, cutoverDay_eq]
    rw [cutoverDay_eq] at htest
    by_cases hafter : -141427 ≤ day + n
    · rw [if_neg (by rw [decide_eq_true (htest.mpr ⟨hafter, by omega⟩)]; decide)]
      omega
    · rw [if_pos (decide_eq_false fun h => hafter (htest.mp h).1).symm]
      omega

/-- **Spec lemma** of `guessedDay`. -/
theorem guessedDay_add (h : (calendarOf day).IsDateOf day date) (hyear : 1 ≤ date.year)
    (hlow : -2 ^ 34 ≤ day) (hhigh : day < 2 ^ 37) (hn : -2 ^ 33 ≤ n) (hn' : n < 2 ^ 33) :
    guessedDay date.year date.month (date.day + n) = day + n ↔ DateAdds day date n := by
  rw [DateAdds]
  by_cases hday : cutoverDay ≤ day
  · rw [if_pos hday]
    exact guessedDay_gregorian h hday (year_lt h hhigh) hhigh hn hn'
  · rw [if_neg hday]
    exact guessedDay_julian h (not_le.mp hday) hyear hlow hn hn'

theorem dateAdds_zero (hhigh : day * 86400000 < 2 ^ 63) : DateAdds day date 0 := by
  rw [DateAdds, add_zero]
  by_cases hday : cutoverDay ≤ day
  · rw [if_pos hday]
    exact ⟨hday, hhigh⟩
  · rw [if_neg hday]
    split_ifs
    · omega
    · exact .inl (not_le.mp hday)

theorem year_pos (h : (calendarOf day).IsDateOf day date) (hfirst : julian.number ⟨1, 0, 1⟩ ≤ day) :
    1 ≤ date.year := by
  by_cases hday : cutoverDay ≤ day
  · have hyear := (year_of_day h).1 hday
    omega
  · obtain ⟨hvalid, hnumber⟩ := h
    rw [calendarOf, if_pos (not_le.mp hday)] at hvalid hnumber
    exact julian.year_le (julian.valid_first 1 (by decide)) hvalid (hnumber ▸ hfirst)

end

/-! ## The day of the week -/

/-- The adjustment goes to the right day of the week, and it leaves the date alone. -/
theorem useDayOfWeek_set {day guess : ℤ} {c : CalendarImpl} (hset : c.isSet.DAY_OF_WEEK = true)
    (hdow : c.fields.DAY_OF_WEEK = (day + 4) % 7 + 1) (hdate : -2 ^ 31 ≤ c.fields.DATE)
    (hdate' : c.fields.DATE < 2 ^ 31) (h0 : -2 ^ 61 ≤ guess) (h1 : guess < 2 ^ 61) :
    useDayOfWeek (guess + EPOCH_JULIAN_DAY) c =
      (guess + ((day + 4) % 7 - (guess + 4) % 7) + EPOCH_JULIAN_DAY, c) := by
  have hguess := @julianDayToDayOfWeek_eq guess (by omega) (by omega)
  have hadjusted : jlong (guess + EPOCH_JULIAN_DAY + ((day + 4) % 7 + 1 - ((guess + 4) % 7 + 1))) =
      guess + ((day + 4) % 7 - (guess + 4) % 7) + EPOCH_JULIAN_DAY := by
    rw [EPOCH_JULIAN_DAY, jlong_eq (by omega) (by omega)]
    ring
  have hafter := @julianDayToDayOfWeek_eq (guess + ((day + 4) % 7 - (guess + 4) % 7)) (by omega)
    (by omega)
  have hsame : jint (c.fields.DATE + ((day + 4) % 7 + 1 -
      ((guess + ((day + 4) % 7 - (guess + 4) % 7) + 4) % 7 + 1))) = c.fields.DATE := by
    rw [jint_eq (by omega) (by omega)]
    omega
  rw [useDayOfWeek, hdow, if_pos ⟨hset, by rw [SUNDAY]; omega, by omega⟩]
  simp only [hguess, hadjusted, hafter, hsame]

theorem useDayOfWeek_unset {julianDay : ℤ} {c : CalendarImpl}
    (hset : c.isSet.DAY_OF_WEEK = false) : useDayOfWeek julianDay c = (julianDay, c) := by
  rw [useDayOfWeek, hset]
  exact if_neg fun h => absurd h.1 (by decide)

/-! ## Fields of a time -/

/-- The fields of a date. -/
structure Fields.IsDay (fields : Fields) (day : ℤ) (date : Date) : Prop where
  year : fields.YEAR = date.year
  month : fields.MONTH = date.month
  date : fields.DATE = date.day
  dow : fields.DAY_OF_WEEK = (day + 4) % 7 + 1

theorem Fields.IsTimeOfDay.isHour {fields : Fields} {ms : ℤ} (h : fields.IsTimeOfDay ms)
    (h0 : 0 ≤ ms) (h1 : ms < 86400000) : fields.IsHour (ms / 3600000) :=
  ⟨by omega, h.hour, h.ampm, h.hour12⟩

theorem Fields.IsTimeOfDay.sum {fields : Fields} {ms : ℤ} (h : fields.IsTimeOfDay ms) :
    ((fields.HOUR_OF_DAY * 60 + fields.MINUTE) * 60 + fields.SECOND) * 1000 +
      fields.MILLISECOND = ms := by
  rw [h.hour, h.minute, h.second, h.milli]
  omega

end CldcVm.CalendarImpl

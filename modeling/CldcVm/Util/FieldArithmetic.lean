import CldcVm.Util.CalendarArithmetic

/-!
# Adding to a field and computing the time

The fields that `computeFields` sets give the time back, whatever flags are set. After an addition
to a field, `computeTime` loses the carry at three places: the sum of the day is an `int`, the guess
of the calendar is corrected towards the calendar of the original year only, and `getOffset` is
asked about the date as it stands in the fields.

Results:

* `computeTime_computeFields`: when a time, and a time with an addition, are computed.
-/

namespace CldcVm.CalendarImpl

open CldcVm.Calendars

/-! ## The fields that are added to -/

/-- A field, with a fixed length. -/
inductive CalendarField where
  | DATE
  | MINUTE
  | SECOND
  | MILLISECOND
deriving DecidableEq

namespace CalendarField

/-- The length of a field, in milliseconds. -/
def millis : CalendarField → ℤ
  | DATE => 86400000
  | MINUTE => 60000
  | SECOND => 1000
  | MILLISECOND => 1

/-- `get`. -/
def get (fields : Fields) : CalendarField → ℤ
  | DATE => fields.DATE
  | MINUTE => fields.MINUTE
  | SECOND => fields.SECOND
  | MILLISECOND => fields.MILLISECOND

/-- `set`, of a sum. -/
def add (fields : Fields) (n : ℤ) : CalendarField → Fields
  | DATE => { fields with DATE := fields.DATE + n }
  | MINUTE => { fields with MINUTE := fields.MINUTE + n }
  | SECOND => { fields with SECOND := fields.SECOND + n }
  | MILLISECOND => { fields with MILLISECOND := fields.MILLISECOND + n }

/-- When `computeTime` carries an addition, for a time `t` in the zone. -/
def Carries (zone : TimeZone) (t : ℤ) (date : Date) (n : ℤ) : CalendarField → Prop
  | DATE => zone.accepts date.month (date.day + n) = true ∧ DateAdds (t / 86400000) date n
  | MINUTE => -2 ^ 31 ≤ t % 86400000 + n * 60000 ∧ t % 86400000 + n * 60000 < 2 ^ 31
  | SECOND => -2 ^ 31 ≤ t % 86400000 + n * 1000 ∧ t % 86400000 + n * 1000 < 2 ^ 31
  | MILLISECOND => -2 ^ 31 ≤ t % 86400000 + n ∧ t % 86400000 + n < 2 ^ 31

end CalendarField

/-- `computeTime` returns, with this time. -/
def ComputesTime (zone : TimeZone) (c : CalendarImpl) (time : ℤ) : Prop :=
  (computeTime zone c).map CalendarImpl.time = some time

/-! ## Lenient fields -/

/-- **Spec lemma** of `computeTime`, without a day of the week. -/
theorem computeTime_eq {zone : TimeZone} {c : CalendarImpl} {month : ℕ} {hour : ℤ}
    (hhour : c.fields.IsHour hour) (hset : c.isSet.DAY_OF_WEEK = false)
    (hyear : 1 ≤ c.fields.YEAR) (hyear' : c.fields.YEAR < 2 ^ 31) (hmonth : c.fields.MONTH = month)
    (h12 : month < 12) (hdate : -2 ^ 31 ≤ c.fields.DATE) (hdate' : c.fields.DATE < 2 ^ 31) :
    (computeTime zone c).map CalendarImpl.time =
      if zone.accepts c.fields.MONTH c.fields.DATE = true then
        some (jlong (guessedDay c.fields.YEAR month c.fields.DATE * 86400000 +
          millisInDay c.fields - zone.rawOffset)) else none := by
  obtain ⟨ampm, isSet, hcorrect, hdow⟩ := @correctTime_spec c hour hhour
  have hbounds : -2 ^ 62 ≤ guessedDay c.fields.YEAR month c.fields.DATE ∧
      guessedDay c.fields.YEAR month c.fields.DATE < 2 ^ 62 := by
    have hnumber := fun isGregorian =>
      @number_bounds_of_year isGregorian _ _ _ h12 hyear hyear' hdate hdate'
    rw [guessedDay]
    split_ifs
    · have hguess := hnumber (decide (c.fields.YEAR ≥ 1582))
      omega
    · have hguess := hnumber (!decide (c.fields.YEAR ≥ 1582))
      omega
  have hday := @resolveDay_eq { c.fields with AM_PM := ampm } month hyear hyear' hmonth h12 hdate
    hdate'
  have htime := @computeTime_of_day zone c ⟨c.time, { c.fields with AM_PM := ampm }, isSet⟩ _ _
    hcorrect (useDayOfWeek_unset (hdow.trans hset)) hday hbounds.1 hbounds.2
  exact htime

/-- A sum that a `long` holds. -/
theorem jlong_eq_iff {x y : ℤ} (h : -2 ^ 63 ≤ y) :
    jlong x = y ↔ (x - y) % 2 ^ 64 = 0 ∧ y < 2 ^ 63 := by
  have hrange : (jlong x - x) % 2 ^ 64 = 0 ∧ -2 ^ 63 ≤ jlong x ∧ jlong x < 2 ^ 63 := by
    rw [jlong]
    omega
  obtain ⟨hmod, hlow, hhigh⟩ := hrange
  generalize jlong x = z at hmod hlow hhigh
  constructor
  · rintro rfl
    omega
  · rintro ⟨hsame, hlt⟩
    omega

theorem days_emod_eq_zero {d : ℤ} (h0 : -2 ^ 53 < d) (h1 : d < 2 ^ 53) :
    d * 86400000 % 2 ^ 64 = 0 ↔ d = 0 := by
  constructor
  · intro h
    have hdvd : (1024 * 2 ^ 54 : ℤ) ∣ 1024 * (d * 84375) := by
      obtain ⟨k, hk⟩ := Int.dvd_of_emod_eq_zero h
      exact ⟨k, by linarith⟩
    have hodd : IsCoprime (2 ^ 54 : ℤ) 84375 := by
      rw [Int.isCoprime_iff_gcd_eq_one]
      decide
    have hday := hodd.dvd_of_dvd_mul_right (Int.dvd_of_mul_dvd_mul_left (by decide) hdvd)
    exact Int.eq_zero_of_abs_lt_dvd hday (abs_lt.mpr ⟨by linarith, by linarith⟩)
  · rintro rfl
    rfl

theorem jlong_day_iff {day day' ms offset n : ℤ} (h0 : -2 ^ 53 < day' - (day + n))
    (h1 : day' - (day + n) < 2 ^ 53)
    (hlow : -2 ^ 63 ≤ day * 86400000 + ms - offset + n * 86400000) :
    jlong (day' * 86400000 + ms - offset) = day * 86400000 + ms - offset + n * 86400000 ↔
      day' = day + n ∧ day * 86400000 + ms - offset + n * 86400000 < 2 ^ 63 := by
  have hsplit : day' * 86400000 + ms - offset - (day * 86400000 + ms - offset + n * 86400000) =
      (day' - (day + n)) * 86400000 := by
    ring
  rw [jlong_eq_iff hlow, hsplit, days_emod_eq_zero h0 h1, sub_eq_zero]

/-- The time of a day with an accumulator that has overflowed. -/
theorem jlong_millis_iff {rest s x : ℤ} (hx : -2 ^ 48 ≤ s + x) (hx' : s + x < 2 ^ 48)
    (hlow : -2 ^ 63 ≤ rest + s + x) : jlong (rest + jint (s + x)) = rest + s + x ↔
      (-2 ^ 31 ≤ s + x ∧ s + x < 2 ^ 31) ∧ rest + s + x < 2 ^ 63 := by
  have hsplit : rest + jint (s + x) - (rest + s + x) = jint (s + x) - (s + x) := by
    ring
  rw [jlong_eq_iff hlow, hsplit]
  refine and_congr_left fun _ => ?_
  generalize s + x = sum at hx hx'
  unfold jint
  omega

/-! ## The fields of a time -/

section

variable {zone : TimeZone} {c : CalendarImpl} {day ms : ℤ} {date : Date}

/-- The fields of a day and of a time of the day, of the year 1 or later. -/
structure IsTime (fields : Fields) (day ms : ℤ) (date : Date) : Prop where
  dateOf : (calendarOf day).IsDateOf day date
  isDay : fields.IsDay day date
  isTimeOfDay : fields.IsTimeOfDay ms
  first : julian.number ⟨1, 0, 1⟩ ≤ day
  fits : day * 86400000 < 2 ^ 63
  nonneg : 0 ≤ ms
  lt : ms < 86400000

theorem IsTime.bounds (h : IsTime c.fields day ms date) :
    -2 ^ 20 ≤ day ∧ day < 2 ^ 37 ∧ 1 ≤ date.year ∧ date.year < 2 ^ 31 ∧ date.month < 12 ∧
      1 ≤ date.day ∧ date.day ≤ 31 := by
  have hfirst : julian.number ⟨1, 0, 1⟩ = -719164 := by decide +kernel
  have hlow := h.first
  have hhigh := h.fits
  rw [hfirst] at hlow
  have hlength := (Calendar.monthLength_bounds ((calendarOf day).isLeap date.year) date.month).2
  obtain ⟨hmonth, hday, hday'⟩ := h.dateOf.1
  exact ⟨by omega, by omega, year_pos h.dateOf h.first, year_lt h.dateOf (by omega), hmonth, hday,
    by omega⟩

/-- The day of the week is right in the end, although the first guess may be another day. -/
theorem resolveDay_adjusted (h : IsTime c.fields day ms date) :
    ∃ guess, -2 ^ 33 ≤ guess ∧ guess < 2 ^ 42 ∧
      calculateJulianDay (decide (c.fields.YEAR ≥ 1582)) c.fields.YEAR c.fields =
        guess + EPOCH_JULIAN_DAY ∧ resolveDay (decide (c.fields.YEAR ≥ 1582))
        (guess + ((day + 4) % 7 - (guess + 4) % 7) + EPOCH_JULIAN_DAY) c.fields =
        day + EPOCH_JULIAN_DAY := by
  obtain ⟨hlow, hhigh, hyear, hyear', h12, hdate, hdate'⟩ := h.bounds
  have hnumber := fun isGregorian => @calculateJulianDay_eq isGregorian c.fields date.month
    (by rw [h.isDay.year]; exact hyear) (by rw [h.isDay.year]; exact hyear') h.isDay.month h12
    (by rw [h.isDay.date]; omega) (by rw [h.isDay.date]; omega)
  have hrange := @number_bounds_of_year (decide (date.year ≥ 1582)) date.year date.day date.month
    h12 hyear hyear' (by omega) (by omega)
  have hfits := h.fits
  have hyears := year_of_day h.dateOf
  have hdateOf := h.dateOf.2
  rw [h.isDay.year, h.isDay.date] at hnumber
  rw [h.isDay.year]
  change -2 ^ 32 ≤ (calendarFor (decide (date.year ≥ 1582))).number date ∧
    (calendarFor (decide (date.year ≥ 1582))).number date < 2 ^ 41 at hrange
  refine ⟨(calendarFor (decide (date.year ≥ 1582))).number date, by omega, by omega, hnumber _, ?_⟩
  by_cases hday : cutoverDay ≤ day
  · rw [calendarOf, if_neg (not_lt.mpr hday)] at hdateOf
    rw [decide_eq_true (hyears.1 hday), calendarFor, if_pos rfl, hdateOf, sub_self, add_zero,
      resolveDay_if _ _ (by omega) (by omega),
      if_pos (decide_eq_true ((cutover_test (by omega) (by omega)).mpr ⟨hday, hfits⟩)).symm]
  · have hbefore := hyears.2 (not_le.mp hday)
    rw [calendarOf, if_pos (not_le.mp hday)] at hdateOf
    by_cases hfirst : date.year = 1582
    · -- the guess is ten days early, and so it stays before the cutover
      have hgap := (calendarGap_bounds hyear hyear' h12).2.1 hfirst
      rw [calendarGap, hdateOf] at hgap
      rw [decide_eq_true (show date.year ≥ 1582 by omega), calendarFor, if_pos rfl,
        show gregorian.number date = day - 10 by omega, resolveDay_if _ _ (by omega) (by omega),
        if_neg, h.isDay.year, hnumber, Bool.not_true, calendarFor, if_neg Bool.false_ne_true,
        hdateOf]
      rw [decide_eq_false fun htest => hday ?_]
      · decide
      · have hcutover := ((cutover_test (by omega) (by omega)).mp htest).1
        omega
    · rw [decide_eq_false (show ¬date.year ≥ 1582 by omega), calendarFor,
        if_neg Bool.false_ne_true, hdateOf, sub_self, add_zero,
        resolveDay_if _ _ (by omega) (by omega),
        if_pos (decide_eq_false fun htest => hday
          ((cutover_test (by omega) (by omega)).mp htest).1).symm]

theorem millisInDay_of_time (h : IsTime c.fields day ms date) : millisInDay c.fields = ms := by
  have hnonneg := h.nonneg
  have hlt := h.lt
  rw [millisInDay_eq, h.isTimeOfDay.sum, jint_eq (by omega) (by omega)]

theorem computeTime_of_time (h : IsTime c.fields day ms date) :
    (computeTime zone c).map CalendarImpl.time =
      some (jlong (day * 86400000 + ms - zone.rawOffset)) := by
  obtain ⟨hlow, hhigh, hyear, hyear', h12, hdate, hdate'⟩ := h.bounds
  have hlegal := zone.legal _ _ (legal_of_valid h.dateOf.1)
  obtain ⟨ampm, isSet, hcorrect, hdow⟩ := correctTime_spec (h.isTimeOfDay.isHour h.nonneg h.lt)
  obtain ⟨guess, hguess, hguess', hnumber, hday⟩ := resolveDay_adjusted h
  rw [← h.isDay.month, ← h.isDay.date] at hlegal
  by_cases hset : c.isSet.DAY_OF_WEEK = true
  · have huse := @useDayOfWeek_set day guess ⟨c.time, { c.fields with AM_PM := ampm }, isSet⟩
      (hdow.trans hset) h.isDay.dow (h.isDay.date ▸ by omega) (h.isDay.date ▸ by omega) (by omega)
      (by omega)
    rw [← hnumber] at huse
    have htime := @computeTime_of_day zone c ⟨c.time, { c.fields with AM_PM := ampm }, isSet⟩ _ _
      hcorrect huse hday (by omega) (by omega)
    rw [htime, if_pos hlegal]
    change some (jlong (day * 86400000 + millisInDay c.fields - zone.rawOffset)) = _
    rw [millisInDay_of_time h]
  · have hguessed : guessedDay date.year date.month date.day = day := by
      have hadd := (@guessedDay_add day 0 date h.dateOf hyear (by omega) (by omega) (by omega)
        (by omega)).mpr (dateAdds_zero h.fits)
      rwa [add_zero, add_zero] at hadd
    rw [computeTime_eq (h.isTimeOfDay.isHour h.nonneg h.lt) (Bool.eq_false_iff.mpr hset)
      (h.isDay.year ▸ hyear) (h.isDay.year ▸ hyear') h.isDay.month h12 (h.isDay.date ▸ by omega)
      (h.isDay.date ▸ by omega), if_pos hlegal, millisInDay_of_time h, h.isDay.year, h.isDay.date,
      hguessed]

theorem computesTime_addDate {isSet : IsSet} {n : ℤ} (h : IsTime c.fields day ms date)
    (hset : isSet.DAY_OF_WEEK = false) (hn : -2 ^ 31 ≤ n) (hn' : n < 2 ^ 31)
    (hfield : -2 ^ 31 ≤ c.fields.DATE + n) (hfield' : c.fields.DATE + n < 2 ^ 31)
    (hlow : -2 ^ 62 ≤ day * 86400000 + ms - zone.rawOffset) :
    ComputesTime zone ⟨c.time, { c.fields with DATE := c.fields.DATE + n }, isSet⟩
        (day * 86400000 + ms - zone.rawOffset + n * 86400000) ↔
      (zone.accepts date.month (date.day + n) = true ∧ DateAdds day date n) ∧
        day * 86400000 + ms - zone.rawOffset + n * 86400000 < 2 ^ 63 := by
  obtain ⟨hlow', hhigh, hyear, hyear', h12, hdate, hdate'⟩ := h.bounds
  rw [h.isDay.date] at hfield hfield'
  have hsame := h.isTimeOfDay.isHour h.nonneg h.lt
  have hhour : Fields.IsHour { c.fields with DATE := c.fields.DATE + n } (ms / 3600000) :=
    ⟨hsame.bounds, hsame.hour, hsame.ampm, hsame.hour12⟩
  have htime := @computeTime_eq zone ⟨c.time, { c.fields with DATE := c.fields.DATE + n }, isSet⟩ _
    _ hhour hset (h.isDay.year ▸ hyear) (h.isDay.year ▸ hyear')
    h.isDay.month h12 (by rw [h.isDay.date]; exact hfield) (by rw [h.isDay.date]; exact hfield')
  change _ = (if zone.accepts c.fields.MONTH (c.fields.DATE + n) = true then
    some (jlong (guessedDay c.fields.YEAR date.month (c.fields.DATE + n) * 86400000 +
      millisInDay c.fields - zone.rawOffset)) else none) at htime
  rw [millisInDay_of_time h, h.isDay.year, h.isDay.month, h.isDay.date] at htime
  rw [ComputesTime, h.isDay.date, htime]
  by_cases haccepts : zone.accepts date.month (date.day + n) = true
  · have hbounds : -2 ^ 32 ≤ guessedDay date.year date.month (date.day + n) ∧
        guessedDay date.year date.month (date.day + n) < 2 ^ 41 := by
      have hnumber := fun isGregorian =>
        @number_bounds_of_year isGregorian _ _ _ h12 hyear hyear' hfield hfield'
      rw [guessedDay]
      split_ifs
      · exact hnumber _
      · exact hnumber _
    rw [if_pos haccepts, Option.some_inj, jlong_day_iff (by omega) (by omega) (by omega),
      guessedDay_add h.dateOf hyear (by omega) (by omega) (by omega) (by omega)]
    simp only [haccepts, true_and]
  · rw [if_neg haccepts]
    constructor
    · intro hnone
      cases hnone
    · rintro ⟨⟨hlegal, -⟩, -⟩
      exact absurd hlegal haccepts

theorem computesTime_addMillis {isSet : IsSet} {fields : Fields} {x : ℤ}
    (h : IsTime c.fields day ms date) (hset : isSet.DAY_OF_WEEK = false)
    (hday : fields.IsDay day date) (hhour : fields.IsHour (ms / 3600000))
    (hsum : ((fields.HOUR_OF_DAY * 60 + fields.MINUTE) * 60 + fields.SECOND) * 1000 +
      fields.MILLISECOND = ms + x) (hx : -2 ^ 47 ≤ x) (hx' : x < 2 ^ 47)
    (hlow : -2 ^ 62 ≤ day * 86400000 + ms - zone.rawOffset) :
    ComputesTime zone ⟨c.time, fields, isSet⟩ (day * 86400000 + ms - zone.rawOffset + x) ↔
      (-2 ^ 31 ≤ ms + x ∧ ms + x < 2 ^ 31) ∧ day * 86400000 + ms - zone.rawOffset + x < 2 ^ 63 := by
  obtain ⟨hlow', hhigh, hyear, hyear', h12, hdate, hdate'⟩ := h.bounds
  have hnonneg := h.nonneg
  have hlt := h.lt
  have hlegal := zone.legal _ _ (legal_of_valid h.dateOf.1)
  have hguessed : guessedDay date.year date.month date.day = day := by
    have hadd := (@guessedDay_add day 0 date h.dateOf hyear (by omega) (by omega) (by omega)
      (by omega)).mpr (dateAdds_zero h.fits)
    rwa [add_zero, add_zero] at hadd
  have htime := @computeTime_eq zone ⟨c.time, fields, isSet⟩ _ _ hhour hset (hday.year ▸ hyear)
    (hday.year ▸ hyear') hday.month h12 (hday.date ▸ by omega) (hday.date ▸ by omega)
  change _ = (if zone.accepts fields.MONTH fields.DATE = true then
    some (jlong (guessedDay fields.YEAR date.month fields.DATE * 86400000 + millisInDay fields -
      zone.rawOffset)) else none) at htime
  rw [hday.month, hday.date, if_pos hlegal, hday.year, hguessed, millisInDay_eq, hsum,
    show day * 86400000 + jint (ms + x) - zone.rawOffset =
      day * 86400000 - zone.rawOffset + jint (ms + x) by ring] at htime
  have hiff := @jlong_millis_iff (day * 86400000 - zone.rawOffset) ms x (by omega) (by omega)
    (by omega)
  rw [show day * 86400000 - zone.rawOffset + ms + x = day * 86400000 + ms - zone.rawOffset + x by
    ring] at hiff
  rw [ComputesTime, htime, Option.some_inj, hiff]

theorem computesTime_add {isSet : IsSet} {n : ℤ} (field : CalendarField)
    (h : IsTime c.fields day ms date) (hset : isSet.DAY_OF_WEEK = false) (hn : -2 ^ 31 ≤ n)
    (hn' : n < 2 ^ 31) (hfield : -2 ^ 31 ≤ field.get c.fields + n)
    (hfield' : field.get c.fields + n < 2 ^ 31)
    (hlow : -2 ^ 62 ≤ day * 86400000 + ms - zone.rawOffset) :
    ComputesTime zone ⟨c.time, field.add c.fields n, isSet⟩
        (day * 86400000 + ms - zone.rawOffset + n * field.millis) ↔
      field.Carries zone (day * 86400000 + ms) date n ∧
        day * 86400000 + ms - zone.rawOffset + n * field.millis < 2 ^ 63 := by
  have hnonneg := h.nonneg
  have hlt := h.lt
  have hsum := h.isTimeOfDay.sum
  have hsame := h.isTimeOfDay.isHour hnonneg hlt
  have hms : (day * 86400000 + ms) % 86400000 = ms := by omega
  have hdays : (day * 86400000 + ms) / 86400000 = day := by omega
  cases field with
  | DATE =>
    rw [CalendarField.Carries, hdays]
    exact computesTime_addDate h hset hn hn' hfield hfield' hlow
  | MINUTE =>
    rw [CalendarField.Carries, hms]
    refine computesTime_addMillis h hset ⟨h.isDay.year, h.isDay.month, h.isDay.date, h.isDay.dow⟩
      ⟨hsame.bounds, hsame.hour, hsame.ampm, hsame.hour12⟩ ?_ ?_ ?_ hlow
    · show ((c.fields.HOUR_OF_DAY * 60 + (c.fields.MINUTE + n)) * 60 + c.fields.SECOND) * 1000 +
        c.fields.MILLISECOND = ms + n * 60000
      rw [← hsum]
      ring
    · show -2 ^ 47 ≤ n * 60000
      omega
    · show n * 60000 < 2 ^ 47
      omega
  | SECOND =>
    rw [CalendarField.Carries, hms]
    refine computesTime_addMillis h hset ⟨h.isDay.year, h.isDay.month, h.isDay.date, h.isDay.dow⟩
      ⟨hsame.bounds, hsame.hour, hsame.ampm, hsame.hour12⟩ ?_ ?_ ?_ hlow
    · show ((c.fields.HOUR_OF_DAY * 60 + c.fields.MINUTE) * 60 + (c.fields.SECOND + n)) * 1000 +
        c.fields.MILLISECOND = ms + n * 1000
      rw [← hsum]
      ring
    · show -2 ^ 47 ≤ n * 1000
      omega
    · show n * 1000 < 2 ^ 47
      omega
  | MILLISECOND =>
    rw [CalendarField.Carries, hms, CalendarField.millis, mul_one]
    refine computesTime_addMillis h hset ⟨h.isDay.year, h.isDay.month, h.isDay.date, h.isDay.dow⟩
      ⟨hsame.bounds, hsame.hour, hsame.ampm, hsame.hour12⟩ ?_ (by omega) (by omega) hlow
    show ((c.fields.HOUR_OF_DAY * 60 + c.fields.MINUTE) * 60 + c.fields.SECOND) * 1000 +
      (c.fields.MILLISECOND + n) = ms + n
    rw [← hsum]
    ring

/-- **Main theorem.** The fields of a time give the time back; with an addition they give the time
that is as much later if and only if the addition is carried and the time is a `long`. -/
theorem computeTime_computeFields (ht : -2 ^ 63 ≤ c.time) (ht' : c.time < 2 ^ 63)
    (hoffset : -2 ^ 31 ≤ zone.rawOffset) (hoffset' : zone.rawOffset < 2 ^ 31)
    (hsum : c.time + zone.rawOffset < 2 ^ 63)
    (hfirst : julian.number ⟨1, 0, 1⟩ ≤ (c.time + zone.rawOffset) / 86400000) :
    ∃ fields date, computeFields zone c = some { c with fields := fields } ∧
      (calendarOf ((c.time + zone.rawOffset) / 86400000)).IsDateOf
        ((c.time + zone.rawOffset) / 86400000) date ∧
      (∀ isSet, ComputesTime zone ⟨c.time, fields, isSet⟩ c.time) ∧
      ∀ (field : CalendarField) isSet n, isSet.DAY_OF_WEEK = false → -2 ^ 31 ≤ n → n < 2 ^ 31 →
        -2 ^ 31 ≤ field.get fields + n → field.get fields + n < 2 ^ 31 →
        (ComputesTime zone ⟨c.time, field.add fields n, isSet⟩ (c.time + n * field.millis) ↔
          field.Carries zone (c.time + zone.rawOffset) date n ∧
            c.time + n * field.millis < 2 ^ 63) := by
  have hday1 : julian.number ⟨1, 0, 1⟩ = -719164 := by decide +kernel
  have hlow : -719164 ≤ (c.time + zone.rawOffset) / 86400000 := hday1 ▸ hfirst
  obtain ⟨fields, date, hfields, hdateOf, hyear, hmonth, hdate, hdow, htime⟩ :=
    @computeFields_spec zone c (by omega) hsum
  have hyear1 := year_pos hdateOf hfirst
  rw [yearField, if_neg (not_lt.mpr hyear1)] at hyear
  have htimeOf : IsTime (CalendarImpl.mk c.time fields c.isSet).fields
      ((c.time + zone.rawOffset) / 86400000) ((c.time + zone.rawOffset) % 86400000) date :=
    ⟨hdateOf, ⟨hyear, hmonth, hdate, hdow⟩, htime, hfirst, by omega, by omega, by omega⟩
  have hsplit : (c.time + zone.rawOffset) / 86400000 * 86400000 +
      (c.time + zone.rawOffset) % 86400000 = c.time + zone.rawOffset := by omega
  refine ⟨fields, date, hfields, hdateOf, fun isSet => ?_, ?_⟩
  · have hback := @computeTime_of_time zone ⟨c.time, fields, isSet⟩ _ _ _ htimeOf
    rw [hsplit, add_sub_cancel_right, jlong_eq ht ht'] at hback
    exact hback
  · intro field isSet n hset hn hn' hfield hfield'
    have hadd := @computesTime_add zone ⟨c.time, fields, isSet⟩ _ _ date isSet n field htimeOf hset
      hn hn' hfield hfield' (by rw [hsplit]; omega)
    rw [hsplit, add_sub_cancel_right] at hadd
    exact hadd

end

/-- The midnight at the beginning of 31 January 1970, and its fields. -/
def january31 : CalendarImpl :=
  ⟨2592000000, ⟨1970, 0, 31, 7, 0, 0, 0, 0, 0, 0⟩, ⟨false, false, false, false⟩⟩

/-- The time 35792 minutes later is found to be an earlier one. -/
theorem computeTime_loses_carry :
    ¬∀ (zone : TimeZone) (c : CalendarImpl), -2 ^ 63 ≤ c.time → c.time < 2 ^ 63 →
      -2 ^ 31 ≤ zone.rawOffset → zone.rawOffset < 2 ^ 31 → c.time + zone.rawOffset < 2 ^ 63 →
      julian.number ⟨1, 0, 1⟩ ≤ (c.time + zone.rawOffset) / 86400000 →
      ∀ c', computeFields zone c = some c' → ∀ (field : CalendarField) isSet n,
        isSet.DAY_OF_WEEK = false → -2 ^ 31 ≤ n → n < 2 ^ 31 → -2 ^ 31 ≤ field.get c'.fields + n →
        field.get c'.fields + n < 2 ^ 31 →
        ComputesTime zone ⟨c.time, field.add c'.fields n, isSet⟩ (c.time + n * field.millis) := by
  intro h
  have hfields : (computeFields (TimeZoneImpl 0) january31).map CalendarImpl.fields =
      some january31.fields := by
    decide +kernel
  obtain ⟨c', hc', hsame⟩ := Option.map_eq_some_iff.mp hfields
  have hminutes := h (TimeZoneImpl 0) january31 (by decide) (by decide) (by decide) (by decide)
    (by decide) (by decide +kernel) c' hc' .MINUTE january31.isSet 35792 rfl (by decide)
    (by decide) (by rw [hsame]; decide) (by rw [hsame]; decide)
  rw [hsame] at hminutes
  revert hminutes
  unfold ComputesTime
  decide +kernel

/-- The fields of a midnight, with additions. -/
theorem computeTime_computeFields_january31 :
    ∃ fields date, computeFields (TimeZoneImpl 0) january31 =
        some { january31 with fields := fields } ∧
      (calendarOf ((2592000000 + 0) / 86400000)).IsDateOf ((2592000000 + 0) / 86400000) date ∧
      (∀ isSet, ComputesTime (TimeZoneImpl 0) ⟨2592000000, fields, isSet⟩ 2592000000) ∧
      ∀ (field : CalendarField) isSet n, isSet.DAY_OF_WEEK = false → -2 ^ 31 ≤ n → n < 2 ^ 31 →
        -2 ^ 31 ≤ field.get fields + n → field.get fields + n < 2 ^ 31 →
        (ComputesTime (TimeZoneImpl 0) ⟨2592000000, field.add fields n, isSet⟩
            (2592000000 + n * field.millis) ↔
          field.Carries (TimeZoneImpl 0) (2592000000 + 0) date n ∧
            2592000000 + n * field.millis < 2 ^ 63) :=
  @computeTime_computeFields (TimeZoneImpl 0) january31 (by decide) (by decide) (by decide)
    (by decide) (by decide) (by decide +kernel)

end CldcVm.CalendarImpl

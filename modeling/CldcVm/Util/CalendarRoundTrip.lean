import CldcVm.Util.CalendarDates
import CldcVm.Util.ComputeTime

/-!
# From a time to its fields and back

Results:

* `computeFields_spec`: the fields of a time.
* `computeTime_of_day`: the time of fields, as a day and a time of the day.
* `resolveDay_eq`: the day that `computeTime` finds, of one calendar or of the other.
-/

namespace CldcVm.CalendarImpl

open CldcVm.Calendars

/-! ## Arithmetic -/

theorem jint_jint_add (x y : ℤ) : jint (jint x + y) = jint (x + y) := by
  unfold jint
  omega

theorem jlong_jlong_add (x y : ℤ) : jlong (jlong x + y) = jlong (x + y) := by
  unfold jlong
  omega

theorem julianDayToDayOfWeek_mod (julian : ℤ) :
    julianDayToDayOfWeek julian = jlong (julian + 1) % 7 + 1 := by
  rw [julianDayToDayOfWeek, ← dayOfWeek_spec, add_comm 7 SUNDAY]

theorem julianDayToDayOfWeek_eq {day : ℤ} (h0 : -2 ^ 62 ≤ day) (h1 : day < 2 ^ 62) :
    julianDayToDayOfWeek (day + EPOCH_JULIAN_DAY) = (day + 4) % 7 + 1 := by
  rw [julianDayToDayOfWeek_mod, EPOCH_JULIAN_DAY, jlong_eq (by omega) (by omega)]
  omega

theorem julianDayToMillis_eq {day : ℤ} (h0 : -2 ^ 62 ≤ day) (h1 : day < 2 ^ 62) :
    julianDayToMillis (day + EPOCH_JULIAN_DAY) = jlong (day * 86400000) := by
  rw [julianDayToMillis, ONE_DAY, add_sub_cancel_right, @jlong_eq day (by omega) (by omega)]

/-! ## The fields of a time -/

theorem pinned_eq {t offset : ℤ} (h0 : -2 ^ 63 ≤ t + offset) (h1 : t + offset < 2 ^ 63) :
    pinned t offset = t + offset := by
  rw [pinned, jlong_eq h0 h1, if_neg (by omega), if_neg (by omega)]

theorem legal_of_valid {c : Calendar} {date : Date} (h : c.Valid date) :
    Legal date.month date.day := by
  obtain ⟨hmonth, hfirst, hlast⟩ := h
  have hlength : ∀ leap : Bool, ∀ m < 12, monthLength leap m ≤ staticMonthLength.getD m 0 := by
    decide
  exact ⟨by omega, by omega, hfirst, hlast.trans (hlength _ _ hmonth)⟩

/-- The time of a day. -/
structure Fields.IsTimeOfDay (fields : Fields) (ms : ℤ) : Prop where
  hour : fields.HOUR_OF_DAY = ms / 3600000
  ampm : fields.AM_PM = ms / 3600000 / 12
  hour12 : fields.HOUR = ms / 3600000 % 12
  minute : fields.MINUTE = ms / 60000 % 60
  second : fields.SECOND = ms / 1000 % 60
  milli : fields.MILLISECOND = ms % 1000

theorem setMillisInDay_isTimeOfDay (fields : Fields) {ms : ℤ} (h : 0 ≤ ms) :
    (fields.setMillisInDay ms).IsTimeOfDay ms := by
  have hsec : ms.tdiv 1000 = ms / 1000 := Int.tdiv_eq_ediv_of_nonneg h
  have hmin : (ms / 1000).tdiv 60 = ms / 60000 := by
    rw [Int.tdiv_eq_ediv_of_nonneg (by omega)]
    omega
  have hhour : (ms / 60000).tdiv 60 = ms / 3600000 := by
    rw [Int.tdiv_eq_ediv_of_nonneg (by omega)]
    omega
  constructor
  · show ((ms.tdiv 1000).tdiv 60).tdiv 60 = _
    rw [hsec, hmin, hhour]
  · show (((ms.tdiv 1000).tdiv 60).tdiv 60).tdiv 12 = _
    rw [hsec, hmin, hhour, Int.tdiv_eq_ediv_of_nonneg (by omega)]
  · show (((ms.tdiv 1000).tdiv 60).tdiv 60).tmod 12 = _
    rw [hsec, hmin, hhour, Int.tmod_eq_emod_of_nonneg (by omega)]
  · show ((ms.tdiv 1000).tdiv 60).tmod 60 = _
    rw [hsec, hmin, Int.tmod_eq_emod_of_nonneg (by omega)]
  · show (ms.tdiv 1000).tmod 60 = _
    rw [hsec, Int.tmod_eq_emod_of_nonneg (by omega)]
  · exact Int.tmod_eq_emod_of_nonneg h

/-- **Spec lemma** of `computeFields`. -/
theorem computeFields_spec {zone : TimeZone} {c : CalendarImpl}
    (h0 : -2 ^ 63 ≤ c.time + zone.rawOffset) (h1 : c.time + zone.rawOffset < 2 ^ 63) :
    ∃ fields date, computeFields zone c = some { c with fields := fields } ∧
      (calendarOf ((c.time + zone.rawOffset) / 86400000)).IsDateOf
        ((c.time + zone.rawOffset) / 86400000) date ∧
      fields.YEAR = yearField date.year ∧ fields.MONTH = date.month ∧ fields.DATE = date.day ∧
      fields.DAY_OF_WEEK = ((c.time + zone.rawOffset) / 86400000 + 4) % 7 + 1 ∧
      fields.IsTimeOfDay ((c.time + zone.rawOffset) % 86400000) := by
  obtain ⟨date, hdate, hfields⟩ := timeToFields_spec h0 h1 c.fields
  generalize hlocal : c.time + zone.rawOffset = t at h0 h1 hdate hfields ⊢
  have hpinned : pinned c.time zone.rawOffset = t := by
    rw [← hlocal, pinned_eq (by omega) (by omega)]
  have htmod := Int.tmod_add_mul_tdiv t 86400000
  have hlt := Int.tmod_lt_of_pos t (show (0 : ℤ) < 86400000 by decide)
  have hgt : -86400000 < t.tmod 86400000 := Int.lt_tmod_of_pos t (by decide)
  have hnonneg : 0 ≤ t → 0 ≤ t.tmod 86400000 := Int.tmod_nonneg 86400000
  have hneg : t ≤ 0 → t.tmod 86400000 ≤ 0 := by
    intro h
    have hopposite := Int.tmod_nonneg 86400000 (show 0 ≤ -t by omega)
    rw [Int.neg_tmod] at hopposite
    omega
  have hrest : jint (jlong (t - jlong (t.tdiv ONE_DAY * ONE_DAY))) = t.tmod 86400000 := by
    rw [ONE_DAY, @jlong_eq (t.tdiv 86400000 * 86400000) (by omega) (by omega),
      jlong_eq (by omega) (by omega), jint_eq (by omega) (by omega)]
    omega
  have hms : (if t.tmod 86400000 < 0 then jint (t.tmod 86400000 + ONE_DAY)
      else t.tmod 86400000) = t % 86400000 := by
    rw [ONE_DAY, jint_eq (by omega) (by omega)]
    split_ifs <;> omega
  have hoffset : zone.getOffset date.month date.day ((t / 86400000 + 4) % 7 + 1) (t % 86400000) =
      some zone.rawOffset := by
    rw [TimeZone.getOffset, SUNDAY, ONE_DAY]
    exact if_pos ⟨zone.legal _ _ (legal_of_valid hdate.1), by omega, by omega, by omega, by omega⟩
  refine ⟨(timeToFields t c.fields).setMillisInDay (t % 86400000), date, ?_, hdate, ?_, ?_, ?_, ?_,
    setMillisInDay_isTimeOfDay _ (by omega)⟩
  · rw [computeFields, hpinned]
    simp only [hrest, hms]
    rw [hfields]
    simp only [hoffset]
    show (if jint (t % 86400000 + jint (zone.rawOffset - zone.rawOffset)) ≥ ONE_DAY then _ else _) =
      _
    rw [sub_self, @jint_eq 0 (by decide) (by decide), add_zero, jint_eq (by omega) (by omega),
      ONE_DAY, if_neg (by omega)]
  · exact congrArg Fields.YEAR hfields
  · exact congrArg Fields.MONTH hfields
  · exact congrArg Fields.DATE hfields
  · exact congrArg Fields.DAY_OF_WEEK hfields

/-! ## The time of fields -/

theorem numDays_eq {leap : Bool} {month : ℕ} (h : month < 12) :
    numDays leap month = daysBefore leap month := by
  revert leap month
  decide

theorem julian_leap {year : ℤ} (h : 0 ≤ year) : decide (year.tmod 4 = 0) = julian.isLeap year := by
  rw [Int.tmod_eq_emod_of_nonneg h]
  rfl

theorem daysBefore_bounds (leap : Bool) {month : ℕ} (h : month < 12) :
    0 ≤ daysBefore leap month ∧ daysBefore leap month ≤ 366 := by
  revert leap month
  decide

/-- The calendar that `calculateJulianDay` uses. -/
def calendarFor (isGregorian : Bool) : Calendar := if isGregorian then gregorian else julian

/-- **Spec lemma** of `calculateJulianDay`. -/
theorem calculateJulianDay_eq (isGregorian : Bool) {fields : Fields} {month : ℕ}
    (hyear : 1 ≤ fields.YEAR) (hyear' : fields.YEAR < 2 ^ 31) (hmonth : fields.MONTH = month)
    (h12 : month < 12) (hdate : -2 ^ 31 ≤ fields.DATE) (hdate' : fields.DATE < 2 ^ 31) :
    calculateJulianDay isGregorian fields.YEAR fields =
      (calendarFor isGregorian).number ⟨fields.YEAR, month, fields.DATE⟩ + EPOCH_JULIAN_DAY := by
  have hprevious : jint (fields.YEAR - 1) = fields.YEAR - 1 := jint_eq (by omega) (by omega)
  have hdays := fun leap => daysBefore_bounds leap h12
  rw [calculateJulianDay, hmonth, if_neg (by omega)]
  simp only [hprevious, numDays_eq h12, floorDivide_eq (show (0 : ℤ) < 4 by decide),
    floorDivide_eq (show (0 : ℤ) < 400 by decide), floorDivide_eq (show (0 : ℤ) < 100 by decide)]
  generalize fields.YEAR = year at hyear hyear'
  generalize fields.DATE = date at hdate hdate'
  cases isGregorian with
  | false =>
    have hleap := hdays (julian.isLeap year)
    rw [julian_leap (by omega)]
    simp only [Bool.false_eq_true, if_false, calendarFor, Calendar.number, jlong_jlong_add]
    rw [JAN_1_1_JULIAN_DAY, jlong_eq (by omega) (by omega), EPOCH_JULIAN_DAY, julian]
    ring
  | true =>
    have hleap := hdays (gregorian.isLeap year)
    have hboth : (decide (year.tmod 4 = 0) &&
        decide (year.tmod 100 ≠ 0 ∨ year.tmod 400 = 0)) = gregorian.isLeap year := by
      rw [← isLeap_eq (by omega), Int.tmod_eq_emod_of_nonneg (by omega), Bool.decide_and]
    simp only [if_true, hboth, calendarFor, Calendar.number, jlong_jlong_add]
    rw [JAN_1_1_JULIAN_DAY, jlong_eq (by omega) (by omega), EPOCH_JULIAN_DAY, gregorian]
    ring

/-- The fields of an hour agree. -/
structure Fields.IsHour (fields : Fields) (h : ℤ) : Prop where
  bounds : 0 ≤ h ∧ h < 24
  hour : fields.HOUR_OF_DAY = h
  ampm : fields.AM_PM = h / 12
  hour12 : fields.HOUR = h % 12

theorem useHourOfDay_eq {fields : Fields} {h : ℤ} (hhour : fields.IsHour h) :
    ∃ ampm, fields.useHourOfDay = { fields with AM_PM := ampm } := by
  obtain ⟨⟨h0, h24⟩, hhour, -, -⟩ := hhour
  have hself : fields.HOUR_OF_DAY.tmod 24 = fields.HOUR_OF_DAY := by
    rw [hhour, Int.tmod_eq_emod_of_nonneg h0]
    omega
  rw [Fields.useHourOfDay, hself]
  exact ⟨_, rfl⟩

theorem useHour_eq {fields : Fields} {h : ℤ} (hhour : fields.IsHour h) :
    fields.useHour = fields := by
  obtain ⟨⟨h0, h24⟩, hhour, hampm, hhour12⟩ := hhour
  have hset : ∀ value, value = fields.HOUR_OF_DAY →
      ({ fields with HOUR_OF_DAY := value } : Fields) = fields := by
    rintro _ rfl
    rfl
  rw [Fields.useHour, if_neg (by omega)]
  by_cases hpm : fields.AM_PM = PM
  · rw [if_pos hpm]
    rw [PM] at hpm
    refine hset _ ?_
    rw [hhour12, Int.tmod_eq_emod_of_nonneg (by omega)]
    omega
  · rw [if_neg hpm]
    rw [PM] at hpm
    exact hset _ (by omega)

/-- **Spec lemma**: `correctTime` keeps an hour, whatever has been set. -/
theorem correctTime_spec {c : CalendarImpl} {h : ℤ} (hhour : c.fields.IsHour h) :
    ∃ ampm isSet, correctTime c = ⟨c.time, { c.fields with AM_PM := ampm }, isSet⟩ ∧
      isSet.DAY_OF_WEEK = c.isSet.DAY_OF_WEEK := by
  rw [correctTime]
  by_cases hset : c.isSet.HOUR_OF_DAY = true
  · obtain ⟨ampm, hfields⟩ := useHourOfDay_eq hhour
    rw [if_pos hset, hfields]
    exact ⟨ampm, _, rfl, rfl⟩
  · rw [if_neg hset]
    by_cases hset12 : c.isSet.HOUR = true ∨ c.isSet.AM_PM = true
    · rw [if_pos hset12, useHour_eq hhour]
      exact ⟨c.fields.AM_PM, _, rfl, rfl⟩
    · rw [if_neg hset12]
      exact ⟨c.fields.AM_PM, c.isSet, rfl, rfl⟩

/-- The accumulator is the exact sum, as an `int`. -/
theorem millisInDay_eq (fields : Fields) :
    millisInDay fields = jint (((fields.HOUR_OF_DAY * 60 + fields.MINUTE) * 60 + fields.SECOND) *
      1000 + fields.MILLISECOND) := by
  simp only [millisInDay, jint_jint_add, jint_jint_mul]

/-- **Spec lemma** of the end of `computeTime`, from the day on. -/
theorem computeTime_of_day {zone : TimeZone} {c c' : CalendarImpl} {julianDay day : ℤ}
    (hcorrect : correctTime c = c')
    (huse : useDayOfWeek (calculateJulianDay (decide (c'.fields.YEAR ≥ 1582))
      c'.fields.YEAR c'.fields) c' = (julianDay, c'))
    (hday : resolveDay (decide (c'.fields.YEAR ≥ 1582)) julianDay c'.fields =
      day + EPOCH_JULIAN_DAY) (h0 : -2 ^ 62 ≤ day) (h1 : day < 2 ^ 62) :
    (computeTime zone c).map CalendarImpl.time =
      if zone.accepts c'.fields.MONTH c'.fields.DATE = true then
        some (jlong (day * 86400000 + millisInDay c'.fields - zone.rawOffset)) else none := by
  have hdow := julianDayToDayOfWeek_eq h0 h1
  have hrem : (floorDivideRem (jlong (jlong (day * 86400000) + millisInDay c'.fields)) ONE_DAY).2 =
      jlong (jlong (day * 86400000) + millisInDay c'.fields) % 86400000 :=
    congrArg Prod.snd (floorDivideRem_eq (by decide) (by decide))
  rw [computeTime]
  simp only [hcorrect, gregorianCutoverYear, huse, hday, julianDayToMillis_eq h0 h1, hrem, hdow]
  rw [TimeZone.getOffset]
  by_cases haccepts : zone.accepts c'.fields.MONTH c'.fields.DATE = true
  · rw [if_pos haccepts, if_pos ⟨haccepts, by rw [SUNDAY]; omega, by omega, by omega,
      by rw [ONE_DAY]; omega⟩]
    show some (jlong (jlong (jlong (jlong (day * 86400000) + millisInDay c'.fields) -
      zone.rawOffset) - jint (zone.rawOffset - zone.rawOffset))) = _
    rw [sub_self, @jint_eq 0 (by decide) (by decide), sub_zero]
    refine congrArg some ?_
    unfold jlong
    omega
  · rw [if_neg haccepts, if_neg fun h => haccepts h.1]
    rfl

/-! ## The day of fields -/

/-- The calendar that the year of fields suggests, unless the day that this calendar gives is of the
other one. -/
def guessedDay (year : ℤ) (month : ℕ) (date : ℤ) : ℤ :=
  let guess := (calendarFor (decide (year ≥ 1582))).number ⟨year, month, date⟩
  if decide (year ≥ 1582) = decide (jlong (guess * 86400000) ≥ gregorianCutover) then guess
  else (calendarFor (!decide (year ≥ 1582))).number ⟨year, month, date⟩

theorem number_bounds_of_year {isGregorian : Bool} {year date : ℤ} {month : ℕ} (h12 : month < 12)
    (hyear : 1 ≤ year) (hyear' : year < 2 ^ 31) (hdate : -2 ^ 31 ≤ date) (hdate' : date < 2 ^ 31) :
    -2 ^ 32 ≤ (calendarFor isGregorian).number ⟨year, month, date⟩ ∧
      (calendarFor isGregorian).number ⟨year, month, date⟩ < 2 ^ 41 := by
  cases isGregorian with
  | false =>
    have hbounds := daysBefore_bounds (julian.isLeap year) h12
    show -2 ^ 32 ≤ julian.start year + daysBefore (julian.isLeap year) month + (date - 1) ∧
      julian.start year + daysBefore (julian.isLeap year) month + (date - 1) < 2 ^ 41
    simp only [julian] at hbounds ⊢
    omega
  | true =>
    have hbounds := daysBefore_bounds (gregorian.isLeap year) h12
    show -2 ^ 32 ≤ gregorian.start year + daysBefore (gregorian.isLeap year) month + (date - 1) ∧
      gregorian.start year + daysBefore (gregorian.isLeap year) month + (date - 1) < 2 ^ 41
    simp only [gregorian] at hbounds ⊢
    omega

theorem resolveDay_if (isGregorian : Bool) {day : ℤ} (fields : Fields) (h0 : -2 ^ 33 ≤ day)
    (h1 : day < 2 ^ 62) : resolveDay isGregorian (day + EPOCH_JULIAN_DAY) fields =
      if isGregorian = decide (jlong (day * 86400000) ≥ gregorianCutover) then
        day + EPOCH_JULIAN_DAY else calculateJulianDay (!isGregorian) fields.YEAR fields := by
  have hrare : day + EPOCH_JULIAN_DAY ≠ -106749550580 := by
    rw [EPOCH_JULIAN_DAY]
    omega
  rw [resolveDay, julianDayToMillis_eq (by omega) h1]
  by_cases hsame : isGregorian = decide (jlong (day * 86400000) ≥ gregorianCutover)
  · rw [if_pos hsame, if_neg fun h => h.1 hsame]
  · rw [if_neg hsame, if_pos ⟨hsame, hrare⟩]

/-- **Spec lemma** of `resolveDay`. -/
theorem resolveDay_eq {fields : Fields} {month : ℕ} (hyear : 1 ≤ fields.YEAR)
    (hyear' : fields.YEAR < 2 ^ 31) (hmonth : fields.MONTH = month) (h12 : month < 12)
    (hdate : -2 ^ 31 ≤ fields.DATE) (hdate' : fields.DATE < 2 ^ 31) :
    resolveDay (decide (fields.YEAR ≥ 1582))
      (calculateJulianDay (decide (fields.YEAR ≥ 1582)) fields.YEAR fields) fields =
      guessedDay fields.YEAR month fields.DATE + EPOCH_JULIAN_DAY := by
  obtain ⟨hlow, hhigh⟩ := @number_bounds_of_year (decide (fields.YEAR ≥ 1582)) _ _ _ h12 hyear
    hyear' hdate hdate'
  rw [calculateJulianDay_eq _ hyear hyear' hmonth h12 hdate hdate',
    resolveDay_if _ _ (by omega) (by omega),
    calculateJulianDay_eq _ hyear hyear' hmonth h12 hdate hdate', guessedDay]
  rw [apply_ite (· + EPOCH_JULIAN_DAY)]

end CldcVm.CalendarImpl

import CldcVm.Util.CalendarFields

/-!
# Fields and times

`computeFields` and `computeTime` of `com/sun/cldc/util/j2me/CalendarImpl.java`, with a time zone
whose offset is constant. A method gives `none` when it throws `IllegalArgumentException`.
-/

namespace CldcVm.CalendarImpl

/-- `Calendar.AM` and `Calendar.PM`. -/
def AM : ℤ := 0

/-- `Calendar.PM`. -/
def PM : ℤ := 1

/-- `staticMonthLength` of `TimeZoneImpl`. -/
def staticMonthLength : List ℤ := [31, 29, 31, 30, 31, 30, 31, 31, 30, 31, 30, 31]

/-- The days of a month that are legal in some year. -/
def Legal (month day : ℤ) : Prop :=
  0 ≤ month ∧ month ≤ 11 ∧ 1 ≤ day ∧ day ≤ staticMonthLength.getD month.toNat 0

instance (month day : ℤ) : Decidable (Legal month day) :=
  inferInstanceAs (Decidable (0 ≤ month ∧ month ≤ 11 ∧ 1 ≤ day ∧ _))

/-- A time zone with a constant offset: `getOffset` throws an exception for arguments out of range,
or only for some of them. -/
structure TimeZone where
  rawOffset : ℤ
  accepts : ℤ → ℤ → Bool
  legal : ∀ month day, Legal month day → accepts month day = true

/-- `getOffset`, of the era AD. -/
def TimeZone.getOffset (zone : TimeZone) (month day dayOfWeek millis : ℤ) : Option ℤ :=
  if zone.accepts month day ∧ SUNDAY ≤ dayOfWeek ∧ dayOfWeek ≤ 7 ∧ 0 ≤ millis ∧ millis < ONE_DAY then
    some zone.rawOffset
  else none

/-- `TimeZoneImpl` without daylight saving: a day that is not legal is refused. -/
def TimeZoneImpl (rawOffset : ℤ) : TimeZone :=
  ⟨rawOffset, fun month day => decide (Legal month day), fun _ _ h => decide_eq_true h⟩

/-- `isSet`, of the fields that `computeTime` asks for. -/
structure IsSet where
  DAY_OF_WEEK : Bool
  AM_PM : Bool
  HOUR : Bool
  HOUR_OF_DAY : Bool

/-- `CalendarImpl`. -/
structure CalendarImpl where
  time : ℤ
  fields : Fields
  isSet : IsSet

/-! ## `computeFields` -/

/-- A sum with an offset, which stays in the range. -/
def pinned (time offset : ℤ) : ℤ :=
  let sum := jlong (time + offset)
  if time > 0 ∧ sum < 0 ∧ offset > 0 then 2 ^ 63 - 1
  else if time < 0 ∧ sum > 0 ∧ offset < 0 then -2 ^ 63
  else sum

/-- The fields of the time of a day. -/
def Fields.setMillisInDay (fields : Fields) (millisInDay : ℤ) : Fields :=
  let seconds := millisInDay.tdiv 1000
  let minutes := seconds.tdiv 60
  let hours := minutes.tdiv 60
  { fields with
    MILLISECOND := millisInDay.tmod 1000
    SECOND := seconds.tmod 60
    MINUTE := minutes.tmod 60
    HOUR_OF_DAY := hours
    AM_PM := hours.tdiv 12
    HOUR := hours.tmod 12 }

/-- `computeFields`. -/
def computeFields (zone : TimeZone) (c : CalendarImpl) : Option CalendarImpl := do
  let localMillis := pinned c.time zone.rawOffset
  let fields := timeToFields localMillis c.fields
  let days := localMillis.tdiv ONE_DAY
  let millisInDay := jint (jlong (localMillis - jlong (days * ONE_DAY)))
  let millisInDay := if millisInDay < 0 then jint (millisInDay + ONE_DAY) else millisInDay
  let offset ← zone.getOffset fields.MONTH fields.DATE fields.DAY_OF_WEEK millisInDay
  let dstOffset := jint (offset - zone.rawOffset)
  let millisInDay := jint (millisInDay + dstOffset)
  if millisInDay ≥ ONE_DAY then
    let fields := timeToFields (pinned localMillis dstOffset) fields
    some { c with fields := fields.setMillisInDay (jint (millisInDay - ONE_DAY)) }
  else some { c with fields := fields.setMillisInDay millisInDay }

/-! ## `computeTime` -/

/-- `calculateJulianDay`. -/
def calculateJulianDay (isGregorian : Bool) (year : ℤ) (fields : Fields) : ℤ :=
  let month := fields.MONTH
  let (year, month) :=
    if month < 0 ∨ month > 11 then
      let (quotient, rem) := floorDivideRem month 12
      (jint (year + quotient), rem)
    else (year, month)
  let previous := jint (year - 1)
  let isLeap := decide (year.tmod 4 = 0)
  let julianDay := jlong (365 * previous + floorDivide previous 4 + (JAN_1_1_JULIAN_DAY - 3))
  let (isLeap, julianDay) :=
    if isGregorian then
      (isLeap && decide (year.tmod 100 ≠ 0 ∨ year.tmod 400 = 0),
        jlong (julianDay + (floorDivide previous 400 - floorDivide previous 100 + 2)))
    else (isLeap, julianDay)
  jlong (jlong (julianDay + numDays isLeap month) + fields.DATE)

/-- `julianDayToMillis`. -/
def julianDayToMillis (julian : ℤ) : ℤ := jlong (jlong (julian - EPOCH_JULIAN_DAY) * ONE_DAY)

/-- `julianDayToDayOfWeek`. -/
def julianDayToDayOfWeek (julian : ℤ) : ℤ :=
  let dayOfWeek := jint ((jlong (julian + 1)).tmod 7)
  dayOfWeek + if dayOfWeek < 0 then 7 + SUNDAY else SUNDAY

/-- The part of `correctTime` that uses `HOUR_OF_DAY`. -/
def Fields.useHourOfDay (fields : Fields) : Fields :=
  let value := fields.HOUR_OF_DAY.tmod 24
  { fields with
    HOUR_OF_DAY := value
    AM_PM := if value < 12 then AM else PM }

/-- The part of `correctTime` that uses `HOUR`. -/
def Fields.useHour (fields : Fields) : Fields :=
  if fields.HOUR > 12 then { fields with
    HOUR_OF_DAY := fields.HOUR.tmod 12 + 12
    HOUR := fields.HOUR.tmod 12
    AM_PM := PM }
  else if fields.AM_PM = PM then { fields with HOUR_OF_DAY := fields.HOUR.tmod 12 + 12 }
  else { fields with HOUR_OF_DAY := fields.HOUR }

/-- `correctTime`. -/
def correctTime (c : CalendarImpl) : CalendarImpl :=
  if c.isSet.HOUR_OF_DAY then
    { c with
      fields := c.fields.useHourOfDay
      isSet := { c.isSet with HOUR_OF_DAY := false } }
  else if c.isSet.HOUR ∨ c.isSet.AM_PM then
    { c with
      fields := c.fields.useHour
      isSet := { c.isSet with
        AM_PM := false
        HOUR := false } }
  else c

/-- The part of `computeTime` that uses the day of the week. -/
def useDayOfWeek (julianDay : ℤ) (c : CalendarImpl) : ℤ × CalendarImpl :=
  let dayOfWeek := c.fields.DAY_OF_WEEK
  if c.isSet.DAY_OF_WEEK ∧ dayOfWeek ≥ SUNDAY ∧ dayOfWeek ≤ 7 then
    let julianDay := jlong (julianDay + (dayOfWeek - julianDayToDayOfWeek julianDay))
    (julianDay, { c with
      fields := { c.fields with
        DATE := jint (c.fields.DATE + (dayOfWeek - julianDayToDayOfWeek julianDay)) } })
  else (julianDay, c)

/-- The day of `computeTime`, of the calendar that the year suggests or of the other one. -/
def resolveDay (isGregorian : Bool) (julianDay : ℤ) (fields : Fields) : ℤ :=
  if isGregorian ≠ decide (julianDayToMillis julianDay ≥ gregorianCutover) ∧
      julianDay ≠ -106749550580 then
    calculateJulianDay (!isGregorian) fields.YEAR fields
  else julianDay

/-- The accumulator of `computeTime`. -/
def millisInDay (fields : Fields) : ℤ :=
  let millisInDay := jint (fields.HOUR_OF_DAY * 60)
  let millisInDay := jint (jint (millisInDay + fields.MINUTE) * 60)
  let millisInDay := jint (jint (millisInDay + fields.SECOND) * 1000)
  jint (millisInDay + fields.MILLISECOND)

/-- `computeTime`. -/
def computeTime (zone : TimeZone) (c : CalendarImpl) : Option CalendarImpl := do
  let c := correctTime c
  let isGregorian := decide (c.fields.YEAR ≥ gregorianCutoverYear)
  let (julianDay, c) := useDayOfWeek (calculateJulianDay isGregorian c.fields.YEAR c.fields) c
  let julianDay := resolveDay isGregorian julianDay c.fields
  let millis := jlong (julianDayToMillis julianDay + millisInDay c.fields)
  let normalizedMillisInDay := (floorDivideRem millis ONE_DAY).2
  let offset ← zone.getOffset c.fields.MONTH c.fields.DATE (julianDayToDayOfWeek julianDay)
    normalizedMillisInDay
  let dstOffset := jint (offset - zone.rawOffset)
  some { c with time := jlong (jlong (millis - zone.rawOffset) - dstOffset) }

end CldcVm.CalendarImpl

import CldcVm.Bytecodes.Data

/-!
# The fields of a calendar

`com/sun/cldc/util/j2me/CalendarImpl.java`: the fields of a time. An `int` or `long` operation whose
result may not fit is that of the exact result modulo 2^32 or 2^64; `/` and `%` of Java are
`Int.tdiv` and `Int.tmod`.
-/

namespace CldcVm.CalendarImpl

/-- `fields`, of which `ERA` and the weeks are not used. -/
structure Fields where
  YEAR : ℤ
  MONTH : ℤ
  DATE : ℤ
  DAY_OF_WEEK : ℤ
  AM_PM : ℤ
  HOUR : ℤ
  HOUR_OF_DAY : ℤ
  MINUTE : ℤ
  SECOND : ℤ
  MILLISECOND : ℤ
deriving DecidableEq

/-- `JAN_1_1_JULIAN_DAY`. -/
def JAN_1_1_JULIAN_DAY : ℤ := 1721426

/-- `EPOCH_JULIAN_DAY`. -/
def EPOCH_JULIAN_DAY : ℤ := 2440588

/-- `NUM_DAYS`. -/
def NUM_DAYS : List ℤ := [0, 31, 59, 90, 120, 151, 181, 212, 243, 273, 304, 334]

/-- `LEAP_NUM_DAYS`. -/
def LEAP_NUM_DAYS : List ℤ := [0, 31, 60, 91, 121, 152, 182, 213, 244, 274, 305, 335]

/-- `isLeap ? LEAP_NUM_DAYS[month] : NUM_DAYS[month]`, for a month from 0 to 11. -/
def numDays (isLeap : Bool) (month : ℤ) : ℤ :=
  if isLeap then LEAP_NUM_DAYS.getD month.toNat 0 else NUM_DAYS.getD month.toNat 0

/-- `ONE_DAY`. -/
def ONE_DAY : ℤ := 86400000

/-- `gregorianCutover`. -/
def gregorianCutover : ℤ := -12219292800000

/-- `gregorianCutoverYear`. -/
def gregorianCutoverYear : ℤ := 1582

/-- `Calendar.SUNDAY`. -/
def SUNDAY : ℤ := 1

/-- `floorDivide` of two integers. -/
def floorDivide (numerator denominator : ℤ) : ℤ :=
  if numerator ≥ 0 then numerator.tdiv denominator
  else (numerator + 1).tdiv denominator - 1

/-- `floorDivide` of an `int` or a `long` by an `int`: the quotient and `remainder[0]`. -/
def floorDivideRem (numerator denominator : ℤ) : ℤ × ℤ :=
  if numerator ≥ 0 then
    (jint (numerator.tdiv denominator), jint (numerator.tmod denominator))
  else
    let quotient := jint ((numerator + 1).tdiv denominator - 1)
    (quotient, jint (jlong (numerator - jint (quotient * denominator))))

/-- `millisToJulianDay`. -/
def millisToJulianDay (millis : ℤ) : ℤ := jlong (EPOCH_JULIAN_DAY + floorDivide millis ONE_DAY)

/-- What the two branches of `timeToFields` find. -/
structure YearDay where
  rawYear : ℤ
  dayOfYear : ℤ
  isLeap : Bool
  dayOfWeek : ℤ

/-- The branch of `timeToFields` from the cutover on. -/
def gregorianYearDay (theTime : ℤ) : YearDay :=
  let gregorianEpochDay := jlong (millisToJulianDay theTime - JAN_1_1_JULIAN_DAY)
  let (n400, rem) := floorDivideRem gregorianEpochDay 146097
  let (n100, rem) := floorDivideRem rem 36524
  let (n4, rem) := floorDivideRem rem 1461
  let (n1, rem) := floorDivideRem rem 365
  let rawYear := jint (400 * n400 + 100 * n100 + 4 * n4 + n1)
  -- Dec 31 at the end of a cycle of 4 or 400 years
  let (rawYear, dayOfYear) :=
    if n100 = 4 ∨ n1 = 4 then (rawYear, 365) else (jint (rawYear + 1), rem)
  { rawYear
    dayOfYear
    isLeap := decide (rawYear % 4 = 0 ∧ (rawYear.tmod 100 ≠ 0 ∨ rawYear.tmod 400 = 0))
    dayOfWeek := jint ((gregorianEpochDay + 1).tmod 7) }

/-- The branch of `timeToFields` before the cutover. -/
def julianYearDay (theTime : ℤ) : YearDay :=
  let julianEpochDay := jlong (millisToJulianDay theTime - (JAN_1_1_JULIAN_DAY - 2))
  let rawYear := jint (floorDivide (jlong (4 * julianEpochDay + 1464)) 1461)
  let january1 := jint (jint (365 * jint (rawYear - 1)) + floorDivide (jint (rawYear - 1)) 4)
  { rawYear
    dayOfYear := jint (jlong (julianEpochDay - january1))
    isLeap := decide (rawYear % 4 = 0)
    dayOfWeek := jint ((julianEpochDay - 1).tmod 7) }

/-- The end of `timeToFields`. -/
def setFields (yd : YearDay) (fields : Fields) : Fields :=
  let march1 := if yd.isLeap then 60 else 59
  let correction := if yd.dayOfYear ≥ march1 then if yd.isLeap then 1 else 2 else 0
  let month_field := (12 * (yd.dayOfYear + correction) + 6).tdiv 367
  let date_field := yd.dayOfYear - numDays yd.isLeap month_field + 1
  { fields with
    DAY_OF_WEEK := yd.dayOfWeek + if yd.dayOfWeek < 0 then SUNDAY + 7 else SUNDAY
    YEAR := if yd.rawYear < 1 then 1 - yd.rawYear else yd.rawYear
    MONTH := month_field
    DATE := date_field }

/-- `timeToFields`. -/
def timeToFields (theTime : ℤ) (fields : Fields) : Fields :=
  if theTime ≥ gregorianCutover then setFields (gregorianYearDay theTime) fields
  else setFields (julianYearDay theTime) fields

end CldcVm.CalendarImpl

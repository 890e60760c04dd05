import Mathlib.Tactic

/-!
# Calendars of twelve months

A calendar says which years are leap years and on which day a year begins. Days are numbers, from a
fixed day on in both directions; months are numbered from 0 and days of a month from 1.

Results:

* `Calendar.number_injective`: a day has one date.
* `Calendar.year_le`: an earlier day is not in a later year.
-/

namespace CldcVm.Calendars

/-- A calendar. -/
structure Calendar where
  isLeap : ℤ → Bool
  start : ℤ → ℤ
  start_succ : ∀ year, start (year + 1) = start year + if isLeap year then 366 else 365

/-- A date. -/
structure Date where
  year : ℤ
  month : ℕ
  day : ℤ
deriving DecidableEq

/-- The days of a month. -/
def monthLength (leap : Bool) (month : ℕ) : ℤ :=
  if month = 1 then if leap then 29 else 28
  else if month = 3 ∨ month = 5 ∨ month = 8 ∨ month = 10 then 30
  else 31

/-- The days of a year before a month. -/
def daysBefore (leap : Bool) : (month : ℕ) → ℤ
  | 0 => 0
  | month + 1 => daysBefore leap month + monthLength leap month

namespace Calendar

variable (c : Calendar) {d d' : Date} {y y' : ℤ}

/-- The dates that there are. -/
def Valid (d : Date) : Prop :=
  d.month < 12 ∧ 1 ≤ d.day ∧ d.day ≤ monthLength (c.isLeap d.year) d.month

/-- The number of a day. -/
def number (d : Date) : ℤ := c.start d.year + daysBefore (c.isLeap d.year) d.month + (d.day - 1)

/-- The date of a day. -/
def IsDateOf (n : ℤ) (d : Date) : Prop := c.Valid d ∧ c.number d = n

theorem monthLength_bounds (leap : Bool) (month : ℕ) :
    28 ≤ monthLength leap month ∧ monthLength leap month ≤ 31 := by
  rw [monthLength]
  split_ifs <;> omega

/-- The months fill the year. -/
theorem daysBefore_twelve (leap : Bool) : daysBefore leap 12 = if leap then 366 else 365 := by
  cases leap <;> rfl

theorem daysBefore_mono (leap : Bool) {m m' : ℕ} (h : m ≤ m') :
    daysBefore leap m ≤ daysBefore leap m' := by
  induction h with
  | refl => exact le_rfl
  | @step k h ih =>
    have hlength := (monthLength_bounds leap k).1
    rw [daysBefore]
    omega

theorem valid_first (year : ℤ) {month : ℕ} (h : month < 12) : c.Valid ⟨year, month, 1⟩ := by
  have hlength := (monthLength_bounds (c.isLeap year) month).1
  exact ⟨h, le_rfl, le_trans (show (1 : ℤ) ≤ 28 by decide) hlength⟩

theorem start_mono (h : y ≤ y') : c.start y ≤ c.start y' := by
  obtain ⟨k, rfl⟩ := Int.le.dest h
  induction k with
  | zero => simp
  | succ k ih =>
    have hsucc := c.start_succ (y + k)
    rw [Nat.cast_succ, ← add_assoc, hsucc]
    have hk := ih (by omega)
    split_ifs <;> omega

theorem number_bounds (h : c.Valid d) :
    c.start d.year ≤ c.number d ∧ c.number d < c.start (d.year + 1) := by
  obtain ⟨hmonth, hfirst, hlast⟩ := h
  have hzero := daysBefore_mono (c.isLeap d.year) (Nat.zero_le d.month)
  have htwelve := daysBefore_mono (c.isLeap d.year) (show d.month + 1 ≤ 12 by omega)
  rw [daysBefore_twelve, daysBefore] at htwelve
  rw [daysBefore] at hzero
  rw [c.start_succ, number]
  omega

theorem year_le (h : c.Valid d) (h' : c.Valid d') (hle : c.number d ≤ c.number d') :
    d.year ≤ d'.year := by
  by_contra hlt
  have hmono := c.start_mono (show d'.year + 1 ≤ d.year by omega)
  have hbounds := c.number_bounds h
  have hbounds' := c.number_bounds h'
  omega

theorem month_le {leap : Bool} {m m' : ℕ} {k k' : ℤ} (hk : 1 ≤ k) (hk' : k' ≤ monthLength leap m')
    (hle : daysBefore leap m + k ≤ daysBefore leap m' + k') : m ≤ m' := by
  by_contra hlt
  have hmono := daysBefore_mono leap (show m' + 1 ≤ m by omega)
  rw [daysBefore] at hmono
  omega

/-- A day has one date. -/
theorem number_injective (h : c.Valid d) (h' : c.Valid d') (heq : c.number d = c.number d') :
    d = d' := by
  have hyear : d.year = d'.year :=
    le_antisymm (c.year_le h h' heq.le) (c.year_le h' h heq.ge)
  obtain ⟨year, month, day⟩ := d
  obtain ⟨year', month', day'⟩ := d'
  obtain rfl : year = year' := hyear
  obtain ⟨hmonth, hfirst, hlast⟩ := h
  obtain ⟨hmonth', hfirst', hlast'⟩ := h'
  simp only [number] at heq hfirst hlast hfirst' hlast'
  have hsame : month = month' :=
    le_antisymm (month_le hfirst hlast' (by omega)) (month_le hfirst' hlast (by omega))
  subst hsame
  rw [show day = day' by omega]

end Calendar

end CldcVm.Calendars

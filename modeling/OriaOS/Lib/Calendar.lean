import Mathlib

/-!
# The Gregorian calendar

Consecutive spans of given lengths, and with them the dates of the proleptic Gregorian
calendar from 1970 on. A date is valid by construction.
-/

namespace OriaOS.Lib

/-! ## Consecutive spans -/

/-- What lies in front of a span. -/
def before (f : Nat → Nat) (k : Nat) : Nat := ∑ i ∈ Finset.range k, f i

@[simp] theorem before_zero (f : Nat → Nat) : before f 0 = 0 := rfl

theorem before_succ (f : Nat → Nat) (k : Nat) : before f (k + 1) = before f k + f k :=
  Finset.sum_range_succ f k

namespace Calendar

/-! ## Years and months -/

def IsLeap (year : Nat) : Prop := 4 ∣ year ∧ ¬ 100 ∣ year ∨ 400 ∣ year

instance (year : Nat) : Decidable (IsLeap year) := inferInstanceAs (Decidable (_ ∨ _))

def daysInYear (year : Nat) : Nat := if IsLeap year then 366 else 365

def daysInMonth (year : Nat) : Nat → Nat
  | 2 => if IsLeap year then 29 else 28
  | 4 | 6 | 9 | 11 => 30
  | _ => 31

/-- The days of the whole years since 1970. -/
def yearsBefore (year : Nat) : Nat := before (fun i => daysInYear (1970 + i)) (year - 1970)

/-- The days of the whole months of a year. -/
def monthsBefore (year month : Nat) : Nat := before (fun i => daysInMonth year (i + 1)) (month - 1)

theorem yearsBefore_succ {year : Nat} (h : 1970 ≤ year) :
    yearsBefore (year + 1) = yearsBefore year + daysInYear year := by
  have hsub : year + 1 - 1970 = year - 1970 + 1 := Nat.succ_sub h
  rw [yearsBefore, hsub, before_succ, Nat.add_sub_cancel' h, yearsBefore]

theorem monthsBefore_succ (year month : Nat) :
    monthsBefore year (month + 1 + 1) =
      monthsBefore year (month + 1) + daysInMonth year (month + 1) :=
  before_succ _ month

/-- The months make up the year. -/
theorem monthsBefore_end (year : Nat) : monthsBefore year 13 = daysInYear year := by
  by_cases hleap : IsLeap year
  · simp [monthsBefore, before, Finset.sum_range_succ, daysInMonth, daysInYear, hleap]
  · simp [monthsBefore, before, Finset.sum_range_succ, daysInMonth, daysInYear, hleap]

/-! ## Dates -/

/-- A day of the calendar. -/
structure Date where
  year : Nat
  month : Nat
  day : Nat
  year_ge : 1970 ≤ year
  month_pos : 1 ≤ month
  month_le : month ≤ 12
  day_pos : 1 ≤ day
  day_le : day ≤ daysInMonth year month

namespace Date
/-- The days of the year in front of the date. -/
def dayOfYear (a : Date) : Nat := monthsBefore a.year a.month + (a.day - 1)

/-- The days since 1 January 1970. -/
def dayNumber (a : Date) : Nat := yearsBefore a.year + a.dayOfYear

end Date

/-! ## Times -/

/-- A second of a day. -/
structure Moment where
  date : Date
  hour : Nat
  minute : Nat
  second : Nat
  hour_lt : hour < 24
  minute_lt : minute < 60
  second_lt : second < 60

namespace Moment
/-- The seconds of the day in front of the moment. -/
def secondOfDay (a : Moment) : Nat := a.hour * 3600 + a.minute * 60 + a.second

end Moment

end Calendar

end OriaOS.Lib

import Mathlib.Order.Basic

/-! The dates of the Gregorian calendar. -/

namespace Cvos.Lib

/-- The year has a 29th of February. -/
def IsLeap (year : Nat) : Prop := 4 ∣ year ∧ (100 ∣ year → 400 ∣ year)

instance (year : Nat) : Decidable (IsLeap year) :=
  inferInstanceAs (Decidable (4 ∣ year ∧ (100 ∣ year → 400 ∣ year)))

/-- The number of days of a month, of which January is the first one. -/
def daysInMonth (year month : Nat) : Nat :=
  if month = 2 then
    if IsLeap year then 29 else 28
  else if month ∈ [4, 6, 9, 11] then
    30
  else
    31

/-- A date and a time of day. -/
structure CalendarTime where
  year : Nat
  month : Nat
  day : Nat
  hour : Nat
  minute : Nat
  second : Nat
  monthInYear : 1 ≤ month ∧ month ≤ 12
  dayInMonth : 1 ≤ day ∧ day ≤ daysInMonth year month
  hourInDay : hour < 24
  minuteInHour : minute < 60
  secondInMinute : second < 60

/-- No month is longer than 31 days. -/
theorem daysInMonth_le (year month : Nat) : daysInMonth year month ≤ 31 := by
  rw [daysInMonth]
  split
  next => split <;> decide
  next => split <;> decide

end Cvos.Lib

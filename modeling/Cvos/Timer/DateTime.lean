import Cvos.Lib.CBuffer

/-! The date strings of `timer.c`, whose fourteen characters hold a year, a month, a day and a
time of day.
-/

namespace Cvos.Timer

open Cvos.Lib

/-- The fields of a `struct tm` that the code sets. -/
structure Tm where
  tmYear : Int
  tmMon : Int
  tmMday : Int
  tmHour : Int
  tmMin : Int
  tmSec : Int
  deriving DecidableEq, Repr

/-- `s_iMonthFix`: the days that a month has beyond 29. -/
def monthFix : List Int := [2, 0, 2, 1, 2, 1, 2, 2, 1, 2, 1, 2]

/-- The value `s_iMonthFix[i]`. -/
def monthFixAt (i : Int) : Checked Int :=
  if i < 0 then
    .error .outOfBounds
  else
    match monthFix[i.toNat]? with
    | some days => .ok days
    | none => .error .outOfBounds

/-- The value of a character as a digit, where a `char` is signed. -/
def digit (c : UInt8) : Int := c.toInt8.toInt - 48

/-- The value of two characters as digits. -/
def twoDigits (timeStr : Bytes) (p : Nat) : Checked Int := do
  let tens ← load timeStr p
  let ones ← load timeStr (p + 1)
  .ok (digit tens * 10 + digit ones)

/-- The first part of `_digit2time`: the fields as they stand in the string. -/
def readFields (timeStr : Bytes) : Checked Tm := do
  let century ← twoDigits timeStr 0
  let year ← twoDigits timeStr 2
  let mon ← twoDigits timeStr 4
  let mday ← twoDigits timeStr 6
  let hour ← twoDigits timeStr 8
  let min ← twoDigits timeStr 10
  let sec ← twoDigits timeStr 12
  .ok ⟨century * 100 + year, mon, mday, hour, min, sec⟩

/-- The test of `_digit2time`, which looks the month up once the year and the month are below
their bounds.
-/
def validFields (t : Tm) : Checked Bool :=
  if t.tmYear ≥ 1900 ∧ t.tmYear < 2036 ∧ t.tmMon < 13 then do
    let days ← monthFixAt (t.tmMon - 1)
    .ok (t.tmMday ≤ 29 + days && t.tmHour < 24 && t.tmMin < 60 && t.tmSec < 60)
  else
    .ok false

/-- `_digit2time`: its result and the fields. -/
def digit2time (timeStr : Bytes) (iLen : Int) : Checked (Int × Tm) :=
  if iLen ≠ 14 then
    .ok (-1, ⟨0, 0, 0, 0, 0, 0⟩)
  else do
    let t ← readFields timeStr
    let valid ← validFields t
    if valid then
      .ok (0, { t with tmYear := t.tmYear - 1900, tmMon := t.tmMon - 1 })
    else
      .ok (-2, t)

end Cvos.Timer

import Cvos.Lib.Calendar
import Cvos.Lib.Decimal
import Cvos.Timer.DateTime

/-! The date strings of `vos.c`: `osRecGetTime` prints the time, and `osdigit2time` reads it back,
as `_digit2time` in `timer.c` does, but leaves the year and the month as they stand in the string.
-/

namespace Cvos.Vos

open Cvos.Lib Cvos.Timer

/-- The text that `osRecGetTime` prints of what `localtime` gives. -/
def osRecGetTime (timenow : Tm) : Bytes :=
  zeroPaddedInt 4 (timenow.tmYear + 1900)
    ++ zeroPaddedInt 2 (timenow.tmMon + 1)
    ++ zeroPaddedInt 2 timenow.tmMday
    ++ zeroPaddedInt 2 timenow.tmHour
    ++ zeroPaddedInt 2 timenow.tmMin
    ++ zeroPaddedInt 2 timenow.tmSec

/-- `osdigit2time`: its result and the fields. Its own table of the months is that of `_digit2time`.
-/
def osdigit2time (timeStr : Bytes) (iLen : Int) : Checked (Int × Tm) :=
  if iLen ≠ 14 then
    .ok (-1, ⟨0, 0, 0, 0, 0, 0⟩)
  else do
    let t ← readFields timeStr
    let valid ← validFields t
    .ok (if valid then 0 else -2, t)

/-- The fields of a time as `localtime` gives them and `mktime` expects them. -/
def brokenDown (t : CalendarTime) : Tm where
  tmYear := t.year - 1900
  tmMon := t.month - 1
  tmMday := t.day
  tmHour := t.hour
  tmMin := t.minute
  tmSec := t.second

-----------------------------------------------------------------------------------------
-- What stands in a date string
-----------------------------------------------------------------------------------------

/-- The number that the character at a place is read as. -/
def digitAt (timeStr : Bytes) (p : Nat) : Int := digit (timeStr.getD p 0)

/-- The number that the characters from a place on are read as. -/
def pairAt (timeStr : Bytes) (p : Nat) : Int := digitAt timeStr p * 10 + digitAt timeStr (p + 1)

/-- The numbers that the characters of a date string are read as. -/
def fieldsOf (timeStr : Bytes) : Tm where
  tmYear := pairAt timeStr 0 * 100 + pairAt timeStr 2
  tmMon := pairAt timeStr 4
  tmMday := pairAt timeStr 6
  tmHour := pairAt timeStr 8
  tmMin := pairAt timeStr 10
  tmSec := pairAt timeStr 12

/-- The year and the month are below their bounds, so the number of days is looked up. -/
def LooksUp (t : Tm) : Prop := 1900 ≤ t.tmYear ∧ t.tmYear < 2036 ∧ t.tmMon < 13

/-- The day, which the month has in a leap year, and the time of day are below their bounds. -/
def Below (t : Tm) : Prop :=
  t.tmMday ≤ 29 + monthFix.getD (t.tmMon - 1).toNat 0
  ∧ t.tmHour < 24
  ∧ t.tmMin < 60
  ∧ t.tmSec < 60

instance (t : Tm) : Decidable (LooksUp t) :=
  inferInstanceAs (Decidable (1900 ≤ t.tmYear ∧ t.tmYear < 2036 ∧ t.tmMon < 13))

instance (t : Tm) : Decidable (Below t) :=
  inferInstanceAs (Decidable (t.tmMday ≤ 29 + monthFix.getD (t.tmMon - 1).toNat 0
    ∧ t.tmHour < 24
    ∧ t.tmMin < 60
    ∧ t.tmSec < 60))

/-- The fields of a string of 14 characters are read inside it. -/
theorem readFields_eq {timeStr : Bytes} (length : timeStr.length = 14)
    : readFields timeStr = .ok (fieldsOf timeStr) := by
  have pair (p : Nat) (inside : p + 1 < 14) : twoDigits timeStr p = .ok (pairAt timeStr p) := by
    have here : p < timeStr.length := by omega
    have behind : p + 1 < timeStr.length := by omega
    simp [twoDigits, load, pairAt, digitAt, here, behind]
  simp only [readFields, pair 0 (by decide), pair 2 (by decide), pair 4 (by decide),
    pair 6 (by decide), pair 8 (by decide), pair 10 (by decide), pair 12 (by decide),
    Checked.ok_bind, fieldsOf]

/-- Unless the number of days is looked up, the fields are refused. -/
theorem validFields_refused {t : Tm} (outside : ¬LooksUp t) : validFields t = .ok false :=
  if_neg outside

/-- The number of days of a month from the first one on is looked up inside the table. -/
theorem validFields_month {t : Tm} (looksUp : LooksUp t) (month : 1 ≤ t.tmMon)
    : validFields t = .ok (decide (Below t)) := by
  obtain ⟨low, high, months⟩ := looksUp
  have inside : (t.tmMon - 1).toNat < monthFix.length := by
    simp only [monthFix, List.length_cons, List.length_nil]
    omega
  have days : monthFixAt (t.tmMon - 1) = .ok (monthFix.getD (t.tmMon - 1).toNat 0) := by
    rw [monthFixAt, if_neg (by omega), List.getD_eq_getElem?_getD,
      List.getElem?_eq_getElem inside]
    rfl
  rw [validFields, if_pos ⟨low, high, months⟩, days, Checked.ok_bind]
  simp [Below, Bool.and_assoc]

/-- The number of days of a month before the first one is looked up in front of the table. -/
theorem validFields_outOfBounds {t : Tm} (looksUp : LooksUp t) (noMonth : t.tmMon < 1)
    : validFields t = .error .outOfBounds := by
  obtain ⟨low, high, months⟩ := looksUp
  rw [validFields, if_pos ⟨low, high, months⟩, monthFixAt, if_pos (by omega)]
  rfl

-----------------------------------------------------------------------------------------
-- The two converters
-----------------------------------------------------------------------------------------

/-- Both converters return, both succeed or both fail, and when they succeed they fill in the same
fields.
-/
def ConvertersAgree (timeStr : Bytes) : Prop :=
  ∃ ret tm ret' tm',
    digit2time timeStr 14 = .ok (ret, tm)
    ∧ osdigit2time timeStr 14 = .ok (ret', tm')
    ∧ (ret = 0 ↔ ret' = 0)
    ∧ (ret = 0 → tm = tm')

/-- A digit is read as its value. -/
theorem digit_digitByte : ∀ d < 10, digit (digitByte d) = d := by decide

/-- The two digits of a number are read as the number. -/
theorem pairAt_zeroPadded {timeStr : Bytes} {n p : Nat} (small : n < 100)
    (digits : (timeStr.drop p).take 2 = zeroPadded 2 n)
    : pairAt timeStr p = n := by
  have found (i : Nat) (inside : i < 2) : timeStr[p + i]? = (zeroPadded 2 n)[i]? := by
    rw [← digits, List.getElem?_take_of_lt inside, List.getElem?_drop]
  rw [zeroPadded_two small] at found
  have tens : timeStr[p]? = some (digitByte (n / 10)) := found 0 (by decide)
  have ones : timeStr[p + 1]? = some (digitByte (n % 10)) := found 1 (by decide)
  rw [pairAt, digitAt, digitAt, List.getD_eq_getElem?_getD, List.getD_eq_getElem?_getD, tens, ones,
    Option.getD_some, Option.getD_some, digit_digitByte _ (by omega), digit_digitByte _ (by omega)]
  omega

/-- On a string whose month is one from 1 to 12, the two converters agree exactly when both of them
refuse it.
-/
theorem convertersAgree_iff {timeStr : Bytes} (length : timeStr.length = 14) {month : Nat}
    (inYear : 1 ≤ month ∧ month ≤ 12)
    (digits : (timeStr.drop 4).take 2 = zeroPadded 2 month)
    : ConvertersAgree timeStr ↔ ¬(LooksUp (fieldsOf timeStr) ∧ Below (fieldsOf timeStr)) := by
  have mon : (fieldsOf timeStr).tmMon = month := pairAt_zeroPadded (by omega) digits
  have fields := readFields_eq length
  generalize fieldsOf timeStr = t at *
  by_cases accepted : LooksUp t ∧ Below t
  · have valid : validFields t = .ok true := by
      rw [validFields_month accepted.1 (by omega), decide_eq_true accepted.2]
    refine iff_of_false ?_ (not_not.mpr accepted)
    rintro ⟨ret, tm, ret', tm', first, second, -, same⟩
    simp only [digit2time, osdigit2time, fields, valid, Checked.ok_bind, ne_eq, not_true_eq_false,
      if_false, if_true, Except.ok.injEq, Prod.mk.injEq] at first second
    obtain ⟨rfl, rfl⟩ := first
    obtain ⟨rfl, rfl⟩ := second
    have year := congrArg Tm.tmYear (same rfl)
    simp only at year
    omega
  · have refused : validFields t = .ok false := by
      by_cases looksUp : LooksUp t
      · rw [validFields_month looksUp (by omega),
          decide_eq_false fun below => accepted ⟨looksUp, below⟩]
      · exact validFields_refused looksUp
    refine iff_of_true ⟨-2, t, -2, t, ?_, ?_, Iff.rfl, fun zero => absurd zero (by decide)⟩ accepted
    · simp [digit2time, fields, refused]
    · simp [osdigit2time, fields, refused]

/-- Witness: both converters refuse a day that no month has. -/
theorem convertersAgree_iff_day : ConvertersAgree ("20170132000000".toList.map Char.toUInt8) :=
  (@convertersAgree_iff _ (by decide) 1 (by decide) (by decide)).mpr (by decide)

/-- The converters fill in different years and months. -/
theorem not_convertersAgree_newYear
    : ¬ ∀ (timeStr : Bytes) (month : Nat),
        timeStr.length = 14
        → 1 ≤ month ∧ month ≤ 12
        → (timeStr.drop 4).take 2 = zeroPadded 2 month
        → ConvertersAgree timeStr := by
  intro always
  obtain ⟨ret, tm, ret', tm', first, second, -, same⟩ :=
    always ("20170101000000".toList.map Char.toUInt8) 1 (by decide) (by decide) (by decide)
  have converted
      : digit2time ("20170101000000".toList.map Char.toUInt8) 14 = .ok (0, ⟨117, 0, 1, 0, 0, 0⟩) :=
    rfl
  have left
      : osdigit2time ("20170101000000".toList.map Char.toUInt8) 14
        = .ok (0, ⟨2017, 1, 1, 0, 0, 0⟩) :=
    rfl
  obtain ⟨rfl, rfl⟩ := Prod.mk.inj (Except.ok.inj (converted.symm.trans first))
  obtain ⟨rfl, rfl⟩ := Prod.mk.inj (Except.ok.inj (left.symm.trans second))
  exact absurd (same rfl) (by decide)

end Cvos.Vos

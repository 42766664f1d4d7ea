import Cvos.Timer.DateTime
import Cvos.Utils.TextFields
import Mathlib.Data.Prod.Lex

/-! The window that `utl_IsInDuration` compares the local time with. The hour of the end is copied
over that of the begin, of which a longer one remains readable behind it.
-/

namespace Cvos.Utils

open Cvos.Lib Cvos.Timer

/-- A `SETTIME_S`. -/
structure SetTime where
  hh : Int
  mm : Int

/-- The line that `utl_IsInDuration` prints. -/
def durationLine (pBeginTime pEndTime : Bytes) (beginTime endTime : SetTime) (ret : Int)
    : Bytes :=
  literal ":utl_IsInDuration(["
    ++ cstring pBeginTime 0
    ++ literal ","
    ++ cstring pEndTime 0
    ++ literal "]),"
    ++ zeroPaddedInt 2 beginTime.hh
    ++ literal ":"
    ++ zeroPaddedInt 2 beginTime.mm
    ++ literal " to "
    ++ zeroPaddedInt 2 endTime.hh
    ++ literal ":"
    ++ zeroPaddedInt 2 endTime.mm
    ++ literal " ,ret="
    ++ decimalInt ret
    ++ literal "\n"

/-- The comparisons of `utl_IsInDuration`. -/
def isInDuration (pLocalTime : Tm) (beginTime endTime : SetTime) : Bool :=
  ((pLocalTime.tmHour = beginTime.hh && pLocalTime.tmMin ≥ beginTime.mm)
      || pLocalTime.tmHour > beginTime.hh)
    && ((pLocalTime.tmHour = endTime.hh && pLocalTime.tmMin < endTime.mm)
      || pLocalTime.tmHour < endTime.hh)

/-- `utl_IsInDuration` at a local time. -/
def utlIsInDuration (pLocalTime : Tm) (pBeginTime pEndTime : Option Bytes) : Checked Int :=
  match pBeginTime, pEndTime with
  | some pBeginTime, some pEndTime => do
      let str := List.replicate 32 0
      let p2 ← strchrIn pBeginTime 0 colonByte
      let str ← strncpyTo str pBeginTime 0 p2
      let beginHh ← atoiAt str 0
      let beginMm ← atoiAt pBeginTime (p2 + 1)
      let beginTime : SetTime := ⟨beginHh, beginMm⟩
      let p2 ← strchrIn pEndTime 0 colonByte
      let str ← strncpyTo str pEndTime 0 p2
      let endHh ← atoiAt str 0
      let endMm ← atoiAt pEndTime (p2 + 1)
      let endTime : SetTime := ⟨endHh, endMm⟩
      let ret : Int := if isInDuration pLocalTime beginTime endTime then 1 else 0
      utilPrint (durationLine pBeginTime pEndTime beginTime endTime ret)
      .ok ret
  | _, _ => .ok (-1)

/-- The digits of a number that an `int` holds. -/
structure IntDigits (s : Bytes) : Prop where
  filled : s ≠ []
  digits : ∀ c ∈ s, isDigit c
  bound : digitsValue s < 2 ^ 31

/-- What a text names as a time of the day. -/
structure DayTime where
  h : Bytes
  m : Bytes
  hour : IntDigits h
  minute : IntDigits m
  fits : h.length ≤ 31

/-- The text `h:m`, in memory. -/
def DayTime.text (t : DayTime) : Bytes := t.h ++ colonByte :: (t.m ++ [0])

/-- The numbers that a text names. -/
def DayTime.value (t : DayTime) : SetTime := ⟨digitsValue t.h, digitsValue t.m⟩

/-- An hour and a minute, in the order of the hours and then of the minutes. -/
def SetTime.moment (t : SetTime) : Int ×ₗ Int := toLex (t.hh, t.mm)

/-- The local time, as an hour and a minute. -/
def localMoment (pLocalTime : Tm) : Int ×ₗ Int := toLex (pLocalTime.tmHour, pLocalTime.tmMin)

/-- The local time is in the window from one time up to another one. -/
def InWindow (pLocalTime : Tm) (beginTime endTime : SetTime) : Prop :=
  beginTime.moment ≤ localMoment pLocalTime ∧ localMoment pLocalTime < endTime.moment

/-- The call tells whether the local time is in the window that both texts name. -/
def Decides (pLocalTime : Tm) (b e : DayTime) : Prop :=
  (utlIsInDuration pLocalTime (some b.text) (some e.text) = .ok 1
      ↔ InWindow pLocalTime b.value e.value)
    ∧ (utlIsInDuration pLocalTime (some b.text) (some e.text) = .ok 0
      ↔ ¬InWindow pLocalTime b.value e.value)

/-- The end of the window, if the digits that the hour of the begin has in excess are added to its
hour.
-/
def prolonged (b e : DayTime) : SetTime :=
  ⟨atoi (e.h ++ b.h.drop e.h.length), digitsValue e.m⟩

/-- The comparisons are those of the order. -/
theorem isInDuration_iff (pLocalTime : Tm) (beginTime endTime : SetTime)
    : isInDuration pLocalTime beginTime endTime ↔ InWindow pLocalTime beginTime endTime := by
  rw [InWindow, SetTime.moment, SetTime.moment, localMoment, Prod.Lex.toLex_le_toLex,
    Prod.Lex.toLex_lt_toLex]
  simp only [isInDuration, Bool.and_eq_true, Bool.or_eq_true, decide_eq_true_eq]
  omega

/-- The length of the line only depends on the result through its digits. -/
theorem length_durationLine (pBeginTime pEndTime : Bytes) (beginTime endTime : SetTime) (ret : Int)
    : (durationLine pBeginTime pEndTime beginTime endTime ret).length
      = (cstring pBeginTime 0).length + (cstring pEndTime 0).length
        + (zeroPaddedInt 2 beginTime.hh).length + (zeroPaddedInt 2 beginTime.mm).length
        + (zeroPaddedInt 2 endTime.hh).length + (zeroPaddedInt 2 endTime.mm).length
        + (decimalInt ret).length + 36 := by
  have title : (literal ":utl_IsInDuration([").length = 19 := rfl
  have comma : (literal ",").length = 1 := rfl
  have closing : (literal "]),").length = 3 := rfl
  have colon : (literal ":").length = 1 := rfl
  have upTo : (literal " to ").length = 4 := rfl
  have result : (literal " ,ret=").length = 6 := rfl
  have newline : (literal "\n").length = 1 := rfl
  simp only [durationLine, List.length_append, title, comma, closing, colon, upTo, result, newline]
  omega

namespace DayTime

variable (t : DayTime)

/-- The hour ends at the colon. -/
theorem strchrIn_text : strchrIn t.text 0 colonByte = .ok t.h.length := by
  have plain : ∀ c ∈ t.h, c ≠ 0 ∧ c ≠ colonByte := by
    intro c member
    obtain ⟨d, small, rfl⟩ := exists_digit (t.hour.digits c member)
    have apart : ∀ d < 10, digitByte d ≠ 0 ∧ digitByte d ≠ colonByte := by decide
    exact apart d small
  have found := strchrIn_append [] (t.m ++ [0]) plain
  rwa [List.length_nil, Nat.zero_add] at found

/-- The minute is read behind the colon. -/
theorem atoiAt_text : atoiAt t.text (t.h.length + 1) = .ok (digitsValue t.m : Int) := by
  have read := atoiAt_append (t.h ++ [colonByte]) [] (nulFree_digits t.minute.digits)
  rw [List.append_assoc, List.length_append, atoi_eq_digitsValue t.minute.digits t.minute.bound]
    at read
  exact read

end DayTime

/-- The begin is read as it stands, and the end with the digits that the begin has in excess. -/
theorem utlIsInDuration_text (pLocalTime : Tm) (b e : DayTime)
    : utlIsInDuration pLocalTime (some b.text) (some e.text)
      = (do
        let ret : Int := if isInDuration pLocalTime b.value (prolonged b e) then 1 else 0
        utilPrint (durationLine b.text e.text b.value (prolonged b e) ret)
        .ok ret) := by
  have beginFilled := nulFree_digits b.hour.digits
  have endFilled := nulFree_digits e.hour.digits
  have beginCopied : strncpyTo (List.replicate 32 0) b.text 0 b.h.length = .ok (scratch b.h) :=
    strncpyTo_cleared beginFilled b.fits [] (colonByte :: (b.m ++ [0]))
  have endCopied
      : strncpyTo (scratch b.h) e.text 0 e.h.length = .ok (scratch (overlaid e.h b.h)) :=
    strncpyTo_scratch endFilled e.fits b.fits [] (colonByte :: (e.m ++ [0]))
  have beginRead : atoiAt (scratch b.h) 0 = .ok (digitsValue b.h : Int) := by
    rw [atoiAt_scratch beginFilled b.fits, atoi_eq_digitsValue b.hour.digits b.hour.bound]
  have bothFilled : ∀ c ∈ overlaid e.h b.h, c ≠ 0 := fun c member =>
    (of_mem_overlaid member).elim (endFilled c) (beginFilled c)
  have bothFit : (overlaid e.h b.h).length ≤ 31 := by
    rw [length_overlaid]
    exact Nat.max_le.mpr ⟨e.fits, b.fits⟩
  have endRead := atoiAt_scratch bothFilled bothFit
  simp only [utlIsInDuration, b.strchrIn_text, beginCopied, beginRead, b.atoiAt_text,
    e.strchrIn_text, endCopied, endRead, e.atoiAt_text, Checked.ok_bind]
  rfl

/-- The call returns exactly if the line that it prints fits, and compares with the prolonged end.
-/
theorem utlIsInDuration_text_iff (pLocalTime : Tm) (b e : DayTime) (ret : Int)
    : utlIsInDuration pLocalTime (some b.text) (some e.text) = .ok ret
      ↔ (durationLine b.text e.text b.value (prolonged b e) 0).length < 1000
        ∧ ret = if isInDuration pLocalTime b.value (prolonged b e) then 1 else 0 := by
  have width
      : (decimalInt (if isInDuration pLocalTime b.value (prolonged b e) then 1 else 0)).length
        = (decimalInt 0).length := by
    split <;> rfl
  rw [utlIsInDuration_text]
  dsimp only
  rw [utilPrint, length_durationLine, length_durationLine, width]
  split
  next fits =>
    rw [Checked.ok_bind, Except.ok.injEq, eq_comm]
    exact (and_iff_right (Nat.lt_of_succ_le fits)).symm
  next long =>
    rw [Checked.error_bind]
    exact iff_of_false nofun fun fits => long (Nat.succ_le_of_lt fits.1)

/-- The window is decided exactly when the line that is printed fits its buffer, and the window up
to the prolonged end is the one up to the end.
-/
theorem decides_iff_sameWindow (pLocalTime : Tm) (b e : DayTime)
    : Decides pLocalTime b e
      ↔ (durationLine b.text e.text b.value (prolonged b e) 0).length < 1000
        ∧ (InWindow pLocalTime b.value (prolonged b e) ↔ InWindow pLocalTime b.value e.value) := by
  rw [Decides, utlIsInDuration_text_iff, utlIsInDuration_text_iff,
    ← isInDuration_iff pLocalTime b.value (prolonged b e)]
  by_cases fits : (durationLine b.text e.text b.value (prolonged b e) 0).length < 1000
  · simp only [fits, true_and]
    cases isInDuration pLocalTime b.value (prolonged b e) with
    | false => simp
    | true => simp
  · simp only [fits, false_and, iff_false, not_and]
    exact fun inside outside => outside.mpr inside.mpr

/-- The window is decided exactly when the line that is printed fits its buffer, and the local time
is in front of the begin, or it is in front of the prolonged end exactly if it is in front of the
end.
-/
theorem decides_iff (pLocalTime : Tm) (b e : DayTime)
    : Decides pLocalTime b e
      ↔ (durationLine b.text e.text b.value (prolonged b e) 0).length < 1000
        ∧ (localMoment pLocalTime < b.value.moment
          ∨ (localMoment pLocalTime < (prolonged b e).moment
              ↔ localMoment pLocalTime < e.value.moment)) := by
  have window
      : (InWindow pLocalTime b.value (prolonged b e) ↔ InWindow pLocalTime b.value e.value)
        ↔ localMoment pLocalTime < b.value.moment
          ∨ (localMoment pLocalTime < (prolonged b e).moment
              ↔ localMoment pLocalTime < e.value.moment) := by
    rw [InWindow, InWindow, and_congr_right_iff, ← not_lt, imp_iff_not_or, not_not]
  rw [decides_iff_sameWindow, window]

/-- If the hour of the begin has no more digits than that of the end, the window is decided exactly
when the line fits.
-/
theorem decides_iff_of_shorter (pLocalTime : Tm) {b e : DayTime} (shorter : b.h.length ≤ e.h.length)
    : Decides pLocalTime b e
      ↔ (durationLine b.text e.text b.value (prolonged b e) 0).length < 1000 := by
  have own : overlaid e.h b.h = e.h := (overlaid_eq_self_iff e.h b.h).mpr shorter
  have covered : prolonged b e = e.value := by
    rw [overlaid] at own
    rw [prolonged, own, atoi_eq_digitsValue e.hour.digits e.hour.bound]
    rfl
  rw [decides_iff_sameWindow, covered, and_iff_left Iff.rfl]

/-- The time `08:00`. -/
def eight : DayTime where
  h := literal "08"
  m := literal "00"
  hour := ⟨by decide, by decide, by decide⟩
  minute := ⟨by decide, by decide, by decide⟩
  fits := by decide

/-- The time `9:00`. -/
def nine : DayTime where
  h := literal "9"
  m := literal "00"
  hour := ⟨by decide, by decide, by decide⟩
  minute := ⟨by decide, by decide, by decide⟩
  fits := by decide

/-- The hour of the end is read as 98, and ten is in front of it. -/
theorem not_decides_afterNine
    : eight.text = literal "08:00" ++ [0]
      ∧ nine.text = literal "9:00" ++ [0]
      ∧ ¬Decides ⟨126, 0, 1, 10, 0, 0⟩ eight nine := by
  refine ⟨rfl, rfl, fun decides => ?_⟩
  have returned
      : utlIsInDuration ⟨126, 0, 1, 10, 0, 0⟩ (some eight.text) (some nine.text) = .ok 1 := by
    rfl
  have inside := decides.1.mp returned
  exact absurd inside.2 (by decide)

end Cvos.Utils

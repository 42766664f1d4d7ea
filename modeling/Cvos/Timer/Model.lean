import Cvos.Lib.Transition
import Cvos.Timer.DateTime
import Mathlib.Data.List.FinRange
import Mathlib.Logic.Function.Basic

/-! The timer table of `timer.c`, whose slots hold the ids of timers of the kernel, and the calls
that create, delete and reset timers, each of which holds the lock of the table throughout.
-/

namespace Cvos.Timer

open Cvos.Lib

/-- `MAX_TIMER_NUM` -/
def maxTimerNum : Nat := 100

/-- `TIMER_ONCE` -/
def timerOnce : Int := 0

/-- `TIMER_INTERVAL` -/
def timerInterval : Int := 1

/-- A `TIMER_S`; its flag says that the slot is used. -/
structure TimerS where
  flag : Bool
  timerId : Int
  timerMode : Int
  chkTimeStr : Bytes
  timeoutSec : Int
  timeoutFunc : Nat
  args : Int
  deriving DecidableEq, Repr

/-- A `TIMER_USER_S` -/
structure TimerUserS where
  timerMode : Int
  chkTimeStr : Bytes
  timeoutFunc : Nat
  args : Int
  deriving DecidableEq, Repr

/-- The seconds of a `struct itimerspec`: until the timer expires, and from then on. A timer with
no time left is not armed.
-/
structure Itimerspec where
  value : Int
  interval : Int
  deriving DecidableEq, Repr

/-- The live timers of the kernel, with their times. An id is the address that a `timer_t` holds, as
a signed number.
-/
abbrev Timers := Int → Option Itimerspec

/-- `timer_settime`. It refuses a dead id and a negative time. -/
def timerSettime (timers : Timers) (timerid : Int) (it : Itimerspec) : Option Timers :=
  if (timers timerid).isSome ∧ 0 ≤ it.value ∧ 0 ≤ it.interval then
    some (Function.update timers timerid (some it))
  else
    none

/-- `timer_delete` -/
def timerDelete (timers : Timers) (timerid : Int) : Option Timers :=
  if (timers timerid).isSome then some (Function.update timers timerid none) else none

/-- What the kernel answers to a call that creates a timer: the id from `timer_create`, if it
succeeds, and whether `timer_settime` has what it needs.
-/
structure Outcome where
  created : Option Int
  armed : Bool
  deriving DecidableEq, Repr

/-- The part that `TM_NewDeltaTimer` and `TM_NewAbsTimer` share: the timers, and either the id of
the new one or the number of the check that fails. The second check never does: it compares an
address with 0. A timer that cannot be armed is not deleted.
-/
def createTimer (timers : Timers) (o : Outcome) (it : Itimerspec) : Timers × Except Nat Int :=
  match o.created with
  | none => (timers, .error 0)
  | some timerid =>
      let timers := Function.update timers timerid (some ⟨0, 0⟩)
      match if o.armed then timerSettime timers timerid it else none with
      | none => (timers, .error 2)
      | some timers => (timers, .ok timerid)

/-- The table and the kernel. -/
structure State where
  table : Fin maxTimerNum → TimerS
  timers : Timers

/-- The table before the first call, and a kernel without timers. -/
def State.initial : State where
  table := fun _ => ⟨false, 0, 0, [], 0, 0, 0⟩
  timers := fun _ => none

/-- The first slot that is not used. -/
def freeSlot (table : Fin maxTimerNum → TimerS) : Option (Fin maxTimerNum) :=
  (List.finRange maxTimerNum).find? fun i => !(table i).flag

/-- The state after an entry was stored in a slot. -/
def State.store (s : State) (i : Fin maxTimerNum) (entry : TimerS) (timers : Timers) : State where
  table := Function.update s.table i entry
  timers := timers

/-- The times of a timer from `TM_NewDeltaTimer`. -/
def deltaSpec (mode timeoutSec : Int) : Itimerspec :=
  ⟨timeoutSec, if mode = timerInterval then timeoutSec else 0⟩

/-- `TM_NewDeltaTimer`. It does not write the mode into the slot, and of the id only an `int`. -/
def tmNewDeltaTimer (o : Outcome) (mode timeoutSec : Int) (timeoutFunc : Nat) (sival : Int)
    (s : State)
    : Int × State :=
  match freeSlot s.table with
  | none => (-1, s)
  | some id =>
      match createTimer s.timers o (deltaSpec mode timeoutSec) with
      | (timers, .error check) => (-2 - check, { s with timers := timers })
      | (timers, .ok timerid) =>
          let entry :=
            { s.table id with
              timerId := int32 timerid, timeoutSec := timeoutSec, timeoutFunc := timeoutFunc,
              args := sival, flag := true }
          (id, s.store id entry timers)

/-- The times of a timer from `TM_NewAbsTimer`. -/
def absSpec (timerMode diffSec : Int) : Itimerspec :=
  ⟨diffSec, if timerMode = timerInterval then 3600 else 0⟩

/-- The part of `TM_NewAbsTimer` that finds out how long it is until the time in the string: the
seconds, or the result of the call.
-/
def diffSeconds (mktime : Tm → Int) (preTime : Int) (chkTimeStr : Bytes)
    : Checked (Except Int Int) := do
  let (ret, expiredTime) ← digit2time chkTimeStr chkTimeStr.length
  if ret ≠ 0 then
    .ok (.error (-2))
  else
    let diffSec := int32 (mktime expiredTime - preTime)
    .ok (if diffSec ≤ 0 then .error (-3) else .ok diffSec)

/-- `TM_NewAbsTimer` at the time `preTime`. -/
def tmNewAbsTimer (mktime : Tm → Int) (o : Outcome) (preTime : Int) (para : TimerUserS) (s : State)
    : Checked (Int × State) :=
  match freeSlot s.table with
  | none => .ok (-1, s)
  | some idx => do
      match ← diffSeconds mktime preTime para.chkTimeStr with
      | .error ret => .ok (ret, s)
      | .ok diffSec =>
          match createTimer s.timers o (absSpec para.timerMode diffSec) with
          | (timers, .error check) => .ok (-4 - check, { s with timers := timers })
          | (timers, .ok timerid) =>
              let entry :=
                { timerMode := para.timerMode, chkTimeStr := para.chkTimeStr,
                  timeoutFunc := para.timeoutFunc, args := para.args, timeoutSec := diffSec,
                  timerId := int32 timerid, flag := true }
              .ok (idx, s.store idx entry timers)

/-- The index of a slot, if it is one. -/
def slotOf (idx : Int) : Option (Fin maxTimerNum) :=
  if inRange : 0 ≤ idx ∧ idx < maxTimerNum then
    some ⟨idx.toNat, by omega⟩
  else
    none

/-- `TM_Delete` in a slot. -/
def deleteSlot (i : Fin maxTimerNum) (s : State) : Int × State :=
  let entry := { s.table i with flag := false }
  match timerDelete s.timers entry.timerId with
  | none => (-1, s.store i entry s.timers)
  | some timers => (0, s.store i entry timers)

/-- `TM_Delete`. It does not look whether the slot is used. -/
def tmDelete (idx : Int) (s : State) : Int × State :=
  match slotOf idx with
  | none => (-1, s)
  | some i => deleteSlot i s

/-- `TM_Reset` in a slot. -/
def resetSlot (i : Fin maxTimerNum) (s : State) : Int × State :=
  let entry := s.table i
  if entry.timerMode = timerOnce then
    match timerSettime s.timers entry.timerId ⟨entry.timeoutSec, 0⟩ with
    | none => (-1, s)
    | some timers => (0, { s with timers := timers })
  else
    (0, s)

/-- `TM_Reset`. It does not look whether the slot is used. -/
def tmReset (idx : Int) (s : State) : Int × State :=
  match slotOf idx with
  | none => (-1, s)
  | some i => resetSlot i s

/-- A call on the table, or a timer of the kernel that expires. -/
inductive Call where
  | newDelta (o : Outcome) (mode timeoutSec : Int) (timeoutFunc : Nat) (sival : Int)
  | newAbs (o : Outcome) (preTime : Int) (para : TimerUserS)
  | delete (idx : Int)
  | reset (idx : Int)
  | expire (timerid : Int)
  deriving DecidableEq, Repr

/-- The times of a timer when it has expired. -/
def Itimerspec.expired (it : Itimerspec) : Itimerspec := ⟨it.interval, it.interval⟩

/-- An id that `timer_create` returns is not one of a live timer. -/
def Outcome.Fresh (o : Outcome) (timers : Timers) : Prop :=
  ∀ timerid, o.created = some timerid → timers timerid = none

variable (mktime : Tm → Int)

/-- What a call makes of the state. -/
inductive Step : State → Call → State → Prop
  | newDelta {s o mode timeoutSec timeoutFunc sival} (fresh : o.Fresh s.timers)
    : Step s (.newDelta o mode timeoutSec timeoutFunc sival)
        (tmNewDeltaTimer o mode timeoutSec timeoutFunc sival s).2
  | newAbs {s o preTime para ret s'} (fresh : o.Fresh s.timers)
    (returned : tmNewAbsTimer mktime o preTime para s = .ok (ret, s'))
    : Step s (.newAbs o preTime para) s'
  | delete {s idx} : Step s (.delete idx) (tmDelete idx s).2
  | reset {s idx} : Step s (.reset idx) (tmReset idx s).2
  | expire {s timerid it} (live : s.timers timerid = some it) (armed : 0 < it.value)
    : Step s (.expire timerid)
        { s with timers := Function.update s.timers timerid (some it.expired) }

end Cvos.Timer

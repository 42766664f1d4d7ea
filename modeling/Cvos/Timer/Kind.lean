import Cvos.Timer.Ownership

/-! Whether `TM_Reset` keeps the kind of a timer. It decides by the mode that the slot records,
which is not always the mode that the timer was created with.
-/

namespace Cvos.Timer

open Cvos.Lib

/-- How a timer was created: its id, the mode, and the interval it was given. -/
structure Birth where
  timerid : Int
  mode : Int
  interval : Int
  deriving DecidableEq, Repr

/-- The table and the kernel, and for each used slot how its timer was created. -/
structure Watched where
  state : State
  births : Fin maxTimerNum → Option Birth

/-- Before the first call no slot is used. -/
def Watched.initial : Watched := ⟨State.initial, fun _ => none⟩

/-- How a call creates a timer. -/
def Call.birth : Call → Option Birth
  | .newDelta o mode timeoutSec _ _ =>
      o.created.map fun timerid => ⟨timerid, mode, (deltaSpec mode timeoutSec).interval⟩
  | .newAbs o _ para =>
      o.created.map fun timerid => ⟨timerid, para.timerMode, (absSpec para.timerMode 0).interval⟩
  | .delete _ | .reset _ | .expire _ => none

/-- A slot that becomes used holds the timer that the call creates. -/
def Watched.next (w : Watched) (s : State) (birth : Option Birth) : Watched where
  state := s
  births i :=
    if (s.table i).flag = false then
      none
    else if (w.state.table i).flag = false then
      birth
    else
      w.births i

/-- A step of the calls, watched. -/
def WatchedStep (mktime : Tm → Int) (w : Watched) (call : Call) (w' : Watched) : Prop :=
  ∃ s, Step mktime w.state call s ∧ w' = w.next s call.birth

/-- A mode fits a recorded one when `TM_Reset` decides by both in the same way. -/
def Fits (mode recorded : Int) : Prop :=
  (mode = timerInterval → recorded ≠ timerOnce) ∧ (mode = timerOnce → recorded = timerOnce)

/-- The condition on a call: a timer gets a slot that records its id as it is, and one from
`TM_NewDeltaTimer` a slot that records its kind; and a free slot is not deleted or reset while the
id it records is that of a used slot.
-/
def Call.Kindly (mktime : Tm → Int) (w : Watched) : Call → Prop
  | .newDelta o mode timeoutSec _ _ =>
      ∀ slot timerid,
        freeSlot w.state.table = some slot
        → o.created = some timerid
        → o.Arms (deltaSpec mode timeoutSec)
        → int32 timerid = timerid ∧ Fits mode (w.state.table slot).timerMode
  | .newAbs o preTime para =>
      ∀ slot timerid diffSec,
        freeSlot w.state.table = some slot
        → o.created = some timerid
        → diffSeconds mktime preTime para.chkTimeStr = .ok (.ok diffSec)
        → o.Arms (absSpec para.timerMode diffSec)
        → int32 timerid = timerid
  | .delete idx =>
      ∀ i j,
        slotOf idx = some i
        → (w.state.table i).flag = false
        → (w.state.table j).flag = true
        → (w.state.table j).timerId ≠ (w.state.table i).timerId
  | .reset idx =>
      ∀ i j birth,
        slotOf idx = some i
        → (w.state.table i).flag = false
        → (w.state.table i).timerMode = timerOnce
        → w.births j = some birth
        → birth.mode = timerInterval
        → (w.state.table j).timerId ≠ (w.state.table i).timerId
  | .expire _ => True

-----------------------------------------------------------------------------------------
-- The invariant
-----------------------------------------------------------------------------------------

/-- What a slot records of a timer, and what the kernel holds of it. -/
structure Recorded (birth : Birth) (entry : TimerS) (it : Itimerspec) : Prop where
  fits : Fits birth.mode entry.timerMode
  interval
    : birth.mode = timerInterval
      → it.interval = birth.interval ∧ (0 < birth.interval → 0 < it.value)
  once : birth.mode = timerOnce → 0 ≤ entry.timeoutSec

/-- The used slots hold distinct live timers, of the kind that they record. -/
structure Kinds (w : Watched) : Prop where
  distinct
    : ∀ {i j},
        (w.state.table i).flag = true
        → (w.state.table j).flag = true
        → (w.state.table i).timerId = (w.state.table j).timerId
        → i = j
  unborn : ∀ {i}, (w.state.table i).flag = false → w.births i = none
  live
    : ∀ {i},
        (w.state.table i).flag = true
        → ∃ birth it,
            w.births i = some birth
            ∧ (w.state.table i).timerId = birth.timerid
            ∧ w.state.timers (w.state.table i).timerId = some it
            ∧ Recorded birth (w.state.table i) it

/-- The used slots hold distinct ids. -/
theorem Kinds.distinctIds {w : Watched} (kinds : Kinds w) : DistinctIds w.state.table :=
  fun _ _ => kinds.distinct

/-- A slot with a birth is used. -/
theorem Kinds.used {w : Watched} (kinds : Kinds w) {i : Fin maxTimerNum} {birth : Birth}
    (born : w.births i = some birth)
    : (w.state.table i).flag = true := by
  cases flag : (w.state.table i).flag with
  | true => rfl
  | false => simp [kinds.unborn flag] at born

/-- A call that leaves the table as it is keeps the invariant if the timers of the used slots are
still of their kinds.
-/
theorem Kinds.retimed {w : Watched} (kinds : Kinds w) (timers : Timers) (birth : Option Birth)
    (kept
      : ∀ {i birth it},
          w.births i = some birth
          → w.state.timers (w.state.table i).timerId = some it
          → Recorded birth (w.state.table i) it
          → ∃ it',
              timers (w.state.table i).timerId = some it'
              ∧ Recorded birth (w.state.table i) it')
    : Kinds (w.next { w.state with timers := timers } birth) := by
  constructor
  · exact kinds.distinct
  · intro i free
    exact if_pos free
  · intro i used
    change (w.state.table i).flag = true at used
    obtain ⟨birth, it, born, same, held, recorded⟩ := kinds.live used
    obtain ⟨it', held', recorded'⟩ := kept born held recorded
    exact ⟨birth, it', by simp [Watched.next, used, born], same, held', recorded'⟩

/-- A call that does nothing keeps the invariant. -/
theorem Kinds.unchanged {w : Watched} (kinds : Kinds w) (birth : Option Birth)
    : Kinds (w.next w.state birth) :=
  kinds.retimed w.state.timers birth (fun _ held recorded => ⟨_, held, recorded⟩)

/-- A timer that is fresh is not one of a used slot. -/
theorem Kinds.timerId_ne {w : Watched} (kinds : Kinds w) {timerid : Int}
    (fresh : w.state.timers timerid = none) {i : Fin maxTimerNum} {birth : Birth}
    (born : w.births i = some birth)
    : (w.state.table i).timerId ≠ timerid := by
  intro same
  obtain ⟨-, it, -, -, held, -⟩ := kinds.live (kinds.used born)
  simp [same, fresh] at held

/-- A call that creates a timer keeps the invariant if the slot records the id as it is, and a mode
that fits.
-/
theorem Kinds.create {w : Watched} (kinds : Kinds w) {o : Outcome} {it : Itimerspec}
    {recorded : TimerS → Int} {s : State} (creation : Creation o it recorded w.state s)
    (fresh : o.Fresh w.state.timers) (mode : Int) (armed : 0 < it.interval → 0 < it.value)
    (fits
      : ∀ slot timerid,
          freeSlot w.state.table = some slot
          → o.created = some timerid
          → o.Arms it
          → int32 timerid = timerid ∧ Fits mode (recorded (w.state.table slot)))
    : Kinds (w.next s (o.created.map fun timerid => ⟨timerid, mode, it.interval⟩)) := by
  cases creation with
  | refused reason => exact kinds.unchanged _
  | @leaked slot timerid free created unarmed =>
      refine kinds.retimed _ _ ?_
      intro i birth it born held recorded
      have other := kinds.timerId_ne (fresh timerid created) born
      exact ⟨it, by simpa [other] using held, recorded⟩
  | @placed slot timerid entry free created arms used holds recordedMode seconds =>
      have unused := freeSlot_free free
      obtain ⟨whole, fitting⟩ := fits slot timerid free created arms
      rw [whole] at holds
      have other {i} (inUse : (w.state.table i).flag = true)
          : (w.state.table i).timerId ≠ timerid := by
        obtain ⟨birth, it, born, -⟩ := kinds.live inUse
        exact kinds.timerId_ne (fresh timerid created) born
      have distinct := kinds.distinctIds.store (by rw [holds]; exact other) slot
      constructor
      · exact fun {i j} => distinct i j
      · intro i free
        exact if_pos free
      · intro i inUse
        by_cases iSlot : i = slot
        · subst iSlot
          refine ⟨⟨timerid, mode, it.interval⟩, it, ?_, ?_, ?_, ?_⟩
          · simp [Watched.next, State.store, used, unused, created]
          · simp [Watched.next, State.store, holds]
          · simp [Watched.next, State.store, holds]
          · simp only [Watched.next, State.store, Function.update_self]
            exact {
              fits := by rw [recordedMode]; exact fitting
              interval := fun _ => ⟨rfl, armed⟩
              once := fun _ => by rw [seconds]; exact arms.value
            }
        · simp only [Watched.next, State.store, Function.update_of_ne iSlot] at inUse ⊢
          obtain ⟨birth, it, born, same, held, recorded⟩ := kinds.live inUse
          have apart := other inUse
          exact ⟨birth, it, by simp [inUse, born], same, by simpa [apart] using held, recorded⟩

/-- Deleting in a slot keeps the invariant if the id is not that of another slot that is used.
-/
theorem Kinds.delete {w : Watched} (kinds : Kinds w) {i : Fin maxTimerNum}
    (apart
      : ∀ j,
          (w.state.table i).flag = false
          → (w.state.table j).flag = true
          → (w.state.table j).timerId ≠ (w.state.table i).timerId)
    : Kinds (w.next (deleteSlot i w.state).2 none) := by
  have others {timers : Timers}
      (kept
        : ∀ timerid,
            timerid ≠ (w.state.table i).timerId → timers timerid = w.state.timers timerid)
      : Kinds (w.next (w.state.store i { w.state.table i with flag := false } timers) none) := by
    have distinct
        : DistinctIds (Function.update w.state.table i { w.state.table i with flag := false }) :=
      kinds.distinctIds.free i rfl
    constructor
    · exact fun {j k} => distinct j k
    · intro j free
      exact if_pos free
    · intro j used
      by_cases freed : j = i
      · simp [Watched.next, State.store, freed] at used
      simp only [Watched.next, State.store, Function.update_of_ne freed] at used ⊢
      obtain ⟨birth, it, born, same, held, recorded⟩ := kinds.live used
      have other : (w.state.table j).timerId ≠ (w.state.table i).timerId := by
        cases flag : (w.state.table i).flag with
        | true => exact fun equal => freed (kinds.distinct used flag equal)
        | false => exact apart j flag used
      exact ⟨birth, it, by simp [used, born], same, by rw [kept _ other, held], recorded⟩
  unfold deleteSlot timerDelete
  dsimp only
  cases held : w.state.timers (w.state.table i).timerId with
  | none => exact others (fun _ _ => rfl)
  | some it => exact others (fun timerid other => Function.update_of_ne other _ _)

/-- Resetting in a slot keeps the invariant if the id is not that of another slot whose timer
repeats.
-/
theorem Kinds.reset {w : Watched} (kinds : Kinds w) {i : Fin maxTimerNum}
    (apart
      : ∀ j birth,
          (w.state.table i).flag = false
          → (w.state.table i).timerMode = timerOnce
          → w.births j = some birth
          → birth.mode = timerInterval
          → (w.state.table j).timerId ≠ (w.state.table i).timerId)
    : Kinds (w.next (resetSlot i w.state).2 none) := by
  unfold resetSlot timerSettime
  dsimp only
  by_cases once : (w.state.table i).timerMode = timerOnce
  · rw [if_pos once]
    by_cases settable
      : (w.state.timers (w.state.table i).timerId).isSome
        ∧ 0 ≤ (w.state.table i).timeoutSec
        ∧ (0 : Int) ≤ 0
    · rw [if_pos settable]
      refine kinds.retimed _ _ ?_
      intro j birth it born held recorded
      by_cases same : (w.state.table j).timerId = (w.state.table i).timerId
      · -- the slot that is reset is this one, or a free one, and then this timer does not repeat
        refine ⟨_, by rw [same, Function.update_self], recorded.fits, ?_, recorded.once⟩
        intro repeats
        cases flag : (w.state.table i).flag with
        | true =>
            have itself := kinds.distinct (kinds.used born) flag same
            subst itself
            exact absurd once (recorded.fits.1 repeats)
        | false => exact absurd same (apart j birth flag once born repeats)
      · exact ⟨it, by rw [Function.update_of_ne same, held], recorded⟩
    · rw [if_neg settable]
      exact kinds.unchanged none
  · rw [if_neg once]
    exact kinds.unchanged none

/-- A timer that expires is armed again with its interval, if it has one. -/
theorem Kinds.expire {w : Watched} (kinds : Kinds w) {timerid : Int} {it : Itimerspec}
    (live : w.state.timers timerid = some it)
    : Kinds
        (w.next
          { w.state with timers := Function.update w.state.timers timerid (some it.expired) }
          none) := by
  refine kinds.retimed _ _ ?_
  intro i birth it' born held recorded
  by_cases same : (w.state.table i).timerId = timerid
  · subst same
    cases held.symm.trans live
    refine ⟨_, Function.update_self .., recorded.fits, ?_, recorded.once⟩
    intro repeats
    have interval := (recorded.interval repeats).1
    exact ⟨interval, fun positive => by rw [← interval] at positive; exact positive⟩
  · exact ⟨it', by rw [Function.update_of_ne same, held], recorded⟩

/-- The delay that is found is positive. -/
theorem diffSeconds_pos {mktime : Tm → Int} {preTime diffSec : Int} {chkTimeStr : Bytes}
    (found : diffSeconds mktime preTime chkTimeStr = .ok (.ok diffSec))
    : 0 < diffSec := by
  simp only [diffSeconds, Checked.bind_eq_ok] at found
  obtain ⟨⟨ret, expiredTime⟩, -, found⟩ := found
  dsimp only at found
  split at found
  · cases found
  · split at found
    · cases found
    · cases found
      omega

/-- A step that meets the condition keeps the invariant. -/
theorem WatchedStep.kinds {mktime : Tm → Int} {w w' : Watched} {call : Call}
    (step : WatchedStep mktime w call w') (kindly : call.Kindly mktime w) (kinds : Kinds w)
    : Kinds w' := by
  obtain ⟨s, step, rfl⟩ := step
  cases step with
  | @newDelta o mode timeoutSec timeoutFunc sival fresh =>
      refine kinds.create (tmNewDeltaTimer_creation _ _ _ _ _ w.state) fresh mode ?_ kindly
      intro positive
      simp only [deltaSpec] at positive ⊢
      split at positive
      · exact positive
      · omega
  | @newAbs o preTime para ret _ fresh returned =>
      rcases tmNewAbsTimer_creation returned with ⟨-, rfl⟩ | ⟨diffSec, found, creation⟩
      · exact kinds.unchanged _
      · refine kinds.create creation fresh para.timerMode (fun _ => diffSeconds_pos found) ?_
        intro slot timerid free created arms
        refine ⟨kindly slot timerid diffSec free created found arms, fun repeats => ?_, id⟩
        rw [repeats]
        decide
  | @delete idx =>
      unfold tmDelete
      cases place : slotOf idx with
      | none => exact kinds.unchanged none
      | some i => exact kinds.delete (fun j => kindly i j place)
  | @reset idx =>
      unfold tmReset
      cases place : slotOf idx with
      | none => exact kinds.unchanged none
      | some i => exact kinds.reset (fun j birth => kindly i j birth place)
  | expire live armed => exact kinds.expire live

end Cvos.Timer

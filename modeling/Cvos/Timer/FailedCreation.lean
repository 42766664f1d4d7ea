import Cvos.Timer.Ownership

/-! What is left behind by a call that creates a timer and fails. The calls have one exit, which
does not delete a timer that the kernel has created by then.
-/

namespace Cvos.Timer

open Cvos.Lib

/-- A call with a negative result leaves the table as it was, and no timer of the kernel more or
less.
-/
def NothingLeft (s : State) (result : Int × State) : Prop :=
  result.1 < 0
  → result.2.table = s.table
    ∧ ∀ timerid, (result.2.timers timerid).isSome = (s.timers timerid).isSome

/-- The timer is armed if the kernel creates one. -/
def Outcome.ArmsCreated (o : Outcome) (it : Itimerspec) : Prop :=
  ∀ timerid, o.created = some timerid → o.Arms it

/-- A call that does not change the state leaves nothing behind. -/
theorem NothingLeft.unchanged (s : State) (ret : Int) : NothingLeft s (ret, s) :=
  fun _ => ⟨rfl, fun _ => rfl⟩

/-- A call that fails with `createTimer`, and only with it, leaves nothing behind exactly when the
timer is armed that is created.
-/
theorem nothingLeft_createTimer_iff {s : State} {o : Outcome} {it : Itimerspec}
    (fresh : o.Fresh s.timers) {result : Int × State}
    (failed
      : ∀ timers check,
          createTimer s.timers o it = (timers, .error check)
          → result.1 < 0 ∧ result.2 = { s with timers := timers })
    (stored
      : ∀ timers timerid, createTimer s.timers o it = (timers, .ok timerid) → 0 ≤ result.1)
    : NothingLeft s result ↔ o.ArmsCreated it := by
  rcases createTimer_cases s.timers o it with
    ⟨none, made⟩ | ⟨timerid, created, ⟨arms, made⟩ | ⟨unarmed, check, made⟩⟩
  · obtain ⟨-, same⟩ := failed _ _ made
    refine iff_of_true ?_ ?_
    · rw [NothingLeft, same]
      exact NothingLeft.unchanged s result.1
    · intro timerid created
      cases none.symm.trans created
  · have nonneg := stored _ _ made
    refine iff_of_true ?_ ?_
    · intro negative
      omega
    · intro timerid' created'
      cases created.symm.trans created'
      exact arms
  · obtain ⟨negative, leaked⟩ := failed _ _ made
    refine iff_of_false ?_ ?_
    · intro nothing
      obtain ⟨-, live⟩ := nothing negative
      have alive := live timerid
      rw [leaked, fresh timerid created] at alive
      simp at alive
    · intro arms
      exact unarmed (arms timerid created)

/-- `TM_NewDeltaTimer` leaves nothing behind exactly when it finds no slot or arms what it creates.
-/
theorem tmNewDeltaTimer_nothingLeft_iff {s : State} {o : Outcome} (fresh : o.Fresh s.timers)
    (mode timeoutSec : Int) (timeoutFunc : Nat) (sival : Int)
    : NothingLeft s (tmNewDeltaTimer o mode timeoutSec timeoutFunc sival s)
      ↔ ((freeSlot s.table).isSome → o.ArmsCreated (deltaSpec mode timeoutSec)) := by
  unfold tmNewDeltaTimer
  cases freeSlot s.table with
  | none => exact iff_of_true (NothingLeft.unchanged s _) (by simp)
  | some slot =>
      rw [Option.isSome_some, eq_self, true_implies]
      refine nothingLeft_createTimer_iff fresh ?_ ?_
      · intro timers check made
        rw [made]
        exact ⟨show (-2 : Int) - check < 0 by omega, rfl⟩
      · intro timers timerid made
        rw [made]
        exact Int.natCast_nonneg _

/-- `TM_NewAbsTimer` leaves nothing behind exactly when it finds no slot or no delay, or arms what
it creates.
-/
theorem tmNewAbsTimer_nothingLeft_iff {mktime : Tm → Int} {s s' : State} {o : Outcome}
    (fresh : o.Fresh s.timers) {preTime ret : Int} {para : TimerUserS}
    (returned : tmNewAbsTimer mktime o preTime para s = .ok (ret, s'))
    : NothingLeft s (ret, s')
      ↔ ∀ diffSec,
          (freeSlot s.table).isSome
          → diffSeconds mktime preTime para.chkTimeStr = .ok (.ok diffSec)
          → o.ArmsCreated (absSpec para.timerMode diffSec) := by
  unfold tmNewAbsTimer at returned
  cases free : freeSlot s.table with
  | none =>
      rw [free] at returned
      cases returned
      exact iff_of_true (NothingLeft.unchanged s _) (by simp)
  | some slot =>
      rw [free] at returned
      simp only [Checked.bind_eq_ok] at returned
      obtain ⟨delay, found, stored⟩ := returned
      cases delay with
      | error early =>
          cases stored
          refine iff_of_true (NothingLeft.unchanged s _) ?_
          intro diffSec _ found'
          cases found.symm.trans found'
      | ok diffSec =>
          dsimp only at stored
          have created
              : NothingLeft s (ret, s') ↔ o.ArmsCreated (absSpec para.timerMode diffSec) := by
            refine nothingLeft_createTimer_iff fresh ?_ ?_
            · intro timers check made
              rw [made] at stored
              cases stored
              exact ⟨show (-4 : Int) - check < 0 by omega, rfl⟩
            · intro timers timerid made
              rw [made] at stored
              cases stored
              exact Int.natCast_nonneg _
          rw [created]
          constructor
          · intro arms diffSec' _ found'
            cases found.symm.trans found'
            exact arms
          · intro arms
            exact arms diffSec rfl found

/-- The calls that create a timer leave nothing behind when they fail exactly when they arm the
timer that the kernel creates for them.
-/
theorem nothingLeft_iff (mktime : Tm → Int) {s : State} {o : Outcome} (fresh : o.Fresh s.timers)
    : (∀ mode timeoutSec timeoutFunc sival,
        NothingLeft s (tmNewDeltaTimer o mode timeoutSec timeoutFunc sival s)
        ↔ ((freeSlot s.table).isSome → o.ArmsCreated (deltaSpec mode timeoutSec)))
      ∧ ∀ preTime para ret s',
          tmNewAbsTimer mktime o preTime para s = .ok (ret, s')
          → (NothingLeft s (ret, s')
            ↔ ∀ diffSec,
                (freeSlot s.table).isSome
                → diffSeconds mktime preTime para.chkTimeStr = .ok (.ok diffSec)
                → o.ArmsCreated (absSpec para.timerMode diffSec)) :=
  ⟨fun mode timeoutSec => tmNewDeltaTimer_nothingLeft_iff fresh mode timeoutSec,
    fun _ _ _ _ => tmNewAbsTimer_nothingLeft_iff fresh⟩

/-- Witness: the kernel refuses to create a timer, with a number that says so. -/
theorem nothingLeft_iff_refused
    : NothingLeft State.initial (tmNewDeltaTimer ⟨none, false⟩ timerOnce 5 0 0 State.initial)
      ∧ (tmNewDeltaTimer ⟨none, false⟩ timerOnce 5 0 0 State.initial).1 = -2 := by
  have fresh : (⟨none, false⟩ : Outcome).Fresh State.initial.timers := by
    intro timerid created
    cases created
  refine ⟨((nothingLeft_iff (fun _ => 0) fresh).1 timerOnce 5 0 0).mpr ?_, rfl⟩
  intro _ timerid created
  cases created

/-- A negative delay leaves a timer behind that is never armed. -/
theorem not_nothingLeft_negative
    : ¬ ∀ (s : State) (o : Outcome) (mode timeoutSec : Int) (timeoutFunc : Nat) (sival : Int),
        o.Fresh s.timers
        → NothingLeft s (tmNewDeltaTimer o mode timeoutSec timeoutFunc sival s) := by
  intro always
  have fresh : (⟨some 1, true⟩ : Outcome).Fresh State.initial.timers := fun _ _ => rfl
  obtain ⟨-, live⟩ := always State.initial ⟨some 1, true⟩ timerOnce (-5) 0 0 fresh (by decide)
  exact absurd (live 1) (by decide)

end Cvos.Timer

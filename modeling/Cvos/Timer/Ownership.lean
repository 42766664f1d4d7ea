import Cvos.Timer.Model

/-! Which timers the slots of the table own. A slot that is free again keeps the id of its last
timer, and the kernel may hand that id out for a new one.
-/

namespace Cvos.Timer

open Cvos.Lib

/-- The used slots hold distinct live timers, and neither `TM_Delete` nor `TM_Reset` on a free slot
touches a timer.
-/
structure Owned (s : State) : Prop where
  distinct
    : ∀ {i j},
        (s.table i).flag = true
        → (s.table j).flag = true
        → (s.table i).timerId = (s.table j).timerId
        → i = j
  live : ∀ {i}, (s.table i).flag = true → (s.timers (s.table i).timerId).isSome
  deleteHarmless : ∀ {i : Fin maxTimerNum}, (s.table i).flag = false
    → (tmDelete i s).2.timers = s.timers
  resetHarmless : ∀ {i : Fin maxTimerNum}, (s.table i).flag = false
    → (tmReset i s).2.timers = s.timers

/-- A call that creates a timer has what it needs to arm it. -/
structure Outcome.Arms (o : Outcome) (it : Itimerspec) : Prop where
  armed : o.armed = true
  value : 0 ≤ it.value
  interval : 0 ≤ it.interval

/-- What a slot records of an id is the id itself, or the one of a live timer in no slot. -/
def Recordable (s : State) (timerid : Int) : Prop :=
  int32 timerid = timerid
  ∨ (s.timers (int32 timerid)).isSome
    ∧ ∀ i, (s.table i).flag = true → (s.table i).timerId ≠ int32 timerid

/-- No free slot records the id of the new timer, except for the slot that the timer gets, and that
one records it as it is.
-/
def Unrecorded (s : State) (o : Outcome) (it : Itimerspec) : Prop :=
  ∀ slot timerid,
    freeSlot s.table = some slot
    → o.created = some timerid
    → (∀ i, (s.table i).flag = false → (s.table i).timerId = timerid → i = slot ∧ o.Arms it)
      ∧ (o.Arms it → Recordable s timerid)

/-- The condition on a call that keeps the slots the owners of their timers. -/
def Call.Unrecorded (mktime : Tm → Int) (s : State) : Call → Prop
  | .newDelta o mode timeoutSec _ _ => Timer.Unrecorded s o (deltaSpec mode timeoutSec)
  | .newAbs o preTime para =>
      ∀ diffSec,
        diffSeconds mktime preTime para.chkTimeStr = .ok (.ok diffSec)
        → Timer.Unrecorded s o (absSpec para.timerMode diffSec)
  | .delete _ | .reset _ | .expire _ => True

-----------------------------------------------------------------------------------------
-- What the calls do to the table and the kernel
-----------------------------------------------------------------------------------------

/-- A call that creates a timer changes nothing, or leaves a timer that no slot records, or puts
the new timer into the first free slot. The slot's mode afterwards is given by `recorded`.
-/
inductive Creation (o : Outcome) (it : Itimerspec) (recorded : TimerS → Int) (s : State)
    : State → Prop
  | refused : (freeSlot s.table = none ∨ o.created = none) → Creation o it recorded s s
  | leaked {slot timerid} (free : freeSlot s.table = some slot)
    (created : o.created = some timerid) (unarmed : ¬o.Arms it)
    : Creation o it recorded s
        { s with timers := Function.update s.timers timerid (some ⟨0, 0⟩) }
  | placed {slot timerid entry} (free : freeSlot s.table = some slot)
    (created : o.created = some timerid) (arms : o.Arms it)
    (used : entry.flag = true) (holds : entry.timerId = int32 timerid)
    (mode : entry.timerMode = recorded (s.table slot)) (seconds : entry.timeoutSec = it.value)
    : Creation o it recorded s
        (s.store slot entry (Function.update s.timers timerid (some it)))

/-- The slot that is found is free. -/
theorem freeSlot_free {table : Fin maxTimerNum → TimerS} {slot : Fin maxTimerNum}
    (free : freeSlot table = some slot)
    : (table slot).flag = false := by
  simpa using List.find?_some free

/-- What `createTimer` does, by its checks. -/
theorem createTimer_cases (timers : Timers) (o : Outcome) (it : Itimerspec)
    : (o.created = none ∧ createTimer timers o it = (timers, .error 0))
      ∨ ∃ timerid,
          o.created = some timerid
          ∧ ((o.Arms it
              ∧ createTimer timers o it
                = (Function.update timers timerid (some it), .ok timerid))
            ∨ (¬o.Arms it
              ∧ ∃ check,
                  createTimer timers o it
                  = (Function.update timers timerid (some ⟨0, 0⟩), .error check))) := by
  cases created : o.created with
  | none => exact .inl ⟨rfl, by simp [createTimer, created]⟩
  | some timerid =>
      refine .inr ⟨timerid, rfl, ?_⟩
      by_cases arms : o.armed = true ∧ 0 ≤ it.value ∧ 0 ≤ it.interval
      · refine .inl ⟨⟨arms.1, arms.2.1, arms.2.2⟩, ?_⟩
        simp [createTimer, created, timerSettime, arms]
      · refine .inr ⟨fun h => arms ⟨h.armed, h.value, h.interval⟩, 2, ?_⟩
        by_cases armed : o.armed = true
        · have times : ¬(0 ≤ it.value ∧ 0 ≤ it.interval) := fun h => arms ⟨armed, h⟩
          simp [createTimer, created, timerSettime, armed, times]
        · simp [createTimer, created, armed]

/-- `TM_NewDeltaTimer` creates a timer, and the slot keeps the mode it had. -/
theorem tmNewDeltaTimer_creation (o : Outcome) (mode timeoutSec : Int) (timeoutFunc : Nat)
    (sival : Int) (s : State)
    : Creation o (deltaSpec mode timeoutSec) TimerS.timerMode s
        (tmNewDeltaTimer o mode timeoutSec timeoutFunc sival s).2 := by
  unfold tmNewDeltaTimer
  cases free : freeSlot s.table with
  | none => exact .refused (.inl free)
  | some slot =>
      rcases createTimer_cases s.timers o (deltaSpec mode timeoutSec) with
        ⟨none, made⟩ | ⟨timerid, created, ⟨arms, made⟩ | ⟨unarmed, check, made⟩⟩
      · rw [made]
        exact .refused (.inr none)
      · rw [made]
        exact .placed free created arms rfl rfl rfl rfl
      · rw [made]
        exact .leaked free created unarmed

/-- `TM_NewAbsTimer` finds no delay, or it creates a timer of that delay, and the slot has the mode
of the request.
-/
theorem tmNewAbsTimer_creation {mktime : Tm → Int} {o : Outcome} {preTime : Int}
    {para : TimerUserS} {s s' : State} {ret : Int}
    (returned : tmNewAbsTimer mktime o preTime para s = .ok (ret, s'))
    : ((freeSlot s.table = none
          ∨ ∃ ret, diffSeconds mktime preTime para.chkTimeStr = .ok (.error ret))
        ∧ s' = s)
      ∨ ∃ diffSec,
          diffSeconds mktime preTime para.chkTimeStr = .ok (.ok diffSec)
          ∧ Creation o (absSpec para.timerMode diffSec) (fun _ => para.timerMode) s s' := by
  unfold tmNewAbsTimer at returned
  cases free : freeSlot s.table with
  | none =>
      rw [free] at returned
      cases returned
      exact .inl ⟨.inl rfl, rfl⟩
  | some slot =>
      rw [free] at returned
      simp only [Checked.bind_eq_ok] at returned
      obtain ⟨delay, found, stored⟩ := returned
      cases delay with
      | error early =>
          cases stored
          exact .inl ⟨.inr ⟨_, found⟩, rfl⟩
      | ok diffSec =>
          refine .inr ⟨diffSec, found, ?_⟩
          dsimp only at stored
          rcases createTimer_cases s.timers o (absSpec para.timerMode diffSec) with
            ⟨none, made⟩ | ⟨timerid, created, ⟨arms, made⟩ | ⟨unarmed, check, made⟩⟩
          · rw [made] at stored
            cases stored
            exact .refused (.inr none)
          · rw [made] at stored
            cases stored
            exact .placed free created arms rfl rfl rfl rfl
          · rw [made] at stored
            cases stored
            exact .leaked free created unarmed

-----------------------------------------------------------------------------------------
-- The ids of the used slots
-----------------------------------------------------------------------------------------

/-- The used slots hold distinct ids. -/
def DistinctIds (table : Fin maxTimerNum → TimerS) : Prop :=
  ∀ i j,
    (table i).flag = true
    → (table j).flag = true
    → (table i).timerId = (table j).timerId
    → i = j

/-- An entry with an id that no used slot holds leaves the ids distinct. -/
theorem DistinctIds.store {table : Fin maxTimerNum → TimerS} (distinct : DistinctIds table)
    {entry : TimerS} (apart : ∀ {i}, (table i).flag = true → (table i).timerId ≠ entry.timerId)
    (slot : Fin maxTimerNum)
    : DistinctIds (Function.update table slot entry) := by
  intro i j iUsed jUsed same
  by_cases iSlot : i = slot <;> by_cases jSlot : j = slot
  · rw [iSlot, jSlot]
  · rw [iSlot, Function.update_self, Function.update_of_ne jSlot] at same
    rw [Function.update_of_ne jSlot] at jUsed
    exact absurd same.symm (apart jUsed)
  · rw [jSlot, Function.update_self, Function.update_of_ne iSlot] at same
    rw [Function.update_of_ne iSlot] at iUsed
    exact absurd same (apart iUsed)
  · rw [Function.update_of_ne iSlot] at iUsed same
    rw [Function.update_of_ne jSlot] at jUsed same
    exact distinct i j iUsed jUsed same

/-- A slot that becomes free leaves the ids distinct. -/
theorem DistinctIds.free {table : Fin maxTimerNum → TimerS} (distinct : DistinctIds table)
    (slot : Fin maxTimerNum) {entry : TimerS} (freed : entry.flag = false)
    : DistinctIds (Function.update table slot entry) := by
  intro i j iUsed jUsed same
  by_cases iSlot : i = slot
  · simp [iSlot, freed] at iUsed
  by_cases jSlot : j = slot
  · simp [jSlot, freed] at jUsed
  rw [Function.update_of_ne iSlot] at iUsed same
  rw [Function.update_of_ne jSlot] at jUsed same
  exact distinct i j iUsed jUsed same

-----------------------------------------------------------------------------------------
-- Ownership, call by call
-----------------------------------------------------------------------------------------

theorem slotOf_natCast (i : Fin maxTimerNum) : slotOf (i : Int) = some i := by
  have bound := i.isLt
  simp [slotOf, bound]

/-- `TM_Delete` leaves the timers alone exactly if the slot's id is that of no live timer. -/
theorem tmDelete_timers_iff (i : Fin maxTimerNum) (s : State)
    : (tmDelete i s).2.timers = s.timers ↔ s.timers (s.table i).timerId = none := by
  simp only [tmDelete, slotOf_natCast, deleteSlot, timerDelete]
  cases held : s.timers (s.table i).timerId with
  | none => simp [State.store]
  | some it =>
      simp only [Option.isSome_some, if_true, State.store, reduceCtorEq, iff_false]
      intro same
      have gone := congrFun same (s.table i).timerId
      simp [held] at gone

/-- `TM_Reset` changes no timer through an id that is dead. -/
theorem tmReset_timers_of_dead {i : Fin maxTimerNum} {s : State}
    (dead : s.timers (s.table i).timerId = none)
    : (tmReset i s).2 = s := by
  simp only [tmReset, slotOf_natCast, resetSlot, timerSettime, dead]
  split <;> rfl

/-- Ownership, with the condition on the free slots as one on the ids they record. -/
theorem owned_iff (s : State)
    : Owned s
      ↔ DistinctIds s.table
        ∧ (∀ i, (s.table i).flag = true → (s.timers (s.table i).timerId).isSome)
        ∧ ∀ i, (s.table i).flag = false → s.timers (s.table i).timerId = none := by
  constructor
  · intro owned
    exact ⟨fun _ _ => owned.distinct, fun _ => owned.live,
      fun i free => (tmDelete_timers_iff i s).mp (owned.deleteHarmless free)⟩
  · rintro ⟨distinct, live, dead⟩
    exact {
      distinct := distinct _ _
      live := live _
      deleteHarmless := fun free => (tmDelete_timers_iff _ s).mpr (dead _ free)
      resetHarmless := fun free => by rw [tmReset_timers_of_dead (dead _ free)]
    }

/-- The slots that own their timers hold distinct ids. -/
theorem Owned.distinctIds {s : State} (owned : Owned s) : DistinctIds s.table :=
  ((owned_iff s).mp owned).1

/-- The id of a free slot is dead. -/
theorem Owned.dead {s : State} (owned : Owned s) {i : Fin maxTimerNum}
    (free : (s.table i).flag = false)
    : s.timers (s.table i).timerId = none :=
  ((owned_iff s).mp owned).2.2 i free

/-- The table before the first call owns nothing, and there is nothing to touch. -/
theorem State.initial_owned : Owned State.initial := by
  rw [owned_iff]
  simp [DistinctIds, State.initial]

/-- A new timer without a slot leaves the slots the owners exactly if no free slot records it.
-/
theorem Owned.leak_iff {s : State} (owned : Owned s) {timerid : Int}
    (fresh : s.timers timerid = none) (it : Itimerspec)
    : Owned { s with timers := Function.update s.timers timerid (some it) }
      ↔ ∀ i, (s.table i).flag = false → (s.table i).timerId ≠ timerid := by
  rw [owned_iff]
  constructor
  · rintro ⟨-, -, dead⟩ i free same
    have gone := dead i free
    simp [same] at gone
  · intro unrecorded
    refine ⟨owned.distinctIds, ?_, ?_⟩
    · intro i used
      have live := owned.live used
      have other : (s.table i).timerId ≠ timerid := by
        intro same
        simp [same, fresh] at live
      simpa [other] using live
    · intro i free
      simpa [unrecorded i free] using owned.dead free

/-- A new timer in a free slot leaves the slots the owners exactly if no other free slot records it,
and this one records it as it is.
-/
theorem Owned.place_iff {s : State} (owned : Owned s) {timerid : Int}
    (fresh : s.timers timerid = none) {slot : Fin maxTimerNum}
    (unused : (s.table slot).flag = false) {entry : TimerS}
    (used : entry.flag = true) (holds : entry.timerId = int32 timerid) (it : Itimerspec)
    : Owned (s.store slot entry (Function.update s.timers timerid (some it)))
      ↔ (∀ i, (s.table i).flag = false → (s.table i).timerId = timerid → i = slot)
        ∧ Recordable s timerid := by
  have other {i} (inUse : (s.table i).flag = true) : (s.table i).timerId ≠ timerid := by
    intro same
    have live := owned.live inUse
    simp [same, fresh] at live
  have apart {i} (inUse : (s.table i).flag = true) : i ≠ slot := by
    rintro rfl
    exact absurd inUse (by simp [unused])
  rw [owned_iff]
  simp only [State.store]
  constructor
  · rintro ⟨distinct, live, dead⟩
    refine ⟨?_, ?_⟩
    · intro i free same
      by_contra elsewhere
      have gone := dead i
      simp [elsewhere, free, same] at gone
    · by_cases whole : int32 timerid = timerid
      · exact .inl whole
      · have stored := live slot
        simp only [Function.update_self, used, holds, Function.update_of_ne whole,
          true_implies] at stored
        refine .inr ⟨stored, fun i inUse same => apart inUse (distinct i slot ?_ ?_ ?_)⟩
        · rwa [Function.update_of_ne (apart inUse)]
        · rwa [Function.update_self]
        · rw [Function.update_of_ne (apart inUse), Function.update_self, holds, same]
  · rintro ⟨unrecorded, recordable⟩
    have others {i} (inUse : (s.table i).flag = true) : (s.table i).timerId ≠ int32 timerid := by
      rcases recordable with whole | ⟨-, others⟩
      · rw [whole]
        exact other inUse
      · exact others i inUse
    refine ⟨owned.distinctIds.store (by rw [holds]; exact others) slot, ?_, ?_⟩
    · intro i inUse
      by_cases iSlot : i = slot
      · subst iSlot
        rw [Function.update_self, holds]
        by_cases whole : int32 timerid = timerid
        · simp [whole]
        · rw [Function.update_of_ne whole]
          exact (recordable.resolve_left whole).1
      · simp only [Function.update_of_ne iSlot] at inUse ⊢
        simpa [other inUse] using owned.live inUse
    · intro i free
      by_cases iSlot : i = slot
      · simp [iSlot, used] at free
      · simp only [Function.update_of_ne iSlot] at free ⊢
        have elsewhere : (s.table i).timerId ≠ timerid :=
          fun same => iSlot (unrecorded i free same)
        simpa [elsewhere] using owned.dead free

/-- A call that creates a timer keeps the ownership exactly if the id is unrecorded. -/
theorem Creation.owned_iff {o : Outcome} {it : Itimerspec} {recorded : TimerS → Int}
    {s s' : State} (creation : Creation o it recorded s s') (fresh : o.Fresh s.timers)
    (owned : Owned s)
    : Owned s' ↔ Unrecorded s o it := by
  cases creation with
  | refused reason =>
      refine iff_of_true owned ?_
      intro slot timerid free created
      rcases reason with full | none
      · simp [full] at free
      · simp [none] at created
  | @leaked slot timerid free created unarmed =>
      rw [owned.leak_iff (fresh timerid created)]
      constructor
      · intro unrecorded slot' timerid' _ created'
        cases created.symm.trans created'
        exact ⟨fun i unused same => absurd same (unrecorded i unused),
          fun arms => absurd arms unarmed⟩
      · intro unrecorded i unused same
        exact unarmed ((unrecorded slot timerid free created).1 i unused same).2
  | @placed slot timerid entry free created arms used holds mode seconds =>
      rw [owned.place_iff (fresh timerid created) (freeSlot_free free) used holds]
      constructor
      · rintro ⟨unrecorded, recordable⟩ slot' timerid' free' created'
        cases free.symm.trans free'
        cases created.symm.trans created'
        exact ⟨fun i unused same => ⟨unrecorded i unused same, arms⟩, fun _ => recordable⟩
      · intro unrecorded
        obtain ⟨elsewhere, recordable⟩ := unrecorded slot timerid free created
        exact ⟨fun i unused same => (elsewhere i unused same).1, recordable arms⟩

/-- Ownership depends only on which timers are live, not on their times. -/
theorem Owned.of_live_iff {s : State} (owned : Owned s) {timers : Timers}
    (live_iff : ∀ timerid, timers timerid = none ↔ s.timers timerid = none)
    : Owned { s with timers := timers } := by
  rw [Timer.owned_iff]
  refine ⟨owned.distinctIds, ?_, ?_⟩
  · intro i used
    have live := owned.live used
    rw [Option.isSome_iff_ne_none] at live ⊢
    exact fun dead => live ((live_iff _).mp dead)
  · intro i free
    exact (live_iff _).mpr (owned.dead free)

/-- Giving a live timer new times leaves it live. -/
theorem update_live_iff {timers : Timers} {timerid : Int} (live : (timers timerid).isSome)
    (it : Itimerspec) (other : Int)
    : Function.update timers timerid (some it) other = none ↔ timers other = none := by
  by_cases same : other = timerid
  · subst same
    simp [Option.isSome_iff_ne_none.mp live]
  · simp [same]

/-- Deleting in a slot keeps the ownership: a used slot owns the timer that it deletes, and a free
one deletes none.
-/
theorem Owned.deleteSlot {s : State} (owned : Owned s) (i : Fin maxTimerNum)
    : Owned (deleteSlot i s).2 := by
  have freed {timers : Timers}
      (kept
        : ∀ timerid, timerid ≠ (s.table i).timerId → timers timerid = s.timers timerid)
      (gone : timers (s.table i).timerId = none)
      : Owned (s.store i { s.table i with flag := false } timers) := by
    rw [Timer.owned_iff]
    simp only [State.store]
    refine ⟨owned.distinctIds.free i rfl, ?_, ?_⟩
    · intro j used
      by_cases freed : j = i
      · simp [freed] at used
      simp only [Function.update_of_ne freed] at used ⊢
      by_cases same : (s.table j).timerId = (s.table i).timerId
      · -- the slot that is freed held the same id, so it was free already
        cases flag : (s.table i).flag with
        | true => exact absurd (owned.distinct used flag same) freed
        | false =>
            have live := owned.live used
            simp [same, owned.dead flag] at live
      · rw [kept _ same]
        exact owned.live used
    · intro j free
      by_cases freed : j = i
      · simpa [freed] using gone
      simp only [Function.update_of_ne freed] at free ⊢
      by_cases same : (s.table j).timerId = (s.table i).timerId
      · rw [same]
        exact gone
      · rw [kept _ same]
        exact owned.dead free
  unfold Timer.deleteSlot timerDelete
  dsimp only
  cases held : s.timers (s.table i).timerId with
  | none => exact freed (fun _ _ => rfl) held
  | some it =>
      refine freed (fun timerid other => ?_) (by simp)
      exact Function.update_of_ne other _ _

/-- Resetting in a slot keeps the ownership, since it revives no timer. -/
theorem Owned.resetSlot {s : State} (owned : Owned s) (i : Fin maxTimerNum)
    : Owned (resetSlot i s).2 := by
  unfold Timer.resetSlot timerSettime
  dsimp only
  split
  · by_cases settable
      : (s.timers (s.table i).timerId).isSome ∧ 0 ≤ (s.table i).timeoutSec ∧ (0 : Int) ≤ 0
    · rw [if_pos settable]
      exact owned.of_live_iff (update_live_iff settable.1 _)
    · rw [if_neg settable]
      exact owned
  · exact owned

/-- A step keeps the ownership exactly under the condition on its call. -/
theorem Step.owned_iff {mktime : Tm → Int} {s s' : State} {call : Call}
    (step : Step mktime s call s') (owned : Owned s)
    : Owned s' ↔ call.Unrecorded mktime s := by
  cases step with
  | newDelta fresh => exact (tmNewDeltaTimer_creation _ _ _ _ _ s).owned_iff fresh owned
  | @newAbs o preTime para _ _ fresh returned =>
      simp only [Call.Unrecorded]
      rcases tmNewAbsTimer_creation returned with ⟨reason, rfl⟩ | ⟨diffSec, found, creation⟩
      · refine iff_of_true owned ?_
        intro diffSec found slot timerid free
        rcases reason with full | ⟨ret, early⟩
        · simp [full] at free
        · simp [early] at found
      · rw [creation.owned_iff fresh owned]
        constructor
        · intro unrecorded diffSec' found'
          cases found.symm.trans found'
          exact unrecorded
        · intro unrecorded
          exact unrecorded diffSec found
  | @delete idx =>
      refine iff_of_true ?_ trivial
      unfold Timer.tmDelete
      cases slotOf idx with
      | none => exact owned
      | some i => exact owned.deleteSlot i
  | @reset idx =>
      refine iff_of_true ?_ trivial
      unfold Timer.tmReset
      cases slotOf idx with
      | none => exact owned
      | some i => exact owned.resetSlot i
  | @expire timerid it live armed =>
      exact iff_of_true (owned.of_live_iff (update_live_iff (by simp [live]) _)) trivial

/-- In a run the slots are the owners of their timers throughout exactly if no new timer gets the
id that a slot still records which stays free, or an id that its slot cannot record.
-/
theorem owned_run_iff {mktime : Tm → Int} {trace : List (State × Call)} {s : State}
    (run : Run (Step mktime) State.initial trace s)
    : ((∀ taken ∈ trace, Owned taken.1) ∧ Owned s)
      ↔ ∀ taken ∈ trace, taken.2.Unrecorded mktime taken.1 :=
  run.throughout_iff Owned (fun s call => call.Unrecorded mktime s) State.initial_owned
    Step.owned_iff

/-- Witness: a timer is created, deleted and created again with the same id in the same slot. -/
theorem owned_run_recreated
    : ∃ trace s,
        Run (Step fun _ => 0) State.initial trace s
        ∧ trace.map Prod.snd
          = [.newDelta ⟨some 1, true⟩ 1 5 0 0, .delete 0, .newDelta ⟨some 1, true⟩ 0 9 0 0]
        ∧ (∀ taken ∈ trace, Owned taken.1)
        ∧ Owned s := by
  have created := Run.start.extend (@Step.newDelta (fun _ => 0) State.initial
    ⟨some 1, true⟩ 1 5 0 0 (by rintro _ ⟨⟩; rfl))
  have deleted := created.extend (@Step.delete _ _ 0)
  have run := deleted.extend (@Step.newDelta _ _ ⟨some 1, true⟩ 0 9 0 0 (by rintro _ ⟨⟩; rfl))
  refine ⟨_, _, run, rfl, (owned_run_iff run).mpr ?_⟩
  simp only [List.nil_append, List.cons_append, List.forall_mem_cons, List.not_mem_nil,
    false_implies, implies_true, and_true]
  refine ⟨?_, trivial, ?_⟩
  · rintro slot _ - ⟨⟩
    exact ⟨fun i unused same => (by cases same), fun _ => .inl (by decide)⟩
  · rintro slot _ free ⟨⟩
    have first : slot = ⟨0, by decide⟩ := (Option.some.inj free).symm
    refine ⟨fun i _ same => ⟨?_, rfl, by decide, by decide⟩, fun _ => .inl (by decide)⟩
    rw [first]
    revert i
    decide +kernel

/-- Two timers are created and deleted, and a third one gets the id of the second. -/
def reusedId : List Call :=
  [.newDelta ⟨some 1, true⟩ 1 5 0 0, .newDelta ⟨some 2, true⟩ 1 5 0 0, .delete 0, .delete 1,
    .newDelta ⟨some 2, true⟩ 1 5 0 0]

/-- The third timer is in the first slot, but deleting the second slot once more deletes it. -/
theorem not_owned_reusedId
    : ∃ trace s,
        Run (Step fun _ => 0) State.initial trace s
        ∧ trace.map Prod.snd = reusedId
        ∧ ¬Owned s := by
  have first := Run.start.extend (@Step.newDelta (fun _ => 0) State.initial
    ⟨some 1, true⟩ 1 5 0 0 (by rintro _ ⟨⟩; rfl))
  have second := first.extend (@Step.newDelta _ _ ⟨some 2, true⟩ 1 5 0 0 (by rintro _ ⟨⟩; rfl))
  have deleted := (second.extend (@Step.delete _ _ 0)).extend (@Step.delete _ _ 1)
  have third := deleted.extend (@Step.newDelta _ _ ⟨some 2, true⟩ 1 5 0 0 (by rintro _ ⟨⟩; rfl))
  refine ⟨_, _, third, rfl, ?_⟩
  intro owned
  have same := owned.deleteHarmless (i := ⟨1, by decide⟩) rfl
  have gone := congrFun same 2
  revert gone
  decide

end Cvos.Timer

import Cvos.Lib.CBuffer
import Cvos.Lib.Transition

/-! The days of use that `auth.c` counts. Two statics belong to the process, and the count itself
is kept in a file, which outlives the process.
-/

namespace Cvos.Auth

open Cvos.Lib

/-- The statics of a process, and the value under `[stat]` `days` in the file, if there is one. -/
structure State where
  gBaseDays : Int
  gLostDays : Int
  statDays : Option Int
  deriving DecidableEq, Repr

/-- A process that starts with the file as it is. -/
def State.started (statDays : Option Int) : State := ⟨0, 0, statDays⟩

/-- `oneday` -/
def oneday : Int := 24 * 3600

/-- The day of a clock reading, on which `localtime` and `mktime` have no effect. -/
def nowDays (timep : Int) : Int := int32 (timep.tdiv oneday)

/-- `Auth_VerifyDateAuth` at a clock reading. What it reads from the file is lost at its end. -/
def verifyDateAuth (timep expireDays : Int) (s : State) : Int × State :=
  let first := s.gBaseDays ≤ 0
  let baseDays := if first then nowDays timep else s.gBaseDays
  let goingDays := if first then s.statDays.getD 0 else 0
  let diff := int32 (nowDays timep - baseDays)
  let baseDays := if diff < 0 then nowDays timep else baseDays
  if diff > s.gLostDays then
    (if diff + goingDays > expireDays then -1 else 0, ⟨baseDays, diff, some (diff + goingDays)⟩)
  else
    (0, { s with gBaseDays := baseDays })

/-- A call, or a restart of the process. -/
inductive Event where
  | call (timep expireDays : Int)
  | restart
  deriving DecidableEq, Repr

/-- The state after an event. -/
def State.after (s : State) : Event → State
  | .call timep expireDays => (verifyDateAuth timep expireDays s).2
  | .restart => .started s.statDays

/-- A step to the state after an event. -/
def Step (s : State) (e : Event) (s' : State) : Prop := s' = s.after e

/-- The stored count does not go back: it stays there, and it is no smaller. -/
def NotBack (s s' : State) : Prop :=
  ∀ days ∈ s.statDays, ∃ days' ∈ s'.statDays, days ≤ days'

instance : DecidableRel NotBack := fun s s' =>
  inferInstanceAs (Decidable (∀ days ∈ s.statDays, ∃ days' ∈ s'.statDays, days ≤ days'))

/-- The count of a process that has not counted a day yet does not fall behind the stored one when
it counts the first days.
-/
def Event.CatchesUp (s : State) : Event → Prop
  | .call timep _ =>
      0 < s.gBaseDays
      → s.gLostDays = 0
      → 0 < int32 (nowDays timep - s.gBaseDays)
      → ∀ days ∈ s.statDays, days ≤ int32 (nowDays timep - s.gBaseDays)
  | .restart => True

instance (s : State) : (e : Event) → Decidable (e.CatchesUp s)
  | .call timep _ =>
      inferInstanceAs (Decidable (0 < s.gBaseDays
        → s.gLostDays = 0
        → 0 < int32 (nowDays timep - s.gBaseDays)
        → ∀ days ∈ s.statDays, days ≤ int32 (nowDays timep - s.gBaseDays)))
  | .restart => inferInstanceAs (Decidable True)

/-- A process that has counted days has stored their number. -/
structure Counted (s : State) : Prop where
  nonneg : 0 ≤ s.gLostDays
  stored : 0 < s.gLostDays → s.statDays = some s.gLostDays

/-- The days that a call finds have passed since the first one of its process. -/
def newDays (s : State) (timep : Int) : Int := int32 (nowDays timep - s.gBaseDays)

/-- A call counts days if it is not the first one of its process, and finds more of them than those
before it. It then stores the days of its own process, since what the first call read is lost.
-/
theorem verifyDateAuth_cases (timep expireDays : Int) {s : State} (nonneg : 0 ≤ s.gLostDays)
    : ((0 < s.gBaseDays ∧ s.gLostDays < newDays s timep)
        ∧ (verifyDateAuth timep expireDays s).2.gLostDays = newDays s timep
        ∧ (verifyDateAuth timep expireDays s).2.statDays = some (newDays s timep))
      ∨ (¬(0 < s.gBaseDays ∧ s.gLostDays < newDays s timep)
        ∧ (verifyDateAuth timep expireDays s).2.gLostDays = s.gLostDays
        ∧ (verifyDateAuth timep expireDays s).2.statDays = s.statDays) := by
  unfold verifyDateAuth
  by_cases first : s.gBaseDays ≤ 0
  · have same : int32 (nowDays timep - nowDays timep) = 0 := by simp [int32]
    simp only [first, if_true, same]
    rw [if_neg (Int.not_lt.mpr nonneg)]
    exact .inr ⟨fun both => by omega, rfl, rfl⟩
  · simp only [first, if_false, Int.add_zero]
    by_cases more : int32 (nowDays timep - s.gBaseDays) > s.gLostDays
    · rw [if_pos more]
      exact .inl ⟨⟨by omega, more⟩, rfl, rfl⟩
    · rw [if_neg more]
      exact .inr ⟨fun both => more both.2, rfl, rfl⟩

/-- Every event keeps the relation between the days counted and the days stored. -/
theorem Counted.after {s : State} (counted : Counted s) (e : Event) : Counted (s.after e) := by
  cases e with
  | restart => exact ⟨Int.le_refl 0, fun positive => absurd positive (Int.lt_irrefl 0)⟩
  | call timep expireDays =>
      rcases verifyDateAuth_cases timep expireDays counted.nonneg with
        ⟨counts, lost, stored⟩ | ⟨-, lost, stored⟩
      · constructor
        · rw [State.after, lost]
          exact Int.le_of_lt (Int.lt_of_le_of_lt counted.nonneg counts.2)
        · intro _
          rw [State.after, lost, stored]
      · constructor
        · rw [State.after, lost]
          exact counted.nonneg
        · rw [State.after, lost, stored]
          exact counted.stored

/-- An event does not take the count back exactly if a process catches up when it starts to count:
once it has, what it stored is what it counted.
-/
theorem notBack_after_iff {s : State} (counted : Counted s) (e : Event)
    : NotBack s (s.after e) ↔ e.CatchesUp s := by
  cases e with
  | restart => exact iff_of_true (fun days stored => ⟨days, stored, Int.le_refl days⟩) trivial
  | call timep expireDays =>
      rcases verifyDateAuth_cases timep expireDays counted.nonneg with
        ⟨counts, -, stored⟩ | ⟨counts, -, stored⟩
      · constructor
        · intro notBack _ _ _ days kept
          obtain ⟨days', kept', le⟩ := notBack days kept
          cases stored.symm.trans kept'
          exact le
        · intro catchesUp days kept
          refine ⟨newDays s timep, stored, ?_⟩
          rcases Int.lt_or_eq_of_le counted.nonneg with counting | first
          · cases kept.symm.trans (counted.stored counting)
            exact Int.le_of_lt counts.2
          · exact catchesUp counts.1 first.symm (first ▸ counts.2) days kept
      · refine iff_of_true (fun days kept => ⟨days, stored.trans kept, Int.le_refl days⟩) ?_
        intro started first positive
        exact absurd ⟨started, by rw [first]; exact positive⟩ counts

/-- Over any run of calls and restarts, at any clock, the stored count never goes back exactly if
each process catches up with it when it starts to count.
-/
theorem days_run_iff {statDays : Option Int} {trace : List (State × Event)} {s : State}
    (run : Run Step (.started statDays) trace s)
    : (trace.map Prod.fst ++ [s]).IsChain NotBack
      ↔ ∀ taken ∈ trace, taken.2.CatchesUp taken.1 := by
  refine run.chain_iff Counted NotBack (fun s e => e.CatchesUp s) ?_ ?_ ?_
  · exact ⟨Int.le_refl 0, fun positive => absurd positive (Int.lt_irrefl 0)⟩
  · rintro s e _ rfl counted
    exact counted.after e
  · rintro s e _ rfl counted
    exact notBack_after_iff counted e

/-- Witness: a process counts a day, and the next one counts three. -/
theorem days_run_catchesUp
    : ∃ trace s,
        Run Step (.started none) trace s
        ∧ trace.map Prod.snd
          = [.call 86400 3650, .call 172800 3650, .restart, .call 172800 3650, .call 432000 3650]
        ∧ (trace.map Prod.fst ++ [s]).IsChain NotBack
        ∧ s.statDays = some 3 := by
  have first := Run.start.extend (show Step (.started none) (.call 86400 3650) _ from rfl)
  have second := first.extend (show Step _ (.call 172800 3650) _ from rfl)
  have restarted := second.extend (show Step _ .restart _ from rfl)
  have third := restarted.extend (show Step _ (.call 172800 3650) _ from rfl)
  have run := third.extend (show Step _ (.call 432000 3650) _ from rfl)
  exact ⟨_, _, run, rfl, (days_run_iff run).mpr (by decide), rfl⟩

/-- A process counts five days, and the next one counts one. -/
theorem days_run_back
    : ∃ trace s,
        Run Step (.started none) trace s
        ∧ trace.map Prod.snd
          = [.call 86400 3650, .call 518400 3650, .restart, .call 518400 3650, .call 604800 3650]
        ∧ ¬(trace.map Prod.fst ++ [s]).IsChain NotBack := by
  have first := Run.start.extend (show Step (.started none) (.call 86400 3650) _ from rfl)
  have second := first.extend (show Step _ (.call 518400 3650) _ from rfl)
  have restarted := second.extend (show Step _ .restart _ from rfl)
  have third := restarted.extend (show Step _ (.call 518400 3650) _ from rfl)
  have run := third.extend (show Step _ (.call 604800 3650) _ from rfl)
  exact ⟨_, _, run, rfl, by decide⟩

end Cvos.Auth

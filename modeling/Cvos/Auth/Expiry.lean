import Cvos.Auth.DayCount

/-! Whether a process that has said that the days are due goes on saying so. The check is made
only by a call that counts a new day.
-/

namespace Cvos.Auth

open Cvos.Lib

/-- A call of `Auth_VerifyDateAuth` with the limit `expireDays`, in a process that goes on. -/
def CallStep (expireDays : Int) (s : State) (timep : Int) (s' : State) : Prop :=
  Step s (.call timep expireDays) s'

/-- A call says that the days are due. -/
def Due (expireDays : Int) (s : State) (timep : Int) : Prop :=
  (verifyDateAuth timep expireDays s).1 = -1

instance (expireDays : Int) (s : State) (timep : Int) : Decidable (Due expireDays s timep) :=
  inferInstanceAs (Decidable ((verifyDateAuth timep expireDays s).1 = -1))

/-- The process has counted more days than the limit. -/
def Overdue (expireDays : Int) (s : State) : Prop := 0 < s.gLostDays ∧ expireDays < s.gLostDays

/-- A call counts a new day. -/
def CountsDay (s : State) (timep : Int) : Prop :=
  0 < s.gBaseDays ∧ s.gLostDays < newDays s timep

instance (expireDays : Int) (s : State) : Decidable (Overdue expireDays s) :=
  inferInstanceAs (Decidable (0 < s.gLostDays ∧ expireDays < s.gLostDays))

instance (s : State) (timep : Int) : Decidable (CountsDay s timep) :=
  inferInstanceAs (Decidable (0 < s.gBaseDays ∧ s.gLostDays < newDays s timep))

/-- The days are due when a call counts a day over the limit. -/
theorem due_iff (expireDays timep : Int) {s : State} (nonneg : 0 ≤ s.gLostDays)
    : Due expireDays s timep ↔ CountsDay s timep ∧ expireDays < newDays s timep := by
  unfold Due verifyDateAuth CountsDay newDays
  by_cases first : s.gBaseDays ≤ 0
  · have same : int32 (nowDays timep - nowDays timep) = 0 := by simp [int32]
    simp only [first, if_true, same]
    rw [if_neg (Int.not_lt.mpr nonneg)]
    refine iff_of_false (by simp) ?_
    omega
  · simp only [first, if_false, Int.add_zero]
    by_cases more : int32 (nowDays timep - s.gBaseDays) > s.gLostDays
    · rw [if_pos more]
      by_cases exceeded : int32 (nowDays timep - s.gBaseDays) > expireDays
      · rw [if_pos exceeded]
        exact iff_of_true rfl ⟨⟨by omega, more⟩, exceeded⟩
      · rw [if_neg exceeded]
        exact iff_of_false (by simp) fun both => exceeded both.2
    · rw [if_neg more]
      exact iff_of_false (by simp) fun both => more both.1.2

/-- A process is overdue after a call if it was before, or the call says that the days are due. -/
theorem overdue_after_iff (expireDays timep : Int) {s : State} (counted : Counted s)
    : Overdue expireDays (s.after (.call timep expireDays))
      ↔ Overdue expireDays s ∨ Due expireDays s timep := by
  have nonneg := counted.nonneg
  rw [due_iff expireDays timep nonneg]
  rcases verifyDateAuth_cases timep expireDays nonneg with ⟨counts, lost, -⟩ | ⟨same, lost, -⟩
  · rw [Overdue, Overdue, CountsDay, State.after, lost]
    omega
  · rw [Overdue, Overdue, CountsDay, State.after, lost]
    exact ⟨.inl, fun either => either.resolve_right fun due => same due.1⟩

/-- Over any run of calls of one process, with one limit and at any clock, the calls after one that
says that the days are due all say so exactly if each call of an overdue process counts a new day.
-/
theorem due_run_iff {expireDays : Int} {statDays : Option Int} {trace : List (State × Int)}
    {s : State} (run : Run (CallStep expireDays) (.started statDays) trace s)
    : trace.Pairwise (fun earlier later =>
        Due expireDays earlier.1 earlier.2 → Due expireDays later.1 later.2)
      ↔ ∀ taken ∈ trace, Overdue expireDays taken.1 → CountsDay taken.1 taken.2 := by
  have initial : Counted (.started statDays) :=
    ⟨Int.le_refl 0, fun positive => absurd positive (Int.lt_irrefl 0)⟩
  have keeps {current next : State} {timep : Int} (moved : CallStep expireDays current timep next)
      (counted : Counted current)
      : Counted next := by
    obtain rfl := moved
    exact counted.after _
  rw [run.raised_pairwise_iff Counted (Overdue expireDays) (Due expireDays) initial
    (fun overdue => absurd overdue.1 (Int.lt_irrefl 0)) keeps ?_]
  · have counted := (run.throughout Counted initial keeps).1
    refine forall₂_congr fun taken member => imp_congr_right fun overdue => ?_
    rw [due_iff _ _ (counted taken member).nonneg]
    refine ⟨And.left, fun counts => ⟨counts, ?_⟩⟩
    exact Int.lt_trans overdue.2 counts.2
  · intro current timep next moved counted
    obtain rfl := moved
    exact overdue_after_iff expireDays timep counted

/-- Witness: two calls on different days after the limit. -/
theorem due_run_days
    : ∃ trace s,
        Run (CallStep 1) (.started none) trace s
        ∧ trace.map Prod.snd = [864000, 1036800, 1123200]
        ∧ trace.Pairwise (fun earlier later =>
            Due 1 earlier.1 earlier.2 → Due 1 later.1 later.2) := by
  have first := Run.start.extend (show CallStep 1 (.started none) 864000 _ from rfl)
  have second := first.extend (show CallStep 1 _ 1036800 _ from rfl)
  have run := second.extend (show CallStep 1 _ 1123200 _ from rfl)
  exact ⟨_, _, run, rfl, (due_run_iff run).mpr (by decide)⟩

/-- A second call on the day on which the days are due says that they are not. -/
theorem due_run_again
    : ∃ trace s,
        Run (CallStep 1) (.started none) trace s
        ∧ trace.map Prod.snd = [864000, 1036800, 1036800]
        ∧ (trace.map Prod.snd).Pairwise (· ≤ ·)
        ∧ ¬trace.Pairwise (fun earlier later =>
            Due 1 earlier.1 earlier.2 → Due 1 later.1 later.2) := by
  have first := Run.start.extend (show CallStep 1 (.started none) 864000 _ from rfl)
  have second := first.extend (show CallStep 1 _ 1036800 _ from rfl)
  have run := second.extend (show CallStep 1 _ 1036800 _ from rfl)
  exact ⟨_, _, run, rfl, by decide, by decide⟩

end Cvos.Auth

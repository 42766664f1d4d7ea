/-! Replaying a finite list of calls on a machine that may become undefined, and the
refinement rule that carries a one-call simulation to whole replays.
-/

namespace Cvos.Lib

section Replays

variable {Concrete Abstract Call Reply : Type}

/-- Perform the calls in order, collecting the replies; `none` once a call is undefined. -/
def replay (call : Concrete → Call → Option (Reply × Concrete))
    : Concrete → List Call → Option (List Reply × Concrete)
  | state, [] => some ([], state)
  | state, next :: rest => do
      let (reply, state) ← call state next
      let (replies, state) ← replay call state rest
      return (reply :: replies, state)

/-- Perform the calls in order on a machine in which every call is defined. -/
def replaySpec (call : Abstract → Call → Reply × Abstract)
    : Abstract → List Call → List Reply × Abstract
  | state, [] => ([], state)
  | state, next :: rest =>
      let (reply, state) := call state next
      let (replies, state) := replaySpec call state rest
      (reply :: replies, state)

/-- When every call is defined, answers as specified and keeps the two states related, so
does every replay. Witness: induction on the calls.
-/
theorem replay_refines {call : Concrete → Call → Option (Reply × Concrete)}
    {spec : Abstract → Call → Reply × Abstract} {related : Concrete → Abstract → Prop}
    (simulates
      : ∀ {concrete abstract} next,
          related concrete abstract
          → ∃ after,
              call concrete next = some ((spec abstract next).1, after)
              ∧ related after (spec abstract next).2)
    (calls : List Call) {concrete : Concrete} {abstract : Abstract}
    (initial : related concrete abstract)
    : ∃ after,
        replay call concrete calls = some ((replaySpec spec abstract calls).1, after)
        ∧ related after (replaySpec spec abstract calls).2 := by
  induction calls generalizing concrete abstract with
  | nil => exact ⟨concrete, rfl, initial⟩
  | cons next rest ih =>
      obtain ⟨middle, first, kept⟩ := simulates next initial
      obtain ⟨after, later, final⟩ := ih kept
      exact ⟨after, by simp [replay, replaySpec, first, later], final⟩

end Replays

end Cvos.Lib

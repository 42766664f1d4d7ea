import Cvos.Lib.Transition

/-! The value that a finite run of writes gives to a key last, and the rule that a store whose
steps are such writes reads like a map.
-/

namespace Cvos.Lib

section Writes

variable {State Label Key Value : Type} [DecidableEq Key] (target : Label → Key)
  (value : Label → Value)

/-- The value of the last step that writes to the key. -/
def lastWrite (trace : List (State × Label)) (key : Key) : Option Value :=
  trace.reverse.findSome? fun taken =>
    if target taken.2 = key then some (value taken.2) else none

/-- A further step gives its target its value, and no value to any other key. -/
theorem lastWrite_append (trace : List (State × Label)) (state : State) (label : Label) (key : Key)
    : lastWrite target value (trace ++ [(state, label)]) key
      = if target label = key then some (value label) else lastWrite target value trace key := by
  rw [lastWrite, List.reverse_append, List.reverse_singleton, List.singleton_append,
    List.findSome?_cons]
  by_cases written : target label = key
  · simp [written]
  · simp [written, lastWrite]

variable {step : State → Label → State → Prop} {Seen : Type} (read : State → Key → Option Seen)
  (seen : Value → Seen)

/-- When a step shows what its value is read as under its key, and leaves the other keys as they
were, every run from an empty store is read as its last writes. A step may use an invariant of
the states, and that it occurs in the run.
-/
theorem Run.read_eq_lastWrite {start state : State} {trace : List (State × Label)}
    (run : Run step start trace state) (holds : State → Prop) (initial : holds start)
    (empty : ∀ key, read start key = none)
    (keeps
      : ∀ {current label next},
          (current, label) ∈ trace
          → step current label next
          → holds current
          → holds next
            ∧ read next (target label) = some (seen (value label))
            ∧ ∀ key, key ≠ target label → read next key = read current key)
    : holds state ∧ ∀ key, read state key = (lastWrite target value trace key).map seen := by
  induction run with
  | start => exact ⟨initial, empty⟩
  | @extend before current label next earlier taken ih =>
      obtain ⟨held, same⟩ :=
        ih fun member moved => keeps (List.mem_append_left _ member) moved
      obtain ⟨holds, written, others⟩ := keeps (by simp) taken held
      refine ⟨holds, ?_⟩
      intro key
      rw [lastWrite_append]
      split
      next here => rw [← here, written, Option.map_some]
      next other => rw [others key (Ne.symm other), same key]

end Writes

end Cvos.Lib

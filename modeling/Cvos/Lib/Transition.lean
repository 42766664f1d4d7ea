import Mathlib.Data.List.Chain

/-! Finite runs of a labelled transition system, with the induction rules used on them.
Nothing here depends on the states or labels: an instance supplies its step relation.
-/

namespace Cvos.Lib

section Runs

variable {State Label : Type} {step : State → Label → State → Prop}

/-- A finite run from `start`, with the list of the pairs (state before the step, label)
in the order of the steps and the state reached at its end.
-/
inductive Run (step : State → Label → State → Prop) (start : State)
    : List (State × Label) → State → Prop
  | start : Run step start [] start
  | extend {trace state label next} (before : Run step start trace state)
    (taken : step state label next)
    : Run step start (trace ++ [(state, label)]) next

/-- A state is reachable when some finite run ends in it. -/
def Reachable (step : State → Label → State → Prop) (start state : State) : Prop :=
  ∃ trace, Run step start trace state

/-- A step leads from a reachable state to another one. -/
theorem Reachable.extend {start state next : State} {label : Label}
    (reached : Reachable step start state) (taken : step state label next)
    : Reachable step start next := by
  obtain ⟨trace, run⟩ := reached
  exact ⟨_, run.extend taken⟩

/-- A predicate that holds initially and is kept by every step of the run holds at its end.
A step may use that it occurs in the trace, so conditions on the run's steps are available.
-/
theorem Run.invariant {start state : State} {trace : List (State × Label)}
    (run : Run step start trace state) (holds : State → Prop) (initial : holds start)
    (keeps
      : ∀ {current label next},
          (current, label) ∈ trace
          → step current label next
          → holds current
          → holds next)
    : holds state := by
  induction run with
  | start => exact initial
  | extend before taken ih =>
      refine keeps (by simp) taken (ih ?_)
      intro current label next member moved
      exact keeps (List.mem_append_left _ member) moved

/-- An invariant of every step, started in the initial state, holds in each reachable state.
-/
theorem Reachable.invariant {start state : State} (reached : Reachable step start state)
    (holds : State → Prop) (initial : holds start)
    (keeps : ∀ {current label next}, step current label next → holds current → holds next)
    : holds state := by
  obtain ⟨trace, run⟩ := reached
  exact run.invariant holds initial (fun _ taken => keeps taken)

/-- An invariant of every step, started in the initial state, holds in all states of a run. -/
theorem Run.throughout {start state : State} {trace : List (State × Label)}
    (run : Run step start trace state) (holds : State → Prop) (initial : holds start)
    (keeps : ∀ {current label next}, step current label next → holds current → holds next)
    : (∀ taken ∈ trace, holds taken.1) ∧ holds state := by
  induction run with
  | start => exact ⟨by simp, initial⟩
  | extend before taken ih =>
      obtain ⟨earlier, now⟩ := ih
      exact ⟨List.forall_mem_append.mpr ⟨earlier, List.forall_mem_singleton.mpr now⟩,
        keeps taken now⟩

/-- When a step from a state of the invariant leads to a good state exactly under a condition on the
state and the label, and keeps the invariant then, the states of a run are all good exactly if its
steps all meet the condition.
Witness: up to the first step that fails it, every state is one of the invariant.
-/
theorem Run.throughout_iff_of_invariant {start state : State} {trace : List (State × Label)}
    (run : Run step start trace state) (invariant holds : State → Prop)
    (condition : State → Label → Prop) (initial : invariant start) (good : holds start)
    (step_iff
      : ∀ {current label next},
          step current label next
          → invariant current
          → (holds next ↔ condition current label))
    (keeps
      : ∀ {current label next},
          step current label next
          → invariant current
          → condition current label
          → invariant next)
    : ((∀ taken ∈ trace, holds taken.1) ∧ holds state)
      ↔ ∀ taken ∈ trace, condition taken.1 taken.2 := by
  have along
      : (((∀ taken ∈ trace, holds taken.1) ∧ holds state)
          ↔ ∀ taken ∈ trace, condition taken.1 taken.2)
        ∧ ((∀ taken ∈ trace, condition taken.1 taken.2) → invariant state) := by
    induction run with
    | start => simp [initial, good]
    | @extend trace state label next before taken ih =>
        obtain ⟨same, invariantAt⟩ := ih
        simp only [List.forall_mem_append, List.forall_mem_singleton]
        refine ⟨⟨?_, ?_⟩, ?_⟩
        · rintro ⟨⟨earlier, now⟩, reached⟩
          have conditions := same.mp ⟨earlier, now⟩
          exact ⟨conditions, (step_iff taken (invariantAt conditions)).mp reached⟩
        · rintro ⟨conditions, last⟩
          exact ⟨same.mpr conditions, (step_iff taken (invariantAt conditions)).mpr last⟩
        · rintro ⟨conditions, last⟩
          exact keeps taken (invariantAt conditions) last
  exact along.1

/-- When a step from a good state leads to a good state exactly under a condition on the state and
the label, the states of a run are all good exactly if its steps all meet the condition.
-/
theorem Run.throughout_iff {start state : State} {trace : List (State × Label)}
    (run : Run step start trace state) (holds : State → Prop) (condition : State → Label → Prop)
    (initial : holds start)
    (step_iff
      : ∀ {current label next},
          step current label next → holds current → (holds next ↔ condition current label))
    : ((∀ taken ∈ trace, holds taken.1) ∧ holds state)
      ↔ ∀ taken ∈ trace, condition taken.1 taken.2 :=
  run.throughout_iff_of_invariant holds holds condition initial initial step_iff
    fun taken now met => (step_iff taken now).mpr met

/-- When a step from a state of the invariant leads to a related state exactly under a condition
on the state and the label, the successive states of a run are related exactly if its steps all
meet the condition.
-/
theorem Run.chain_iff {start state : State} {trace : List (State × Label)}
    (run : Run step start trace state) (holds : State → Prop) (related : State → State → Prop)
    (condition : State → Label → Prop) (initial : holds start)
    (keeps : ∀ {current label next}, step current label next → holds current → holds next)
    (step_iff
      : ∀ {current label next},
          step current label next
          → holds current
          → (related current next ↔ condition current label))
    : (trace.map Prod.fst ++ [state]).IsChain related
      ↔ ∀ taken ∈ trace, condition taken.1 taken.2 := by
  induction run with
  | start => simp
  | @extend trace state label next before taken ih =>
      have now := before.invariant holds initial (fun _ moved => keeps moved)
      rw [List.map_append, List.map_singleton, List.isChain_append, ih, List.forall_mem_append,
        List.forall_mem_singleton, ← step_iff taken now]
      simp

/-- A latch that each step sets or leaves alone is set at the end of a run exactly if some step
has set it.
-/
theorem Run.latched_iff {start state : State} {trace : List (State × Label)}
    (run : Run step start trace state) (holds latched : State → Prop)
    (raised : State → Label → Prop) (initial : holds start) (unset : ¬latched start)
    (keeps : ∀ {current label next}, step current label next → holds current → holds next)
    (step_iff
      : ∀ {current label next},
          step current label next
          → holds current
          → (latched next ↔ latched current ∨ raised current label))
    : latched state ↔ ∃ taken ∈ trace, raised taken.1 taken.2 := by
  induction run with
  | start => simp [unset]
  | @extend trace state label next before taken ih =>
      have now := before.invariant holds initial (fun _ moved => keeps moved)
      rw [step_iff taken now, ih]
      simp [or_and_right, exists_or]

/-- Once a step has raised an alarm all later ones raise it, exactly if every step does that is
taken with the latch set.
-/
theorem Run.raised_pairwise_iff {start state : State} {trace : List (State × Label)}
    (run : Run step start trace state) (holds latched : State → Prop)
    (raised : State → Label → Prop) (initial : holds start) (unset : ¬latched start)
    (keeps : ∀ {current label next}, step current label next → holds current → holds next)
    (step_iff
      : ∀ {current label next},
          step current label next
          → holds current
          → (latched next ↔ latched current ∨ raised current label))
    : trace.Pairwise (fun earlier later => raised earlier.1 earlier.2 → raised later.1 later.2)
      ↔ ∀ taken ∈ trace, latched taken.1 → raised taken.1 taken.2 := by
  induction run with
  | start => simp
  | @extend trace state label next before taken ih =>
      have latch := before.latched_iff holds latched raised initial unset keeps step_iff
      rw [List.pairwise_append, ih, List.forall_mem_append, List.forall_mem_singleton, latch]
      simp

end Runs

end Cvos.Lib

import Cvos.Lib.Transition
import Cvos.RingBuf.Refinement
import Mathlib.Algebra.Group.Nat.Defs

/-! Any number of threads on one ring buffer. A step runs one thread from an acquisition of
the mutex to its next release, or executes what the thread still does after an unlock.
-/

namespace Cvos.RingBuf

open Cvos.Lib

variable {Datum : Type}

-----------------------------------------------------------------------------------------
-- The transition system
-----------------------------------------------------------------------------------------

/-- Where a thread stands between two steps: outside the buffer's code, waiting on a
condition variable, or past the unlock of `ringbuf_dequeue_blocking` with `r->num --` to do.
-/
inductive Pc (Datum : Type) where
  | idle
  | enqueueWait (d : Datum)
  | dequeueWait
  | decrement
deriving DecidableEq, Repr

def Pc.decrementing : Pc Datum → Bool
  | .decrement => true
  | _ => false

@[simp] theorem Pc.decrementing_idle : (Pc.idle : Pc Datum).decrementing = false := rfl

/-- The shared buffer and the threads, with the history of the data in lock order: accepted
by an enqueue and delivered by a dequeue. The code does not read the history.
-/
structure System (Datum : Type) where
  ring : Ringbuf Datum
  threads : List (Pc Datum)
  accepted : List Datum
  delivered : List Datum
deriving DecidableEq, Repr

inductive Action (Datum : Type) where
  | enqueue (d : Datum)
  | dequeue (output : Datum)
  | enqueueBlocking (d : Datum)
  | dequeueBlocking
  | decrement
deriving DecidableEq, Repr

def Action.blocking : Action Datum → Bool
  | .enqueue _ | .dequeue _ => false
  | .enqueueBlocking _ | .dequeueBlocking | .decrement => true

/-- The thread taking the step, by its index, and what it does. -/
structure Label (Datum : Type) where
  thread : Nat
  action : Action Datum
deriving DecidableEq, Repr

/-- One step of one thread. A waiting thread may take its next pass at any time, which
covers broadcasts and spurious wakeups alike.
-/
inductive Step : System Datum → Label Datum → System Datum → Prop
  | enqueue {s thread d code ring} (idle : s.threads[thread]? = some .idle)
    (critical : ringbufEnqueue s.ring d = some (code, ring))
    : Step s ⟨thread, .enqueue d⟩ { s with ring, accepted := s.accepted ++ [d] }
  | dequeue {s thread output code value ring} (idle : s.threads[thread]? = some .idle)
    (critical : ringbufDequeue s.ring output = some (code, value, ring))
    : Step s ⟨thread, .dequeue output⟩
        {
          s with
          ring
          delivered := if code = 0 then s.delivered ++ [value] else s.delivered
        }
  | enqueueWaits {s thread d}
    (ready : s.threads[thread]? = some .idle ∨ s.threads[thread]? = some (.enqueueWait d))
    (critical : ringbufEnqueueBlocking s.ring d = some .wait)
    : Step s ⟨thread, .enqueueBlocking d⟩
        { s with threads := s.threads.set thread (.enqueueWait d) }
  | enqueueUnlocks {s thread d ring}
    (ready : s.threads[thread]? = some .idle ∨ s.threads[thread]? = some (.enqueueWait d))
    (critical : ringbufEnqueueBlocking s.ring d = some (.unlock ring))
    : Step s ⟨thread, .enqueueBlocking d⟩
        {
          s with
          ring
          threads := s.threads.set thread .idle
          accepted := s.accepted ++ [d]
        }
  | dequeueWaits {s thread}
    (ready : s.threads[thread]? = some .idle ∨ s.threads[thread]? = some .dequeueWait)
    (critical : ringbufDequeueBlocking s.ring = some .wait)
    : Step s ⟨thread, .dequeueBlocking⟩
        { s with threads := s.threads.set thread .dequeueWait }
  | dequeueUnlocks {s thread value ring}
    (ready : s.threads[thread]? = some .idle ∨ s.threads[thread]? = some .dequeueWait)
    (critical : ringbufDequeueBlocking s.ring = some (.unlock (value, ring)))
    : Step s ⟨thread, .dequeueBlocking⟩
        {
          s with
          ring
          threads := s.threads.set thread .decrement
          delivered := s.delivered ++ [value]
        }
  | decrement {s thread} (ready : s.threads[thread]? = some .decrement)
    : Step s ⟨thread, .decrement⟩
        {
          s with
          ring := dequeueBlockingEpilogue s.ring
          threads := s.threads.set thread .idle
        }

/-- A freshly initialized buffer and `threads` idle threads. -/
def startSystem (size : UInt64) (arr : List Datum) (threads : Nat) : System Datum :=
  {
    ring := ringbufInit size arr
    threads := List.replicate threads .idle
    accepted := []
    delivered := []
  }

/-- Number of threads that have left `ringbuf_dequeue_blocking`'s critical section and not
yet decremented the counter.
-/
def pendingDecrements (s : System Datum) : Nat := s.threads.countP Pc.decrementing

-----------------------------------------------------------------------------------------
-- One invariant for all four operations
-----------------------------------------------------------------------------------------

/-- Whatever the interleaving, the buffer represents some queue, and the counter exceeds the
queue's length by the decrements that are still to come.
-/
structure Consistent (size : UInt64) (s : System Datum) (queue : List Datum) : Prop where
  represents : Represents s.ring queue
  sameSize : s.ring.size = size
  counted : s.ring.num = UInt64.ofNat (queue.length + pendingDecrements s)

/-- The initial system is consistent with the empty queue. -/
theorem Consistent.start {size : UInt64} {arr : List Datum} (positive : 0 < size.toNat)
    (backed : arr.length = size.toNat) (threads : Nat)
    : Consistent size (startSystem size arr threads) [] where
  represents := (Tracks.init positive backed).represents
  sameSize := rfl
  counted := by simp [startSystem, pendingDecrements, ringbufInit, List.countP_replicate]

/-- Moving a thread between program points with the same decrement duty changes no count. -/
theorem countP_set_same {threads : List (Pc Datum)} {thread : Nat} {pc next : Pc Datum}
    (ready : threads[thread]? = some pc) (same : next.decrementing = pc.decrementing)
    : (threads.set thread next).countP Pc.decrementing = threads.countP Pc.decrementing := by
  obtain ⟨bound, rfl⟩ := List.getElem?_eq_some_iff.mp ready
  rw [List.countP_set bound, same]
  split
  next duty =>
    have positive := List.countP_pos_iff.mpr ⟨_, List.getElem_mem bound, duty⟩
    omega
  next => omega

/-- A thread that leaves the blocking dequeue's critical section adds one decrement. -/
theorem countP_set_decrement {threads : List (Pc Datum)} {thread : Nat} {pc : Pc Datum}
    (ready : threads[thread]? = some pc) (free : pc.decrementing = false)
    : (threads.set thread .decrement).countP Pc.decrementing
      = threads.countP Pc.decrementing + 1 := by
  obtain ⟨bound, rfl⟩ := List.getElem?_eq_some_iff.mp ready
  have pays : (Pc.decrement : Pc Datum).decrementing = true := rfl
  simp [List.countP_set bound, free, pays]

/-- A thread that decrements the counter pays its own decrement. -/
theorem countP_set_idle {threads : List (Pc Datum)} {thread : Nat}
    (ready : threads[thread]? = some .decrement)
    : (threads.set thread .idle).countP Pc.decrementing + 1
      = threads.countP Pc.decrementing := by
  obtain ⟨bound, same⟩ := List.getElem?_eq_some_iff.mp ready
  have duty : (threads[thread]).decrementing = true := by rw [same]; rfl
  have positive := List.countP_pos_iff.mpr ⟨_, List.getElem_mem bound, duty⟩
  simp only [List.countP_set bound, duty, Pc.decrementing_idle, if_true, Bool.false_eq_true,
    if_false]
  omega

/-- A thread that starts or retries a blocking operation, and does not finish a dequeue, changes no
count.
-/
theorem countP_set_retry {threads : List (Pc Datum)} {thread : Nat} {pc pc' : Pc Datum}
    (next : Pc Datum) (ready : threads[thread]? = some pc ∨ threads[thread]? = some pc')
    (same : next.decrementing = pc.decrementing) (same' : next.decrementing = pc'.decrementing)
    : (threads.set thread next).countP Pc.decrementing = threads.countP Pc.decrementing := by
  rcases ready with ready | ready
  · exact countP_set_same ready same
  · exact countP_set_same ready same'

/-- The counter follows the natural numbers upwards, modulo its width. -/
theorem counter_increment (n : Nat) : UInt64.ofNat n + 1 = UInt64.ofNat (n + 1) :=
  (UInt64.ofNat_add n 1).symm

/-- The counter follows the natural numbers downwards, modulo its width. -/
theorem counter_decrement (n : Nat) : UInt64.ofNat (n + 1) - 1 = UInt64.ofNat n := by
  rw [← counter_increment, UInt64.add_sub_cancel]

/-- How one step changes the represented queue and the two histories. -/
inductive Effect (capacity : Nat) (queue : List Datum) (s : System Datum)
    : Action Datum → List Datum → System Datum → Prop
  | push {d after} (accepted : after.accepted = s.accepted ++ [d])
    (delivered : after.delivered = s.delivered)
    : Effect capacity queue s (.enqueue d) (DropOldest.push capacity queue d).2 after
  | append {d after} (room : queue.length < capacity)
    (accepted : after.accepted = s.accepted ++ [d])
    (delivered : after.delivered = s.delivered)
    : Effect capacity queue s (.enqueueBlocking d) (queue ++ [d]) after
  | pop {action oldest rest after} (nonempty : queue = oldest :: rest)
    (accepted : after.accepted = s.accepted)
    (delivered : after.delivered = s.delivered ++ [oldest])
    : Effect capacity queue s action rest after
  | keep {action after} (accepted : after.accepted = s.accepted)
    (delivered : after.delivered = s.delivered)
    : Effect capacity queue s action queue after

/-- Every step keeps the invariant, for a queue that changes as its critical section says.
Witness: one case per step, with the section's specification and the thread's duty.
-/
theorem Consistent.step {size : UInt64} {s next : System Datum} {label : Label Datum}
    {queue : List Datum} (h : Consistent size s queue) (taken : Step s label next)
    : ∃ after,
        Consistent size next after
        ∧ Effect (max 1 (size.toNat - 1)) queue s label.action after next := by
  have sameCapacity : capacity s.ring = max 1 (size.toNat - 1) := by
    rw [capacity, h.sameSize]
  cases taken with
  | @enqueue thread d code ring idle critical =>
      obtain ⟨after, answered, kept, sameSize, num⟩ := h.represents.enqueue d
      obtain ⟨-, rfl⟩ := Prod.mk.inj (Option.some.inj (answered.symm.trans critical))
      rw [sameCapacity] at kept num
      refine ⟨_, ⟨kept, sameSize.trans h.sameSize, ?_⟩, .push rfl rfl⟩
      simp only [DropOldest.push]
      split at num
      next room =>
        rw [if_pos room, num, h.counted, counter_increment, List.length_append]
        exact congrArg UInt64.ofNat (Nat.add_right_comm _ _ _)
      next full =>
        have length : queue.length - 1 + 1 = queue.length := Nat.sub_add_cancel (by omega)
        rw [if_neg full, num, h.counted, List.length_append, List.length_tail,
          List.length_singleton, length]
        rfl
  | @dequeue thread output code value ring idle critical =>
      have spec := h.represents.dequeue output
      cases queue with
      | nil =>
          obtain ⟨rfl, -, rfl⟩ : -1 = code ∧ output = value ∧ s.ring = ring := by
            simpa using spec.symm.trans critical
          exact ⟨[], ⟨h.represents, h.sameSize, h.counted⟩, .keep rfl rfl⟩
      | cons oldest rest =>
          obtain ⟨after, answered, kept, sameSize, num⟩ := spec
          obtain ⟨rfl, rfl, rfl⟩ : 0 = code ∧ oldest = value ∧ after = ring := by
            simpa using answered.symm.trans critical
          refine ⟨rest, ⟨kept, sameSize.trans h.sameSize, ?_⟩, .pop rfl rfl rfl⟩
          rw [num, h.counted, List.length_cons, Nat.add_right_comm, counter_decrement]
          rfl
  | @enqueueWaits thread d ready critical =>
      refine ⟨queue, ⟨h.represents, h.sameSize, ?_⟩, .keep rfl rfl⟩
      have same := countP_set_retry (.enqueueWait d) ready rfl rfl
      simpa only [pendingDecrements, same] using h.counted
  | @enqueueUnlocks thread d ring ready critical =>
      have spec := h.represents.enqueueBlocking d
      split at spec
      next room =>
        obtain ⟨after, answered, kept, sameSize, num⟩ := spec
        obtain rfl : after = ring := by simpa using answered.symm.trans critical
        have same := countP_set_retry .idle ready rfl rfl
        rw [sameCapacity] at room
        refine ⟨_, ⟨kept, sameSize.trans h.sameSize, ?_⟩, .append room rfl rfl⟩
        rw [num, h.counted, counter_increment, List.length_append, pendingDecrements,
          pendingDecrements, same]
        exact congrArg UInt64.ofNat (Nat.add_right_comm _ _ _)
      next noRoom => simp [spec] at critical
  | @dequeueWaits thread ready critical =>
      refine ⟨queue, ⟨h.represents, h.sameSize, ?_⟩, .keep rfl rfl⟩
      have same := countP_set_retry .dequeueWait ready rfl rfl
      simpa only [pendingDecrements, same] using h.counted
  | @dequeueUnlocks thread value ring ready critical =>
      have spec := h.represents.dequeueBlocking
      cases queue with
      | nil =>
          have waits : ringbufDequeueBlocking s.ring = some .wait := spec
          simp [waits] at critical
      | cons oldest rest =>
          obtain ⟨after, answered, kept, sameSize, num⟩ := spec
          obtain ⟨rfl, rfl⟩ : oldest = value ∧ after = ring := by
            simpa using answered.symm.trans critical
          have more : (s.threads.set thread .decrement).countP Pc.decrementing
              = s.threads.countP Pc.decrementing + 1 := by
            rcases ready with ready | ready <;> exact countP_set_decrement ready rfl
          refine ⟨rest, ⟨kept, sameSize.trans h.sameSize, ?_⟩, .pop rfl rfl rfl⟩
          rw [num, h.counted, List.length_cons, pendingDecrements, pendingDecrements, more,
            Nat.add_right_comm, Nat.add_assoc]
  | @decrement thread ready =>
      refine ⟨queue, ⟨h.represents.withNum _, h.sameSize, ?_⟩, .keep rfl rfl⟩
      have fewer := countP_set_idle ready
      simp only [dequeueBlockingEpilogue, h.counted, pendingDecrements]
      rw [← fewer, ← Nat.add_assoc, counter_decrement]

/-- Every reachable system is consistent with some queue, by induction over the run. -/
theorem consistent_of_reachable {size : UInt64} {arr : List Datum}
    (positive : 0 < size.toNat) (backed : arr.length = size.toNat) {threads : Nat}
    {s : System Datum} (reached : Reachable Step (startSystem size arr threads) s)
    : ∃ queue, Consistent size s queue := by
  refine reached.invariant (fun s => ∃ queue, Consistent size s queue)
    ⟨[], .start positive backed threads⟩ ?_
  rintro current label next taken ⟨queue, consistent⟩
  obtain ⟨after, kept, -⟩ := consistent.step taken
  exact ⟨after, kept⟩

/-- In a reachable system no critical section dereferences outside the array, so the step
relation leaves out no behaviour of the four operations.
-/
theorem sections_defined {size : UInt64} {arr : List Datum}
    (positive : 0 < size.toNat) (backed : arr.length = size.toNat) {threads : Nat}
    {s : System Datum} (reached : Reachable Step (startSystem size arr threads) s)
    (d : Datum)
    : (ringbufEnqueue s.ring d).isSome
      ∧ (ringbufDequeue s.ring d).isSome
      ∧ (ringbufEnqueueBlocking s.ring d).isSome
      ∧ (ringbufDequeueBlocking s.ring).isSome := by
  obtain ⟨queue, consistent⟩ := consistent_of_reachable positive backed reached
  have enqueue := consistent.represents.enqueue d
  have dequeue := consistent.represents.dequeue d
  have enqueueBlocking := consistent.represents.enqueueBlocking d
  have dequeueBlocking := consistent.represents.dequeueBlocking
  refine ⟨?_, ?_, ?_, ?_⟩
  · obtain ⟨after, answered, -⟩ := enqueue
    simp [answered]
  · cases queue with
    | nil => simp [show ringbufDequeue s.ring d = some (-1, d, s.ring) from dequeue]
    | cons oldest rest =>
        obtain ⟨after, answered, -⟩ := dequeue
        simp [answered]
  · split at enqueueBlocking
    next room =>
      obtain ⟨after, answered, -⟩ := enqueueBlocking
      simp [answered]
    next noRoom => simp [enqueueBlocking]
  · cases queue with
    | nil => simp [show ringbufDequeueBlocking s.ring = some .wait from dequeueBlocking]
    | cons oldest rest =>
        obtain ⟨after, answered, -⟩ := dequeueBlocking
        simp [answered]

-----------------------------------------------------------------------------------------
-- The element counter
-----------------------------------------------------------------------------------------

/-- With the mutex free, the counter equals the number of stored elements exactly when the
number of threads that have unlocked in `ringbuf_dequeue_blocking` without decrementing it
is a multiple of its modulus, in particular when there is none.
-/
theorem num_eq_storedCount_iff (size : UInt64) (arr : List Datum) (threads : Nat)
    (positive : 0 < size.toNat) (backed : arr.length = size.toNat) (s : System Datum)
    (reached : Reachable Step (startSystem size arr threads) s)
    : s.ring.num.toNat = storedCount s.ring ↔ pendingDecrements s % 2 ^ 64 = 0 := by
  obtain ⟨queue, consistent⟩ := consistent_of_reachable positive backed reached
  have bounded := consistent.represents.length_le
  have sizeBound := s.ring.size.toNat_lt
  rw [consistent.represents.storedCount_eq, consistent.counted, UInt64.toNat_ofNat']
  omega

/-- Two threads, one enqueue and one blocking dequeue that has not decremented yet. -/
def betweenUnlockAndDecrement : System Nat :=
  {
    ring := { writepos := 1, size := 2, num := 1, readpos := none, arr := [7, 0] }
    threads := [.idle, .decrement]
    accepted := [7]
    delivered := [7]
  }

theorem betweenUnlockAndDecrement_reachable
    : Reachable Step (startSystem 2 [0, 0] 2) betweenUnlockAndDecrement := by
  have enqueued := Run.start.extend
    (show Step (startSystem 2 [0, 0] 2) ⟨0, .enqueue 7⟩ _ from .enqueue rfl rfl)
  exact ⟨_, enqueued.extend
    (show Step _ ⟨1, .dequeueBlocking⟩ _ from .dequeueUnlocks (Or.inl rfl) rfl)⟩

/-- The counter is one too high in a state in which no thread holds the mutex. -/
theorem num_ne_storedCount
    : ¬ ∀ s, Reachable Step (startSystem 2 [0, 0] 2) s → s.ring.num.toNat = storedCount s.ring := by
  intro always
  have equal := always _ betweenUnlockAndDecrement_reachable
  revert equal
  decide

/-- The equivalence at work where the two sides are false. -/
theorem num_eq_storedCount_iff_betweenUnlockAndDecrement
    : betweenUnlockAndDecrement.ring.num.toNat = storedCount betweenUnlockAndDecrement.ring
      ↔ pendingDecrements betweenUnlockAndDecrement % 2 ^ 64 = 0 :=
  num_eq_storedCount_iff 2 [0, 0] 2 (by decide) (by decide) _
    betweenUnlockAndDecrement_reachable

-----------------------------------------------------------------------------------------
-- Blocking producers and consumers
-----------------------------------------------------------------------------------------

/-- In a run of the blocking operations alone, what has been accepted is what has been
delivered followed by the queue the buffer represents. Witness: of the step effects only an
append and a pop occur, and each moves one element across the boundary.
-/
theorem blocking_history {size : UInt64} {arr : List Datum} {threads : Nat}
    (positive : 0 < size.toNat) (backed : arr.length = size.toNat)
    {trace : List (System Datum × Label Datum)} {s : System Datum}
    (run : Run Step (startSystem size arr threads) trace s)
    (blocking : ∀ state label, (state, label) ∈ trace → label.action.blocking)
    : ∃ queue, Consistent size s queue ∧ s.accepted = s.delivered ++ queue := by
  refine run.invariant
    (fun s => ∃ queue, Consistent size s queue ∧ s.accepted = s.delivered ++ queue)
    ⟨[], .start positive backed threads, rfl⟩ ?_
  rintro current label next member taken ⟨queue, consistent, history⟩
  have onlyBlocking := blocking current label member
  obtain ⟨after, kept, effect⟩ := consistent.step taken
  refine ⟨after, kept, ?_⟩
  generalize label.action = action at effect onlyBlocking
  cases effect with
  | push => simp [Action.blocking] at onlyBlocking
  | append room accepted delivered =>
      rw [accepted, delivered, history, List.append_assoc]
  | pop nonempty accepted delivered =>
      rw [accepted, delivered, history, nonempty, List.append_assoc, List.singleton_append]
  | keep accepted delivered => rw [accepted, delivered, history]

/-- In every interleaving of any number of threads that call the two blocking operations,
the data delivered so far are a prefix of the data accepted so far, in lock order; the rest
is exactly what the buffer stores, and never more than `max 1 (size - 1)` elements.
-/
theorem blocking_fifo (size : UInt64) (arr : List Datum) (threads : Nat)
    (positive : 0 < size.toNat) (backed : arr.length = size.toNat)
    (trace : List (System Datum × Label Datum)) (s : System Datum)
    (run : Run Step (startSystem size arr threads) trace s)
    (blocking : ∀ state label, (state, label) ∈ trace → label.action.blocking)
    : s.delivered <+: s.accepted
      ∧ s.accepted = s.delivered ++ contents s.ring
      ∧ (contents s.ring).length ≤ max 1 (size.toNat - 1) := by
  obtain ⟨queue, consistent, history⟩ := blocking_history positive backed run blocking
  have bounded := consistent.represents.bounded
  rw [capacity, consistent.sameSize] at bounded
  rw [consistent.represents.contents_eq]
  exact ⟨⟨queue, history.symm⟩, history, bounded⟩

/-- A consumer that starts first waits; a producer then hands its datum over. -/
theorem blocking_fifo_handover
    : [7] <+: [7, 8]
      ∧ [7, 8]
        = [7]
          ++ contents
              ({ writepos := 2, size := 3, num := 2, readpos := some 1, arr := [7, 8, 0] }
                : Ringbuf Nat)
      ∧ (contents
          ({ writepos := 2, size := 3, num := 2, readpos := some 1, arr := [7, 8, 0] }
            : Ringbuf Nat)).length
        ≤ max 1 ((3 : UInt64).toNat - 1) := by
  have waiting := Run.start.extend
    (show Step (startSystem 3 [0, 0, 0] 2) ⟨0, .dequeueBlocking⟩ _
      from .dequeueWaits (Or.inl rfl) rfl)
  have first := waiting.extend
    (show Step _ ⟨1, .enqueueBlocking 7⟩ _ from .enqueueUnlocks (Or.inl rfl) rfl)
  have second := first.extend
    (show Step _ ⟨1, .enqueueBlocking 8⟩ _ from .enqueueUnlocks (Or.inl rfl) rfl)
  have woken := second.extend
    (show Step _ ⟨0, .dequeueBlocking⟩ _ from .dequeueUnlocks (Or.inr rfl) rfl)
  refine blocking_fifo 3 [0, 0, 0] 2 (by decide) (by decide) _ _ woken ?_
  intro state label member
  simp only [List.nil_append, List.cons_append, List.mem_cons, Prod.mk.injEq,
    List.not_mem_nil, or_false] at member
  rcases member with ⟨-, rfl⟩ | ⟨-, rfl⟩ | ⟨-, rfl⟩ | ⟨-, rfl⟩ <;> rfl

end Cvos.RingBuf

import Cvos.Lib.DropOldest
import Cvos.Lib.Replay
import Cvos.RingBuf.Model

/-! The ring buffer represents a bounded queue: a representation relation that every
critical section keeps, and the refinement of whole call sequences that follows from it.
-/

namespace Cvos.RingBuf

open Cvos.Lib

variable {Datum : Type}

-----------------------------------------------------------------------------------------
-- The representation relation
-----------------------------------------------------------------------------------------

/-- Number of elements a buffer can hold. One slot separates the two pointers, except in
the degenerate buffer of one slot.
-/
def capacity (r : Ringbuf Datum) : Nat := max 1 (r.size.toNat - 1)

/-- The array has the announced size and the write pointer lies inside it. -/
structure Sized (r : Ringbuf Datum) : Prop where
  positive : 0 < r.size.toNat
  backed : r.arr.length = r.size.toNat
  writeInside : r.writepos < r.size.toNat

/-- `queue` occupies the slots from `readpos` on, in order, and ends at the write pointer.
-/
structure Placed (r : Ringbuf Datum) (readpos : Nat) (queue : List Datum) : Prop where
  readInside : readpos < r.size.toNat
  meets : r.writepos = wrapPtr r (readpos + queue.length)
  slots : ∀ i < queue.length, r.arr[wrapPtr r (readpos + i)]? = queue[i]?

/-- A buffer represents a queue within its capacity: the NULL read pointer stands for the
empty queue, and a queue with elements is placed at the read pointer.
-/
structure Represents (r : Ringbuf Datum) (queue : List Datum) : Prop where
  sized : Sized r
  bounded : queue.length ≤ capacity r
  emptyIff : r.readpos = none ↔ queue = []
  placed : ∀ {readpos}, r.readpos = some readpos → Placed r readpos queue

theorem wrapPtr_lt (r : Ringbuf Datum) {p : Nat} (bound : p < r.size.toNat + r.size.toNat)
    : wrapPtr r p < r.size.toNat := by
  unfold wrapPtr
  split <;> omega

/-- Distinct offsets within one turn address distinct slots. -/
theorem wrapPtr_injective (r : Ringbuf Datum) {p i j : Nat} (hi : i < r.size.toNat)
    (hj : j < r.size.toNat)
    (same : wrapPtr r (p + i) = wrapPtr r (p + j))
    : i = j := by
  unfold wrapPtr at same
  split at same <;> split at same <;> omega

/-- Advancing a wrapped pointer by one is wrapping the next offset. -/
theorem wrapPtr_succ (r : Ringbuf Datum) {p i : Nat} (inside : p < r.size.toNat)
    (hi : i < r.size.toNat)
    : wrapPtr r (wrapPtr r (p + i) + 1) = wrapPtr r (p + (i + 1)) := by
  unfold wrapPtr
  split <;> split <;> split <;> omega

/-- Moving the base pointer by one shifts every later offset by one. -/
theorem wrapPtr_shift (r : Ringbuf Datum) {p i : Nat} (inside : p < r.size.toNat)
    (hi : i + 1 ≤ r.size.toNat)
    : wrapPtr r (wrapPtr r (p + 1) + i) = wrapPtr r (p + (i + 1)) := by
  unfold wrapPtr
  split <;> split <;> split <;> omega

/-- A queue within the capacity never fills more slots than the array has. -/
theorem Represents.length_le {r : Ringbuf Datum} {queue : List Datum}
    (h : Represents r queue)
    : queue.length ≤ r.size.toNat := by
  have bounded := h.bounded
  have positive := h.sized.positive
  unfold capacity at bounded
  omega

/-- A represented queue is nonempty when the read pointer is set. -/
theorem Represents.length_pos {r : Ringbuf Datum} {queue : List Datum} {readpos : Nat}
    (h : Represents r queue) (set : r.readpos = some readpos)
    : 0 < queue.length := by
  have nonempty : queue ≠ [] := fun empty => by simp [h.emptyIff.mpr empty] at set
  exact List.length_pos_iff.mpr nonempty

/-- The pointer comparison of the code decides whether the represented queue is full.
Witness: the write pointer is the wrapped end of the queue, and one turn is `size` slots.
-/
theorem Represents.full_iff {r : Ringbuf Datum} {queue : List Datum}
    (h : Represents r queue)
    : full r ↔ queue.length = capacity r := by
  have positive := h.sized.positive
  have bounded := h.bounded
  unfold full capacity at *
  cases set : r.readpos with
  | none =>
      have empty := h.emptyIff.mp set
      simp only [empty, List.length_nil, reduceCtorEq, false_iff]
      omega
  | some readpos =>
      have placed := h.placed set
      have inside := placed.readInside
      have nonempty := h.length_pos set
      rw [Option.some.injEq, placed.meets]
      unfold wrapPtr
      split <;> split <;> omega

/-- Counting and listing the stored elements from the pointers gives the represented queue.
-/
theorem Represents.storedCount_eq {r : Ringbuf Datum} {queue : List Datum}
    (h : Represents r queue)
    : storedCount r = queue.length := by
  unfold storedCount
  cases set : r.readpos with
  | none => simp [h.emptyIff.mp set]
  | some readpos =>
      have placed := h.placed set
      have inside := placed.readInside
      have nonempty := h.length_pos set
      have bounded := h.length_le
      have meets := placed.meets
      unfold wrapPtr at meets
      dsimp only
      split at meets <;> split <;> omega

/-- Listing slots that agree with a list's own indexing gives back the list, by induction.
-/
private theorem filterMap_range_getElem? {α : Type} (items : List α) (slot : Nat → Option α)
    (agree : ∀ i < items.length, slot i = items[i]?)
    : (List.range items.length).filterMap slot = items := by
  induction items generalizing slot with
  | nil => rfl
  | cons first rest ih =>
      have head : slot 0 = some first := agree 0 (by simp)
      have tail := ih (slot ∘ Nat.succ) (fun i bound => by
        simpa using agree (i + 1) (by simpa using bound))
      rw [List.length_cons, List.range_succ_eq_map, List.filterMap_cons, head, List.filterMap_map]
      exact congrArg (first :: ·) tail

/-- The listed contents of a buffer are the queue it represents. -/
theorem Represents.contents_eq {r : Ringbuf Datum} {queue : List Datum}
    (h : Represents r queue)
    : contents r = queue := by
  have count := h.storedCount_eq
  unfold contents
  cases set : r.readpos with
  | none => exact (h.emptyIff.mp set).symm
  | some readpos =>
      dsimp only
      rw [count]
      exact filterMap_range_getElem? queue _ (h.placed set).slots

-----------------------------------------------------------------------------------------
-- Storing at the write pointer and fetching at the read pointer
-----------------------------------------------------------------------------------------

/-- The buffer after the tail shared by the enqueue operations. -/
def afterStore (r : Ringbuf Datum) (d : Datum) : Ringbuf Datum :=
  {
    r with
    arr := r.arr.set r.writepos d
    readpos := some (r.readpos.getD r.writepos)
    writepos := wrapPtr r (r.writepos + 1)
  }

/-- Storing never leaves the array of a sized buffer. -/
theorem storeDatum_eq {r : Ringbuf Datum} (sized : Sized r) (d : Datum)
    : storeDatum r d = some (afterStore r d) := by
  have inside : r.writepos < r.arr.length := by rw [sized.backed]; exact sized.writeInside
  unfold storeDatum afterStore
  rw [if_pos inside]
  cases r.readpos <;> simp [wrapPtr]

theorem Sized.store {r : Ringbuf Datum} (sized : Sized r) (d : Datum)
    : Sized (afterStore r d) where
  positive := sized.positive
  backed := by simpa [afterStore] using sized.backed
  writeInside := wrapPtr_lt r (by have := sized.writeInside; have := sized.positive; omega)

/-- Storing behind a placed queue that leaves a slot free appends to it.
Witness: the written slot is the wrapped end, which no earlier offset addresses.
-/
theorem Placed.store {r : Ringbuf Datum} {readpos : Nat} {queue : List Datum}
    (sized : Sized r) (placed : Placed r readpos queue) (room : queue.length < r.size.toNat)
    (d : Datum)
    : Placed (afterStore r d) readpos (queue ++ [d]) where
  readInside := placed.readInside
  meets := by
    have next := wrapPtr_succ r placed.readInside room
    rw [← placed.meets] at next
    simpa [afterStore, wrapPtr] using next
  slots := by
    intro i bound
    have writeInside : r.writepos < r.arr.length := by
      rw [sized.backed]; exact sized.writeInside
    change (r.arr.set r.writepos d)[wrapPtr r (readpos + i)]? = (queue ++ [d])[i]?
    by_cases old : i < queue.length
    · have apart : r.writepos ≠ wrapPtr r (readpos + i) := by
        intro same
        rw [placed.meets] at same
        have := wrapPtr_injective r room (Nat.lt_trans old room) same
        omega
      rw [List.getElem?_set_ne apart, placed.slots i old, List.getElem?_append_left old]
    · have last : i = queue.length := by simp at bound; omega
      subst last
      rw [← placed.meets, List.getElem?_set_self writeInside]
      simp

/-- Moving the read pointer by one slot drops the oldest element of a placed queue. -/
theorem Placed.advance {r : Ringbuf Datum} {readpos : Nat} {oldest : Datum}
    {rest : List Datum} (placed : Placed r readpos (oldest :: rest))
    (fits : rest.length + 1 ≤ r.size.toNat)
    : Placed r (wrapPtr r (readpos + 1)) rest where
  readInside := wrapPtr_lt r (by have := placed.readInside; omega)
  meets := by
    rw [wrapPtr_shift r placed.readInside fits, placed.meets, List.length_cons]
  slots := by
    intro i bound
    rw [wrapPtr_shift r placed.readInside (by omega)]
    simpa using placed.slots (i + 1) (by simpa using bound)

/-- A buffer with room represents the longer queue after a store. Witness: an empty queue
starts at the write pointer, a nonempty one keeps its read pointer.
-/
theorem Represents.store {r : Ringbuf Datum} {queue : List Datum} (h : Represents r queue)
    (room : queue.length < capacity r) (d : Datum)
    : Represents (afterStore r d) (queue ++ [d]) where
  sized := h.sized.store d
  bounded := by simpa [afterStore, capacity] using Nat.succ_le_of_lt room
  emptyIff := by simp [afterStore]
  placed := by
    intro position same
    have positive := h.sized.positive
    cases set : r.readpos with
    | none =>
        obtain rfl : r.writepos = position := by simpa [afterStore, set] using same
        have start : Placed r r.writepos [] := by
          refine ⟨h.sized.writeInside, ?_, by simp⟩
          simp [wrapPtr, Nat.not_le.mpr h.sized.writeInside]
        rw [h.emptyIff.mp set]
        exact start.store h.sized positive d
    | some readpos =>
        obtain rfl : readpos = position := by simpa [afterStore, set] using same
        exact (h.placed set).store h.sized (by unfold capacity at room; omega) d

/-- Fetching at the read pointer delivers the oldest element and leaves the rest placed one
slot further. Witness: the new read pointer meets the write pointer exactly when the queue
had one element.
-/
theorem Represents.fetch {r : Ringbuf Datum} {oldest : Datum} {rest : List Datum}
    {readpos : Nat} (h : Represents r (oldest :: rest)) (set : r.readpos = some readpos)
    : ∃ after,
        fetchDatum r readpos = some (oldest, after)
        ∧ Represents after rest
        ∧ after.num = r.num
        ∧ after.size = r.size := by
  have placed := h.placed set
  have inside := placed.readInside
  have fits : rest.length + 1 ≤ r.size.toNat := by simpa using h.length_le
  have later := placed.advance fits
  have head : r.arr[readpos]? = some oldest := by
    have first := placed.slots 0 (by simp)
    simpa [wrapPtr, Nat.not_le.mpr inside] using first
  have emptied : wrapPtr r (readpos + 1) = r.writepos ↔ rest = [] := by
    have meets := placed.meets
    have bounded := h.bounded
    rw [List.length_cons] at meets bounded
    rw [meets, ← List.length_eq_zero_iff]
    unfold capacity at bounded
    unfold wrapPtr
    split <;> split <;> omega
  have sized : Sized { r with readpos := none } :=
    ⟨h.sized.positive, h.sized.backed, h.sized.writeInside⟩
  by_cases empty : rest = []
  · refine ⟨{ r with readpos := none }, ?_, ?_, rfl, rfl⟩
    · simp [fetchDatum, head, emptied.mpr empty]
    · exact { sized, bounded := by simp [empty], emptyIff := by simp [empty], placed := by simp }
  · refine ⟨{ r with readpos := some (wrapPtr r (readpos + 1)) }, ?_, ?_, rfl, rfl⟩
    · simp [fetchDatum, head, mt emptied.mp empty]
    · refine {
        sized := ⟨sized.positive, sized.backed, sized.writeInside⟩
        bounded := Nat.le_of_succ_le h.bounded
        emptyIff := by simp [empty]
        placed := ?_
      }
      intro position same
      obtain rfl : wrapPtr r (readpos + 1) = position := by simpa using same
      exact ⟨later.readInside, later.meets, later.slots⟩

/-- The counter is no part of the representation. -/
theorem Represents.withNum {r : Ringbuf Datum} {queue : List Datum} (h : Represents r queue)
    (num : UInt64)
    : Represents { r with num } queue where
  sized := ⟨h.sized.positive, h.sized.backed, h.sized.writeInside⟩
  bounded := h.bounded
  emptyIff := h.emptyIff
  placed := fun set =>
    ⟨(h.placed set).readInside, (h.placed set).meets, (h.placed set).slots⟩

-----------------------------------------------------------------------------------------
-- The four critical sections
-----------------------------------------------------------------------------------------

/-- `ringbuf_enqueue` is a drop-oldest push; the counter grows exactly when there was room.
Witness: a full buffer first advances its read pointer, which frees the written slot.
-/
theorem Represents.enqueue {r : Ringbuf Datum} {queue : List Datum} (h : Represents r queue)
    (d : Datum)
    : ∃ after,
        ringbufEnqueue r d
          = some (if (DropOldest.push (capacity r) queue d).1 then 0 else -1, after)
        ∧ Represents after (DropOldest.push (capacity r) queue d).2
        ∧ after.size = r.size
        ∧ after.num = if queue.length < capacity r then r.num + 1 else r.num := by
  by_cases isFull : full r
  · have length := h.full_iff.mp isFull
    have notRoom : ¬ queue.length < capacity r := by omega
    have positive := h.sized.positive
    obtain ⟨readpos, set⟩ : ∃ readpos, r.readpos = some readpos := ⟨_, isFull⟩
    obtain ⟨oldest, rest, rfl⟩ := List.exists_cons_of_length_pos (h.length_pos set)
    have fits : rest.length + 1 ≤ r.size.toNat := by simpa using h.length_le
    have later := (h.placed set).advance fits
    let moved : Ringbuf Datum := { r with readpos := some (wrapPtr r (readpos + 1)) }
    have sized : Sized moved := ⟨h.sized.positive, h.sized.backed, h.sized.writeInside⟩
    have placed : Placed moved (wrapPtr r (readpos + 1)) rest :=
      ⟨later.readInside, later.meets, later.slots⟩
    refine ⟨afterStore moved d, ?_, ?_, rfl, by simp only [if_neg notRoom]; rfl⟩
    · have store := storeDatum_eq sized d
      simp only [ringbufEnqueue, if_pos isFull, set, Option.map_some, DropOldest.push,
        if_neg notRoom, Bool.false_eq_true, if_false]
      exact congrArg (Option.map (fun r => ((-1 : Int), r))) store
    · simp only [DropOldest.push, if_neg notRoom, List.tail_cons]
      refine {
        sized := sized.store d
        bounded := by simpa [capacity, afterStore, moved] using h.bounded
        emptyIff := by simp [afterStore]
        placed := ?_
      }
      intro position same
      obtain rfl : wrapPtr r (readpos + 1) = position := by simpa [afterStore, moved] using same
      exact placed.store sized (by simp only [moved]; omega) d
  · have room : queue.length < capacity r :=
      Nat.lt_of_le_of_ne h.bounded (mt h.full_iff.mpr isFull)
    have counted := h.withNum (r.num + 1)
    refine ⟨afterStore { r with num := r.num + 1 } d, ?_, ?_, rfl, by simp only [if_pos room]; rfl⟩
    · simp [ringbufEnqueue, isFull, DropOldest.push, room, storeDatum_eq counted.sized]
    · simpa [DropOldest.push, room] using counted.store room d

/-- `ringbuf_dequeue` pops the oldest element, and changes nothing when there is none. -/
theorem Represents.dequeue {r : Ringbuf Datum} {queue : List Datum} (h : Represents r queue)
    (output : Datum)
    : match DropOldest.pop queue with
      | none => ringbufDequeue r output = some (-1, output, r)
      | some (oldest, rest) =>
          ∃ after,
            ringbufDequeue r output = some (0, oldest, after)
            ∧ Represents after rest
            ∧ after.size = r.size
            ∧ after.num = r.num - 1 := by
  cases queue with
  | nil => simp [DropOldest.pop, ringbufDequeue, h.emptyIff.mpr rfl]
  | cons oldest rest =>
      obtain ⟨readpos, set⟩ : ∃ readpos, r.readpos = some readpos :=
        Option.ne_none_iff_exists'.mp (mt h.emptyIff.mp (by simp))
      obtain ⟨after, fetched, kept, num, size⟩ := (h.withNum (r.num - 1)).fetch set
      simp only [set] at fetched
      exact ⟨after, by simp [ringbufDequeue, set, fetched], kept, size, num⟩

/-- A pass of `ringbuf_enqueue_blocking` waits on a full buffer and appends otherwise. -/
theorem Represents.enqueueBlocking {r : Ringbuf Datum} {queue : List Datum}
    (h : Represents r queue) (d : Datum)
    : if queue.length < capacity r then
        ∃ after,
          ringbufEnqueueBlocking r d = some (.unlock after)
          ∧ Represents after (queue ++ [d])
          ∧ after.size = r.size
          ∧ after.num = r.num + 1
      else
        ringbufEnqueueBlocking r d = some .wait := by
  split
  next room =>
    have notFull : ¬ full r := by rw [h.full_iff]; omega
    refine ⟨{ afterStore r d with num := r.num + 1 }, ?_, (h.store room d).withNum _, rfl, rfl⟩
    simp [ringbufEnqueueBlocking, notFull, storeDatum_eq h.sized, afterStore]
  next noRoom =>
    have isFull : full r := h.full_iff.mpr (Nat.le_antisymm h.bounded (Nat.not_lt.mp noRoom))
    simp [ringbufEnqueueBlocking, isFull]

/-- A pass of `ringbuf_dequeue_blocking` waits on an empty buffer and pops otherwise,
leaving the counter for its epilogue.
-/
theorem Represents.dequeueBlocking {r : Ringbuf Datum} {queue : List Datum}
    (h : Represents r queue)
    : match DropOldest.pop queue with
      | none => ringbufDequeueBlocking r = some .wait
      | some (oldest, rest) =>
          ∃ after,
            ringbufDequeueBlocking r = some (.unlock (oldest, after))
            ∧ Represents after rest
            ∧ after.size = r.size
            ∧ after.num = r.num := by
  cases queue with
  | nil => simp [DropOldest.pop, ringbufDequeueBlocking, h.emptyIff.mpr rfl]
  | cons oldest rest =>
      obtain ⟨readpos, set⟩ : ∃ readpos, r.readpos = some readpos :=
        Option.ne_none_iff_exists'.mp (mt h.emptyIff.mp (by simp))
      obtain ⟨after, fetched, kept, num, size⟩ := h.fetch set
      exact ⟨after, by simp [ringbufDequeueBlocking, set, fetched], kept, size, num⟩

-----------------------------------------------------------------------------------------
-- Whole call sequences
-----------------------------------------------------------------------------------------

/-- A call of one of the non-blocking operations; a dequeue passes its output variable. -/
inductive Call (Datum : Type) where
  | enqueue (d : Datum)
  | dequeue (output : Datum)
deriving DecidableEq, Repr

/-- What a call returns: its result code and, for a dequeue, the output variable after it.
-/
inductive Reply (Datum : Type) where
  | enqueued (code : Int)
  | dequeued (code : Int) (output : Datum)
deriving DecidableEq, Repr

def perform (r : Ringbuf Datum) : Call Datum → Option (Reply Datum × Ringbuf Datum)
  | .enqueue d => (ringbufEnqueue r d).map (fun (code, r) => (.enqueued code, r))
  | .dequeue output =>
      (ringbufDequeue r output).map (fun (code, output, r) => (.dequeued code output, r))

/-- The calls on a drop-oldest queue of the given capacity. -/
def performSpec (capacity : Nat) (queue : List Datum) : Call Datum → Reply Datum × List Datum
  | .enqueue d =>
      let (room, queue) := DropOldest.push capacity queue d
      (.enqueued (if room then 0 else -1), queue)
  | .dequeue output =>
      match DropOldest.pop queue with
      | none => (.dequeued (-1) output, queue)
      | some (oldest, rest) => (.dequeued 0 oldest, rest)

/-- The state relation between calls: the buffer represents the queue, counts its elements
and keeps the size it was given.
-/
structure Tracks (size : UInt64) (r : Ringbuf Datum) (queue : List Datum) : Prop where
  represents : Represents r queue
  counted : r.num = UInt64.ofNat queue.length
  sameSize : r.size = size

/-- A buffer fresh from `ringbuf_init` over an array of the announced size is empty. -/
theorem Tracks.init {size : UInt64} {arr : List Datum} (positive : 0 < size.toNat)
    (backed : arr.length = size.toNat)
    : Tracks size (ringbufInit size arr) [] where
  represents := {
    sized := ⟨positive, backed, positive⟩
    bounded := by simp
    emptyIff := by simp [ringbufInit]
    placed := by simp [ringbufInit]
  }
  counted := rfl
  sameSize := rfl

/-- One call answers as the drop-oldest queue does and keeps the two states related. -/
theorem Tracks.perform {size : UInt64} {r : Ringbuf Datum} {queue : List Datum}
    (h : Tracks size r queue) (call : Call Datum)
    : ∃ after,
        RingBuf.perform r call
          = some ((performSpec (max 1 (size.toNat - 1)) queue call).1, after)
        ∧ Tracks size after (performSpec (max 1 (size.toNat - 1)) queue call).2 := by
  have sameCapacity : capacity r = max 1 (size.toNat - 1) := by rw [capacity, h.sameSize]
  cases call with
  | enqueue d =>
      obtain ⟨after, answered, kept, sameSize, num⟩ := h.represents.enqueue d
      rw [sameCapacity] at answered kept num
      refine ⟨after, by simp [RingBuf.perform, answered, performSpec], kept, ?_,
        sameSize.trans h.sameSize⟩
      have positive := h.represents.sized.positive
      simp only [performSpec, DropOldest.push]
      split at num
      next room => simp [num, h.counted, room]
      next full =>
        have nonempty : 0 < queue.length := by omega
        simp only [num, h.counted, full, if_false, List.length_append, List.length_tail,
          List.length_singleton]
        rw [Nat.sub_add_cancel nonempty]
  | dequeue output =>
      have spec := h.represents.dequeue output
      cases queue with
      | nil => exact ⟨r, by simpa [RingBuf.perform, performSpec, DropOldest.pop] using spec, h⟩
      | cons oldest rest =>
          obtain ⟨after, answered, kept, sameSize, num⟩ := spec
          refine ⟨after, by simp [RingBuf.perform, answered, performSpec, DropOldest.pop], kept,
            ?_, sameSize.trans h.sameSize⟩
          simp [num, h.counted, performSpec, DropOldest.pop]

/-- Between calls the counter is the number of stored elements, which is zero exactly for a
NULL read pointer. Witness: a represented queue is shorter than `size`, so no count wraps.
-/
theorem Tracks.num_toNat {size : UInt64} {r : Ringbuf Datum} {queue : List Datum}
    (h : Tracks size r queue)
    : r.num.toNat = queue.length := by
  have bounded := h.represents.length_le
  have sizeBound := r.size.toNat_lt
  rw [h.counted]
  exact UInt64.toNat_ofNat_of_lt' (by simp only [UInt64.size]; omega)

/-- Every finite sequence of calls after `ringbuf_init` answers exactly as a drop-oldest
queue of capacity `max 1 (size - 1)` does, and the buffer reached stores that queue: the
counter is its length, the read pointer is NULL exactly when it is empty, and a dequeue of
the empty buffer changes neither its output nor the buffer.
-/
theorem ringbuf_refines_dropOldest (size : UInt64) (arr : List Datum)
    (positive : 0 < size.toNat) (backed : arr.length = size.toNat)
    (calls : List (Call Datum))
    : ∃ r,
        replay perform (ringbufInit size arr) calls
          = some
              ((replaySpec (performSpec (max 1 (size.toNat - 1))) [] calls).1, r)
        ∧ contents r = (replaySpec (performSpec (max 1 (size.toNat - 1))) [] calls).2
        ∧ (contents r).length ≤ max 1 (size.toNat - 1)
        ∧ r.num.toNat = (contents r).length
        ∧ (r.readpos = none ↔ contents r = [])
        ∧ (contents r = []
            → ∀ output, ringbufDequeue r output = some (-1, output, r)) := by
  obtain ⟨r, replayed, tracks⟩ :=
    replay_refines (fun call tracks => tracks.perform call) calls (Tracks.init positive backed)
  have stored := tracks.represents.contents_eq
  have bounded := tracks.represents.bounded
  rw [capacity, tracks.sameSize] at bounded
  refine ⟨r, replayed, stored, by rwa [stored], by rw [stored, tracks.num_toNat],
    by rw [stored, tracks.represents.emptyIff], ?_⟩
  intro empty output
  rw [stored] at empty
  have spec := tracks.represents.dequeue output
  rw [empty] at spec
  exact spec

/-- A buffer of three slots holds two elements: the third enqueue drops the oldest. -/
theorem ringbuf_refines_dropOldest_three
    : ∃ r,
        replay perform (ringbufInit 3 [0, 0, 0])
            [.enqueue 7, .enqueue 8, .enqueue 9, .dequeue 0, .dequeue 0, .dequeue 5]
          = some
              ([.enqueued 0, .enqueued 0, .enqueued (-1), .dequeued 0 8, .dequeued 0 9,
                .dequeued (-1) 5], r)
        ∧ contents r = [] := by
  obtain ⟨r, replayed, stored, -⟩ :=
    ringbuf_refines_dropOldest 3 [0, 0, 0] (by decide) (by decide)
      [.enqueue 7, .enqueue 8, .enqueue 9, .dequeue 0, .dequeue 0, .dequeue 5]
  exact ⟨r, replayed, stored⟩

end Cvos.RingBuf

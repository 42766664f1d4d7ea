/-! The ring buffer of `ringbuf.c`, with both element pointers as indices into its array.
A dereference outside the array makes an operation undefined (`none`).
-/

namespace Cvos.RingBuf

variable {Datum : Type}

/-- `struct ringbuf`, less the mutex and the condition variables. A pointer into `arr` is
the index of its element; the NULL read pointer of an empty buffer is `none`.
-/
structure Ringbuf (Datum : Type) where
  writepos : Nat
  size : UInt64
  num : UInt64
  readpos : Option Nat
  arr : List Datum
deriving DecidableEq, Repr

def ringbufInit (size : UInt64) (arr : List Datum) : Ringbuf Datum :=
  { size, num := 0, readpos := none, arr, writepos := 0 }

def wrapPtr (r : Ringbuf Datum) (d : Nat) : Nat :=
  if d ≥ r.size.toNat then d - r.size.toNat else d

/-- The test made by both enqueue operations before they write. -/
def full (r : Ringbuf Datum) : Prop := r.readpos = some (wrapPtr r (r.writepos + 1))

instance (r : Ringbuf Datum) : Decidable (full r) :=
  inferInstanceAs (Decidable (r.readpos = some _))

/-- The tail that both enqueue operations share: store the datum, leave the empty state,
advance the write pointer.
-/
def storeDatum (r : Ringbuf Datum) (d : Datum) : Option (Ringbuf Datum) :=
  if r.writepos < r.arr.length then
    let r := { r with arr := r.arr.set r.writepos d }
    let r := if r.readpos = none then { r with readpos := some r.writepos } else r
    some { r with writepos := wrapPtr r (r.writepos + 1) }
  else
    none

/-- The middle that both dequeue operations share: fetch the datum at `readpos` and advance
the read pointer, which becomes NULL when it meets the write pointer.
-/
def fetchDatum (r : Ringbuf Datum) (readpos : Nat) : Option (Datum × Ringbuf Datum) := do
  let d ← r.arr[readpos]?
  let newReadpos := wrapPtr r (readpos + 1)
  if newReadpos = r.writepos then
    return (d, { r with readpos := none })
  else
    return (d, { r with readpos := some newReadpos })

/-- `ringbuf_enqueue` from lock to unlock: the result code and the new buffer. -/
def ringbufEnqueue (r : Ringbuf Datum) (d : Datum) : Option (Int × Ringbuf Datum) :=
  let (overflow, r) : Int × Ringbuf Datum :=
    if full r then
      -- full: throw away the oldest entry
      (-1, { r with readpos := r.readpos.map (fun readpos => wrapPtr r (readpos + 1)) })
    else
      (0, { r with num := r.num + 1 })
  (storeDatum r d).map (fun r => (overflow, r))

/-- `ringbuf_dequeue` from lock to unlock: the result code, the caller's output and the
new buffer. The output is written only when there is an element.
-/
def ringbufDequeue (r : Ringbuf Datum) (output : Datum)
    : Option (Int × Datum × Ringbuf Datum) :=
  match r.readpos with
  | none => some (-1, output, r)
  | some readpos =>
      (fetchDatum { r with num := r.num - 1 } readpos).map (fun (d, r) => (0, d, r))

/-- One pass through the waiting loop of a blocking operation: either the thread waits on
the condition variable, which releases the mutex, or it runs on to the unlock.
-/
inductive Pass (Result : Type) where
  | wait
  | unlock (result : Result)
deriving DecidableEq, Repr

/-- `ringbuf_enqueue_blocking` from one acquisition of the mutex to its next release. -/
def ringbufEnqueueBlocking (r : Ringbuf Datum) (d : Datum)
    : Option (Pass (Ringbuf Datum)) :=
  if full r then
    some .wait
  else
    (storeDatum r d).map (fun r => .unlock { r with num := r.num + 1 })

/-- `ringbuf_dequeue_blocking` from one acquisition of the mutex to its next release. The
counter is left alone: the code decrements it after the unlock.
-/
def ringbufDequeueBlocking (r : Ringbuf Datum) : Option (Pass (Datum × Ringbuf Datum)) :=
  match r.readpos with
  | none => some .wait
  | some readpos => (fetchDatum r readpos).map .unlock

/-- What `ringbuf_dequeue_blocking` still does after its unlock. -/
def dequeueBlockingEpilogue (r : Ringbuf Datum) : Ringbuf Datum := { r with num := r.num - 1 }

-----------------------------------------------------------------------------------------
-- What a buffer stores
-----------------------------------------------------------------------------------------

/-- Number of elements from `readpos` up to `writepos`, going round the end of the array;
equal pointers mean one full turn.
-/
def storedCount (r : Ringbuf Datum) : Nat :=
  match r.readpos with
  | none => 0
  | some readpos =>
      if readpos < r.writepos then
        r.writepos - readpos
      else
        r.writepos + r.size.toNat - readpos

/-- The stored elements, oldest first. -/
def contents (r : Ringbuf Datum) : List Datum :=
  match r.readpos with
  | none => []
  | some readpos =>
      (List.range (storedCount r)).filterMap (fun offset => r.arr[wrapPtr r (readpos + offset)]?)

end Cvos.RingBuf

/-! The bounded first-in first-out queue that makes room by dropping its oldest element.
Contents are listed oldest first, over an arbitrary element type.
-/

namespace Cvos.Lib.DropOldest

variable {α : Type}

/-- Append one element; a full queue first loses its oldest one. The flag says whether
there was room.
-/
def push (capacity : Nat) (queue : List α) (item : α) : Bool × List α :=
  if queue.length < capacity then (true, queue ++ [item]) else (false, queue.tail ++ [item])

/-- Remove the oldest element, if there is one. -/
def pop : List α → Option (α × List α)
  | [] => none
  | oldest :: rest => some (oldest, rest)

end Cvos.Lib.DropOldest

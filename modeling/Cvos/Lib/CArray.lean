import Cvos.Lib.CMemory

/-! An array as C code sees it: a block of slots of some type, in which slots are read and written
by index and moved with `memmove`. An access behind the part of the block that the code may use is a
fault.
-/

namespace Cvos.Lib

section Blocks

variable {α : Type}

/-- The slot `block[i]`, of those below the limit. -/
def slotAt (limit : Nat) (block : List α) (i : Nat) : Checked α :=
  if i < limit then
    match block[i]? with
    | some slot => .ok slot
    | none => .error .outOfBounds
  else
    .error .outOfBounds

/-- The effect of `memmove (block + dst, block + src, n)`, all of it below the limit. -/
def memmove (limit : Nat) (block : List α) (dst src n : Nat) : Checked (List α) :=
  if src + n ≤ limit ∧ dst + n ≤ limit then
    .ok (block.take dst ++ ((block.drop src).take n ++ block.drop (dst + n)))
  else
    .error .outOfBounds

/-- Reading a slot that is known to stand at the index. -/
theorem slotAt_append_cons {limit : Nat} {before : List α} (below : before.length < limit)
    (slot : α) (behind : List α)
    : slotAt limit (before ++ slot :: behind) before.length = .ok slot := by
  simp [slotAt, below]

/-- Moving slots one up leaves the first of them in its place as well. -/
theorem memmove_up (limit : Nat) {n : Nat} (before : List α) (first : α) {moved : List α} (last : α)
    (behind : List α) (length : n = moved.length + 1) (room : before.length + 1 + n ≤ limit)
    : memmove limit (before ++ (first :: moved ++ last :: behind)) (before.length + 1)
          before.length n
      = .ok (before ++ first :: (first :: moved ++ behind)) := by
  subst length
  have above
      : (before ++ (first :: moved ++ last :: behind)).take (before.length + 1)
        = before ++ [first] := by
    simp [List.take_append, List.take_of_length_le]
  have middle
      : ((before ++ (first :: moved ++ last :: behind)).drop before.length).take (moved.length + 1)
        = first :: moved := by
    simp
  have below
      : (before ++ (first :: moved ++ last :: behind)).drop
            (before.length + 1 + (moved.length + 1))
        = behind := by
    rw [Nat.add_assoc, ← List.drop_drop, List.drop_left, List.cons_append, Nat.add_comm 1,
      List.drop_succ_cons, ← List.drop_drop, List.drop_left, List.drop_one, List.tail_cons]
  rw [memmove, if_pos (by omega), above, middle, below]
  simp

/-- Moving slots down over others leaves some slots behind them. -/
theorem memmove_down (limit : Nat) (kept gone moved behind : List α)
    (room : kept.length + gone.length + moved.length ≤ limit)
    : ∃ left,
        left.length = gone.length
        ∧ memmove limit (kept ++ (gone ++ (moved ++ behind))) kept.length
            (kept.length + gone.length) moved.length
          = .ok (kept ++ (moved ++ (left ++ behind))) := by
  refine ⟨(gone ++ moved).drop moved.length, by simp, ?_⟩
  have middle
      : ((kept ++ (gone ++ (moved ++ behind))).drop (kept.length + gone.length)).take moved.length
        = moved := by
    rw [← List.append_assoc, ← List.length_append, List.drop_left, List.take_left]
  have below
      : (kept ++ (gone ++ (moved ++ behind))).drop (kept.length + moved.length)
        = (gone ++ moved).drop moved.length ++ behind := by
    rw [← List.drop_drop, List.drop_left, ← List.append_assoc, List.drop_append_of_le_length]
    simp
  rw [memmove, if_pos (by omega), List.take_left, middle, below]

end Blocks

end Cvos.Lib

import Cvos.Lib.CBuffer

/-! Memory that may be refused. A program asks for a number of bytes, which `malloc` gives or does
not, and an `int` that is negative becomes a number above the size of every object.
-/

namespace Cvos.Lib

/-- The numbers of bytes that `malloc` gives. -/
class Supply where
  gives : Nat → Bool

/-- There is no end of memory. -/
@[reducible]
def Supply.unlimited : Supply := ⟨fun _ => true⟩

section Requests

variable [Supply]

/-- Every number of bytes below a bound is given. -/
def Supplied (bound : Nat) : Prop := ∀ size < bound, Supply.gives size = true

/-- The size of the block that `malloc` returns for an `int`, if it is no null pointer. -/
def mallocInt (size : Int) : Option Nat :=
  if 0 ≤ size ∧ Supply.gives size.toNat then some size.toNat else none

/-- A smaller bound is kept, too. -/
theorem Supplied.mono {bound bound' : Nat} (supplied : Supplied bound') (smaller : bound ≤ bound')
    : Supplied bound :=
  fun size below => supplied size (Nat.lt_of_lt_of_le below smaller)

/-- What is given is as large as it was to be. -/
theorem mallocInt_eq_some {size : Int} {given : Nat} (some : mallocInt size = some given)
    : size = given := by
  rw [mallocInt] at some
  split at some
  next asked =>
    obtain rfl := Option.some.inj some
    exact (Int.toNat_of_nonneg asked.1).symm
  next => exact absurd some (by simp)

/-- Below the bound, memory is given. -/
theorem mallocInt_eq {bound size : Nat} (supplied : Supplied bound) (small : size < bound)
    : mallocInt size = some size := by
  rw [mallocInt, Int.toNat_natCast, if_pos ⟨Int.natCast_nonneg size, supplied size small⟩]

/-- Only a number of bytes that is negative or refused is not given. -/
theorem not_supplied {bound size : Nat} (small : size < bound) (none : mallocInt size = none)
    : ¬Supplied bound := by
  intro supplied
  rw [mallocInt_eq supplied small] at none
  exact absurd none (by simp)

end Requests

/-- Without an end, every number of bytes is given. -/
theorem supplied_unlimited (bound : Nat) : @Supplied .unlimited bound := fun _ _ => rfl

end Cvos.Lib

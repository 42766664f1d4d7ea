import Cvos.Lib.CBuffer

/-! Messages that are absorbed block by block into a state, and integers as little-endian bytes. -/

namespace Cvos.Lib

/-- The value of bytes, the least significant one first. -/
def littleEndian : Bytes → Nat
  | [] => 0
  | byte :: bytes => byte.toNat + 256 * littleEndian bytes

/-- The lowest bytes of a value, the least significant one first. -/
def leBytes : Nat → Nat → Bytes
  | 0, _ => []
  | count + 1, value => UInt8.ofNat value :: leBytes count (value / 256)

/-- The number of bytes is as asked for. -/
@[simp]
theorem length_leBytes (count value : Nat) : (leBytes count value).length = count := by
  induction count generalizing value with
  | zero => rfl
  | succ count ih => rw [leBytes, List.length_cons, ih]

/-- Only the part of a value that fits is written. -/
theorem leBytes_mod (count value : Nat)
    : leBytes count (value % 256 ^ count) = leBytes count value := by
  induction count generalizing value with
  | zero => rfl
  | succ count ih =>
      have low : UInt8.ofNat (value % 256 ^ (count + 1)) = UInt8.ofNat value := by
        apply UInt8.toNat_inj.mp
        rw [UInt8.toNat_ofNat', UInt8.toNat_ofNat']
        exact Nat.mod_mod_of_dvd _ ⟨256 ^ count, by rw [Nat.pow_succ, Nat.mul_comm]⟩
      have high : value % 256 ^ (count + 1) / 256 = value / 256 % 256 ^ count := by
        rw [Nat.pow_succ, Nat.mul_comm]
        exact Nat.mod_mul_right_div_self _ _ _
      rw [leBytes, leBytes, low, high, ih]

/-- A value is written part by part. -/
theorem leBytes_append (count count' value : Nat)
    : leBytes (count + count') value
      = leBytes count value ++ leBytes count' (value / 256 ^ count) := by
  induction count generalizing value with
  | zero => simp [leBytes]
  | succ count ih =>
      rw [Nat.succ_add, leBytes, leBytes, ih, Nat.div_div_eq_div_mul, Nat.pow_succ,
        Nat.mul_comm 256]
      rfl

section Absorption

variable {State : Type} (compress : State → Bytes → State) (size : Nat)

/-- The state after a number of blocks. -/
def absorbBlocks : Nat → State → Bytes → State
  | 0, state, _ => state
  | count + 1, state, message =>
      absorbBlocks count (compress state (message.take size)) (message.drop size)

/-- The state after the full blocks of a message. -/
def absorb (state : State) (message : Bytes) : State :=
  absorbBlocks compress size (message.length / size) state message

/-- What stands behind the full blocks of a message. -/
def residue (message : Bytes) : Bytes := message.drop (message.length / size * size)

/-- Less than a block is left. -/
theorem length_residue (message : Bytes)
    : (residue size message).length = message.length % size := by
  have parts := Nat.div_add_mod message.length size
  rw [residue, List.length_drop, Nat.mul_comm]
  omega

variable {size}

/-- Less than a block is not absorbed. -/
theorem absorb_short {message : Bytes} (short : message.length < size) (state : State)
    : absorb compress size state message = state := by
  rw [absorb, Nat.div_eq_of_lt short]
  rfl

omit compress in
/-- Less than a block is left as it is. -/
theorem residue_short {message : Bytes} (short : message.length < size)
    : residue size message = message := by
  rw [residue, Nat.div_eq_of_lt short, Nat.zero_mul, List.drop_zero]

/-- A block in front is absorbed first. -/
theorem absorb_block {block : Bytes} (full : block.length = size) (positive : 0 < size)
    (state : State) (rest : Bytes)
    : absorb compress size state (block ++ rest)
      = absorb compress size (compress state block) rest := by
  rw [absorb, List.length_append, full, Nat.add_div_left _ positive, absorbBlocks, absorb,
    List.take_left' full, List.drop_left' full]

omit compress in
/-- A block in front is not left. -/
theorem residue_block {block : Bytes} (full : block.length = size) (positive : 0 < size)
    (rest : Bytes)
    : residue size (block ++ rest) = residue size rest := by
  rw [residue, List.length_append, full, Nat.add_div_left _ positive, Nat.succ_mul, Nat.add_comm,
    ← List.drop_drop, List.drop_left' full, residue]

/-- A message is absorbed part by part, where what is left of one part stands in front of the next.
-/
theorem absorb_append (positive : 0 < size) (state : State) (message more : Bytes)
    : absorb compress size state (message ++ more)
        = absorb compress size (absorb compress size state message) (residue size message ++ more)
      ∧ residue size (message ++ more) = residue size (residue size message ++ more) := by
  induction hn : message.length using Nat.strongRecOn generalizing state message with
  | ind n ih =>
      by_cases short : message.length < size
      · rw [absorb_short compress short, residue_short short]
        exact ⟨rfl, rfl⟩
      · have full : (message.take size).length = size := by
          rw [List.length_take]
          omega
        have further := ih (message.drop size).length (by rw [List.length_drop]; omega)
          (compress state (message.take size)) (message.drop size) rfl
        have split : message = message.take size ++ message.drop size :=
          (List.take_append_drop _ _).symm
        rw [split, List.append_assoc, absorb_block compress full positive,
          residue_block full positive, absorb_block compress full positive,
          residue_block full positive]
        exact further

end Absorption

end Cvos.Lib

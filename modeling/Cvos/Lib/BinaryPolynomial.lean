import Cvos.Lib.ShiftRegister
import Mathlib.Algebra.CharP.Two
import Mathlib.Algebra.Field.ZMod
import Mathlib.Algebra.Polynomial.Div

/-! Bits as polynomials over two elements. A feedback shift register divides by a polynomial: it
holds the remainder of the bits that it has taken in.
-/

namespace Cvos.Lib

open Polynomial

/-- A bit as an element of the field. -/
def bitValue (bit : Bool) : ZMod 2 := if bit then 1 else 0

/-- The polynomial of some bits, of which the first one has the highest degree. -/
noncomputable def bitPoly (bits : List Bool) : (ZMod 2)[X] :=
  bits.foldl (fun p bit => p * X + C (bitValue bit)) 0

/-- The polynomial of a word. -/
noncomputable def wordPoly {w : Nat} (word : BitVec w) : (ZMod 2)[X] := bitPoly (msbFirst word)

/-- The polynomial that a shift register divides by, which is given without its leading term. -/
noncomputable def generator {w : Nat} (poly : BitVec w) : (ZMod 2)[X] := X ^ w + wordPoly poly

/-- Some bits with a word xored into the first ones. -/
def preset {w : Nat} (register : BitVec w) (bits : List Bool) : List Bool :=
  List.zipWith xor (bits.take w) (msbFirst register) ++ bits.drop w

@[simp]
theorem bitPoly_nil : bitPoly [] = 0 := rfl

/-- A further bit has the lowest degree. -/
theorem bitPoly_concat (bits : List Bool) (bit : Bool)
    : bitPoly (bits ++ [bit]) = bitPoly bits * X + C (bitValue bit) := by
  rw [bitPoly, List.foldl_concat]
  rfl

/-- The bits of one part are above those of the next one. -/
theorem bitPoly_append (bits bits' : List Bool)
    : bitPoly (bits ++ bits') = bitPoly bits * X ^ bits'.length + bitPoly bits' := by
  induction bits' using List.reverseRecOn with
  | nil => simp
  | append_singleton bits' bit ih =>
      rw [← List.append_assoc, bitPoly_concat, ih, bitPoly_concat, List.length_append,
        List.length_singleton, pow_succ]
      ring

/-- The first bit has the highest degree. -/
theorem bitPoly_cons (bit : Bool) (bits : List Bool)
    : bitPoly (bit :: bits) = C (bitValue bit) * X ^ bits.length + bitPoly bits := by
  have split := bitPoly_append [bit] bits
  rw [List.singleton_append] at split
  rw [split, ← List.nil_append [bit], bitPoly_concat, bitPoly_nil, zero_mul, zero_add]

/-- Zeros in front do not count. -/
theorem bitPoly_replicate_false (n : Nat) : bitPoly (List.replicate n false) = 0 := by
  induction n with
  | zero => rfl
  | succ n ih =>
      rw [List.replicate_succ, bitPoly_cons, ih]
      simp [bitValue]

/-- The sum of two bits is their exclusive or. -/
theorem bitValue_xor (bit bit' : Bool) : bitValue (bit ^^ bit') = bitValue bit + bitValue bit' := by
  cases bit <;> cases bit' <;> decide

/-- The sum of the polynomials is that of the exclusive or. -/
theorem bitPoly_zipWith {bits bits' : List Bool} (length : bits.length = bits'.length)
    : bitPoly (List.zipWith xor bits bits') = bitPoly bits + bitPoly bits' := by
  induction bits generalizing bits' with
  | nil =>
      cases bits' with
      | nil => simp
      | cons bit' bits' => contradiction
  | cons bit bits ih =>
      cases bits' with
      | nil => contradiction
      | cons bit' bits' =>
          have same : bits.length = bits'.length := Nat.succ.inj length
          rw [List.zipWith_cons_cons, bitPoly_cons, bitPoly_cons, bitPoly_cons, ih same,
            bitValue_xor, List.length_zipWith, same, Nat.min_self, C_add]
          ring

/-- The degree is below the number of bits. -/
theorem degree_bitPoly_lt (bits : List Bool) : (bitPoly bits).degree < bits.length := by
  induction bits with
  | nil => simp
  | cons bit bits ih =>
      rw [bitPoly_cons, List.length_cons]
      have more : (bits.length : WithBot Nat) < (bits.length + 1 : Nat) :=
        Nat.cast_lt.mpr (Nat.lt_succ_self bits.length)
      refine lt_of_le_of_lt (degree_add_le _ _) (max_lt ?_ (ih.trans more))
      exact lt_of_le_of_lt (degree_C_mul_X_pow_le _ _) more

section Division

variable {w : Nat} (poly : BitVec w)

/-- The degree of a word is below its width. -/
theorem degree_wordPoly_lt (word : BitVec w) : (wordPoly word).degree < w := by
  have below := degree_bitPoly_lt (msbFirst word)
  rwa [length_msbFirst] at below

/-- The leading term of the polynomial is the power of the width. -/
theorem monic_generator : (generator poly).Monic := monic_X_pow_add (degree_wordPoly_lt poly)

theorem degree_generator : (generator poly).degree = w := by
  have below : (wordPoly poly).degree < (X ^ w : (ZMod 2)[X]).degree := by
    rw [degree_X_pow]
    exact degree_wordPoly_lt poly
  rw [generator, degree_add_eq_left_of_degree_lt below, degree_X_pow]

/-- A register that is shifted loses its highest bit. -/
theorem wordPoly_shiftLeft (reg : BitVec w)
    : wordPoly (reg <<< 1) + C (bitValue reg.msb) * X ^ w = wordPoly reg * X := by
  cases w with
  | zero => simp [wordPoly, msbFirst, bitValue, BitVec.msb_eq_getMsbD_zero]
  | succ w =>
      have bits
          : msbFirst reg = reg.msb :: (List.range w).map fun i => reg.getMsbD (i + 1) := by
        rw [msbFirst, List.range_succ_eq_map, List.map_cons, List.map_map,
          BitVec.msb_eq_getMsbD_zero]
        rfl
      have shifted
          : msbFirst (reg <<< 1)
            = ((List.range w).map fun i => reg.getMsbD (i + 1)) ++ [false] := by
        rw [msbFirst, List.range_succ, List.map_append]
        simp
      rw [wordPoly, wordPoly, bits, shifted, bitPoly_cons, bitPoly_concat]
      have lowest : bitValue false = 0 := rfl
      rw [List.length_map, List.length_range, lowest, C_0]
      ring

/-- The polynomial of an exclusive or is the sum. -/
theorem wordPoly_xor (word word' : BitVec w)
    : wordPoly (word ^^^ word') = wordPoly word + wordPoly word' := by
  rw [wordPoly, msbFirst_xor, bitPoly_zipWith (by simp)]
  rfl

/-- One step of the register takes in a bit and subtracts a multiple of the polynomial. -/
theorem wordPoly_shiftBit (reg : BitVec w) (bit : Bool)
    : wordPoly (shiftBit poly reg bit) + generator poly * C (bitValue (reg.msb ^^ bit))
      = wordPoly reg * X + C (bitValue bit) * X ^ w := by
  have twice (p : (ZMod 2)[X]) : p + p = 0 := CharTwo.add_self_eq_zero p
  rw [← wordPoly_shiftLeft, bitValue_xor, shiftBit]
  by_cases same : reg.msb = bit
  · subst same
    rw [if_neg (by simp), C_add, twice, mul_zero, add_zero, add_assoc, twice, add_zero]
  · have one : bitValue reg.msb + bitValue bit = 1 := by
      have differ : (reg.msb ^^ bit) = true := by simpa using same
      rw [← bitValue_xor, differ]
      rfl
    rw [if_pos same, one, C_1, mul_one, wordPoly_xor, generator]
    have terms : C (bitValue reg.msb) * X ^ w + C (bitValue bit) * X ^ w = X ^ w := by
      rw [← add_mul, ← C_add, one, C_1, one_mul]
    rw [add_assoc (wordPoly (reg <<< 1)) (C (bitValue reg.msb) * X ^ w), terms]
    calc wordPoly (reg <<< 1) + wordPoly poly + (X ^ w + wordPoly poly)
        = wordPoly (reg <<< 1) + X ^ w + (wordPoly poly + wordPoly poly) := by ring
      _ = wordPoly (reg <<< 1) + X ^ w := by rw [twice, add_zero]

/-- A register holds the remainder of the bits that it has taken in, behind what it held. -/
theorem wordPoly_shiftBits (reg : BitVec w) (bits : List Bool)
    : wordPoly (shiftBits poly reg bits)
      = (wordPoly reg * X ^ bits.length + bitPoly bits * X ^ w) %ₘ generator poly := by
  obtain ⟨quotient, divided⟩
      : ∃ quotient,
          wordPoly (shiftBits poly reg bits) + generator poly * quotient
          = wordPoly reg * X ^ bits.length + bitPoly bits * X ^ w := by
    induction bits using List.reverseRecOn with
    | nil => exact ⟨0, by simp⟩
    | append_singleton bits bit ih =>
        obtain ⟨quotient, divided⟩ := ih
        have step := wordPoly_shiftBit poly (shiftBits poly reg bits) bit
        refine ⟨quotient * X + C (bitValue ((shiftBits poly reg bits).msb ^^ bit)), ?_⟩
        rw [shiftBits_append, shiftBits_cons, shiftBits_nil, mul_add, bitPoly_concat,
          List.length_append, List.length_singleton]
        calc wordPoly (shiftBit poly (shiftBits poly reg bits) bit)
              + (generator poly * (quotient * X)
                + generator poly * C (bitValue ((shiftBits poly reg bits).msb ^^ bit)))
            = wordPoly (shiftBits poly reg bits) * X + C (bitValue bit) * X ^ w
              + generator poly * (quotient * X) := by
              rw [← step]
              ring
          _ = (wordPoly (shiftBits poly reg bits) + generator poly * quotient) * X
              + C (bitValue bit) * X ^ w := by ring
          _ = _ := by
              rw [divided]
              ring
  have small : (wordPoly (shiftBits poly reg bits)).degree < (generator poly).degree := by
    rw [degree_generator]
    exact degree_wordPoly_lt _
  exact (div_modByMonic_unique quotient _ (monic_generator poly) ⟨divided, small⟩).2.symm

/-- The polynomial of a word is added at the highest degrees. -/
theorem bitPoly_preset (register : BitVec w) {bits : List Bool} (long : w ≤ bits.length)
    : bitPoly (preset register bits)
      = wordPoly register * X ^ (bits.length - w) + bitPoly bits := by
  have same : (bits.take w).length = (msbFirst register).length := by simp [long]
  have whole : bitPoly (bits.take w ++ bits.drop w) = bitPoly bits := by
    rw [List.take_append_drop]
  rw [preset, bitPoly_append, bitPoly_zipWith same, ← whole, bitPoly_append, List.length_drop,
    wordPoly]
  ring

/-- A register holds the remainder of the bits that it has taken in and as many zeros as it is wide,
if what it held at first is xored into the first ones.
-/
theorem wordPoly_shiftBits_preset (reg : BitVec w) (bits : List Bool)
    : wordPoly (shiftBits poly reg bits)
      = bitPoly (preset reg (bits ++ List.replicate w false)) %ₘ generator poly := by
  rw [wordPoly_shiftBits, bitPoly_preset reg (by simp), bitPoly_append, bitPoly_replicate_false,
    List.length_append, List.length_replicate, Nat.add_sub_cancel, add_zero]

end Division

end Cvos.Lib

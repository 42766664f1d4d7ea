import Cvos.LibJson.NumberText

/-! What the arithmetic of `parse_number` makes of the digits of a number. An integer that is
represented exactly is read as itself; and where nothing is rounded, a number is read as the decimal
fraction that its text denotes, as long as its exponent is an `int`.
-/

namespace Cvos.LibJson

open Cvos.Lib

namespace Numeral

/-- The value of the digits in front of the point, with the sign. -/
def integer (n : Numeral) : Int :=
  if n.negative then -(digitsValue n.digits : Int) else digitsValue n.digits

/-- The number is written without a fraction and an exponent. -/
def IsInteger (n : Numeral) : Prop := n.fraction = [] ∧ n.exponent = none

/-- The digits of the exponent are those of an `int`. -/
def ShortExponent (n : Numeral) : Prop :=
  ∀ e, n.exponent = some e → digitsValue e.digits < 2 ^ 31

/-- The exponent, as it is written. -/
def power (n : Numeral) : Int :=
  match n.exponent with
  | none => 0
  | some e => if e.sign = some true then -(digitsValue e.digits : Int) else digitsValue e.digits

/-- The decimal fraction that the text denotes: the digits of its integer and its fraction, scaled
by the length of the fraction and by the exponent.
-/
def rational (n : Numeral) : ℚ :=
  (if n.negative then -1 else 1) * digitsValue (n.digits ++ n.fraction)
    * 10 ^ (n.power - n.fraction.length)

end Numeral

section Integers

variable {F : Type} [CDouble F] [ExactIntegers F]

/-- Digits are computed exactly. -/
theorem foldl_integerStep {digits : Bytes} (isDigits : ∀ c ∈ digits, isDigit c)
    (small : digitsValue digits ≤ 2 ^ 53)
    : digits.foldl integerStep (CDouble.ofInt 0 : F) = CDouble.ofInt (digitsValue digits) := by
  induction digits using List.reverseRecOn with
  | nil => rfl
  | append_singleton digits c ih =>
      obtain ⟨before, last⟩ := List.forall_mem_append.mp isDigits
      obtain ⟨d, bound, rfl⟩ := exists_digit (last c (List.mem_singleton.mpr rfl))
      rw [digitsValue_concat, toNat_digitByte d bound, Nat.add_sub_cancel_left] at small ⊢
      rw [List.foldl_append, ih before (by omega), List.foldl_cons, List.foldl_nil, integerStep,
        toNat_digitByte d bound, ExactIntegers.mul_ofInt, ExactIntegers.add_ofInt]
      · congr 1
        push_cast
        omega
      all_goals
        first
        | exact .inl ⟨by omega, by omega⟩
        | decide
        | (rw [ExactInt]; push_cast; omega)

/-- Without a fraction and an exponent, only the sign is applied. -/
theorem scaled_int {sign n : Int} (isSign : sign = 1 ∧ 0 ≤ n ∨ sign = -1 ∧ 0 < n)
    (small : n ≤ 2 ^ 53)
    : scaled (CDouble.ofInt sign) (CDouble.ofInt n : F) (CDouble.ofInt 0) 0 1
      = CDouble.ofInt (sign * n) := by
  have exact {z : Int} (low : -2 ^ 53 ≤ z) (high : z ≤ 2 ^ 53) : ExactInt z := ⟨low, high⟩
  have zero : int32 (0 * 1) = 0 := rfl
  have product : -2 ^ 53 ≤ sign * n ∧ sign * n ≤ 2 ^ 53 ∧ (0 ≤ sign * n ∨ sign * n * 1 ≠ 0) := by
    rcases isSign with ⟨rfl, low⟩ | ⟨rfl, low⟩ <;> omega
  rw [scaled, zero, ExactIntegers.mul_ofInt, ExactIntegers.add_ofInt, add_zero,
    ExactIntegers.pow_zero, ExactIntegers.mul_ofInt, mul_one]
  · exact exact product.1 product.2.1
  · exact exact (by decide) (by decide)
  · rw [mul_one]
    exact exact product.1 product.2.1
  · exact product.2.2.imp_left fun low => ⟨low, by decide⟩
  · exact exact (by decide) (by decide)
  · exact exact (by decide) (by decide)
  · exact exact (by decide) (by decide)
  · exact exact (by decide) (by decide)
  · rcases isSign with ⟨rfl, -⟩ | ⟨rfl, -⟩ <;> exact exact (by decide) (by decide)
  · rcases isSign with ⟨rfl, low⟩ | ⟨rfl, low⟩ <;> exact exact (by omega) (by omega)
  · exact exact product.1 product.2.1
  · rcases isSign with ⟨rfl, low⟩ | ⟨rfl, low⟩
    · exact .inl ⟨by decide, low⟩
    · exact .inr (by omega)

/-- An integer that is represented exactly is read as itself. The text `-0` is not, for it is read
as the negative zero.
-/
theorem Numeral.value_integer {n : Numeral} (isInteger : n.IsInteger)
    (small : digitsValue n.digits ≤ 2 ^ 53) (nonzero : n.negative → digitsValue n.digits ≠ 0)
    : (n.value : F) = CDouble.ofInt n.integer := by
  obtain ⟨fraction, exponent⟩ := isInteger
  rw [Numeral.value, fraction, exponent, foldl_integerStep n.isDigits small, Numeral.integer]
  change scaled _ (CDouble.ofInt (digitsValue n.digits : Int) : F) (CDouble.ofInt 0) 0 1 = _
  cases sign : n.negative with
  | false =>
      have value := @scaled_int F _ _ 1 (digitsValue n.digits) (.inl ⟨rfl, by omega⟩) (by omega)
      rwa [one_mul] at value
  | true =>
      have positive := Nat.pos_of_ne_zero (nonzero sign)
      have value := @scaled_int F _ _ (-1) (digitsValue n.digits) (.inr ⟨rfl, by omega⟩) (by omega)
      rwa [neg_one_mul] at value

end Integers

section Fractions

/-- Digits continue the number in front of them. -/
theorem foldl_integerStep_rat {digits : Bytes} (isDigits : ∀ c ∈ digits, isDigit c) (before : Bytes)
    : digits.foldl integerStep (digitsValue before : ℚ) = digitsValue (before ++ digits) := by
  induction digits generalizing before with
  | nil => rw [List.foldl_nil, List.append_nil]
  | cons c digits ih =>
      obtain ⟨here, behind⟩ := List.forall_mem_cons.mp isDigits
      obtain ⟨d, bound, rfl⟩ := exists_digit here
      have step
          : integerStep (digitsValue before : ℚ) (digitByte d)
            = digitsValue (before ++ [digitByte d]) := by
        rw [digitsValue_concat, integerStep, toNat_digitByte d bound, Nat.add_sub_cancel_left]
        change (digitsValue before : ℚ) * (10 : Int) + ((48 + d : Nat) - 48 : Int) = _
        push_cast
        ring
      rw [List.foldl_cons, step, ih behind, List.append_assoc, List.singleton_append]

/-- The digits of a fraction also count the places behind the point. -/
theorem foldl_fractionStep_rat {digits : Bytes} (isDigits : ∀ c ∈ digits, isDigit c)
    (before : Bytes) (scale : ℚ)
    : digits.foldl fractionStep ((digitsValue before : ℚ), scale)
      = ((digitsValue (before ++ digits) : ℚ), scale - digits.length) := by
  have split (n scale : ℚ)
      : digits.foldl fractionStep (n, scale)
        = (digits.foldl integerStep n, scale - digits.length) := by
    clear isDigits
    induction digits generalizing n scale with
    | nil => simp
    | cons c digits ih =>
        rw [List.foldl_cons, fractionStep, ih, List.foldl_cons, List.length_cons]
        refine Prod.ext rfl ?_
        change scale - (1 : Int) - (digits.length : ℚ) = scale - (digits.length + 1 : Nat)
        push_cast
        ring
  rw [split, foldl_integerStep_rat isDigits]

/-- The digits of an exponent that is an `int` are read as its value. -/
theorem foldl_exponentStep {digits : Bytes} (isDigits : ∀ c ∈ digits, isDigit c)
    (short : digitsValue digits < 2 ^ 31)
    : digits.foldl exponentStep 0 = digitsValue digits := by
  induction digits using List.reverseRecOn with
  | nil => rfl
  | append_singleton digits c ih =>
      obtain ⟨before, last⟩ := List.forall_mem_append.mp isDigits
      obtain ⟨d, bound, rfl⟩ := exists_digit (last c (List.mem_singleton.mpr rfl))
      rw [digitsValue_concat, toNat_digitByte d bound, Nat.add_sub_cancel_left] at short ⊢
      rw [List.foldl_append, ih before (by omega), List.foldl_cons, List.foldl_nil, exponentStep,
        toNat_digitByte d bound, int32_eq_self]
      · push_cast
        omega
      · push_cast
        omega
      · push_cast
        omega

/-- Where nothing is rounded, a number is read as the decimal fraction that it denotes. -/
theorem Numeral.value_rational {n : Numeral} (short : n.ShortExponent)
    : (n.value : ℚ) = n.rational := by
  have exponent
      : ∃ subscale signsubscale,
          (n.exponent.map Exponent.value).getD (0, 1) = (subscale, signsubscale)
          ∧ int32 (subscale * signsubscale) = n.power := by
    rw [Numeral.power]
    cases written : n.exponent with
    | none => exact ⟨0, 1, rfl, rfl⟩
    | some e =>
        have digits := foldl_exponentStep e.isDigits (short e written)
        have small := short e written
        refine ⟨_, _, rfl, ?_⟩
        simp only [digits]
        split
        · rw [mul_neg_one, int32_eq_self (by omega) (by omega)]
        · rw [mul_one, int32_eq_self (by omega) (by omega)]
  obtain ⟨subscale, signsubscale, exponent, power⟩ := exponent
  have start : (CDouble.ofInt 0 : ℚ) = digitsValue [] := rfl
  have sign
      : (if n.negative then CDouble.ofInt (-1) else CDouble.ofInt 1 : ℚ)
        = if n.negative then -1 else 1 := by
    cases n.negative <;> simp [CDouble.ofInt]
  have places : (0 : ℚ) - n.fraction.length + n.power = (n.power - n.fraction.length : Int) := by
    push_cast
    ring
  rw [Numeral.value, exponent, sign, start, foldl_integerStep_rat n.isDigits, List.nil_append,
    foldl_fractionStep_rat n.isFraction, Numeral.rational]
  change _ * _ * ((10 : Int) : ℚ) ^ ⌊(0 : Int) - (n.fraction.length : ℚ) + (int32 _ : Int)⌋ = _
  rw [power, Int.cast_zero, places, Int.floor_intCast]
  rfl

end Fractions

end Cvos.LibJson

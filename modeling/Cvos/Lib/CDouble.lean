import Cvos.Lib.Decimal
import Mathlib.Algebra.Order.Round
import Mathlib.Data.Int.Log
import Mathlib.Data.Rat.Floor

/-! The numbers of the C type `double`, of which only documented behaviour is used: integers of at
most 53 bits are represented exactly, and operations with an exact result deliver it.
-/

namespace Cvos.Lib

/-- What C code does with numbers of the type `double`. -/
class CDouble (F : Type) where
  /-- The conversion of an integer. -/
  ofInt : Int → F
  /-- The constant with the given significant digits and decimal exponent. -/
  constant : Nat → Int → F
  add : F → F → F
  sub : F → F → F
  mul : F → F → F
  pow : F → F → F
  fabs : F → F
  floor : F → F
  /-- The value of `a == b`. -/
  eq : F → F → Bool
  /-- The value of `a <= b`. -/
  le : F → F → Bool
  /-- The value of `a < b`. -/
  lt : F → F → Bool
  /-- The value of `(int)a`. -/
  toInt : F → Int
  /-- `DBL_EPSILON` -/
  epsilon : F
  /-- The text under the format `%.0f`. -/
  formatWhole : F → Bytes
  /-- The text under the format `%f`. -/
  formatFixed : F → Bytes
  /-- The text under the format `%e`. -/
  formatScientific : F → Bytes

open CDouble

/-- The integers that are represented exactly. -/
def ExactInt (z : Int) : Prop := -2 ^ 53 ≤ z ∧ z ≤ 2 ^ 53

instance (z : Int) : Decidable (ExactInt z) :=
  inferInstanceAs (Decidable (_ ∧ _))

/-- Integers that are represented exactly are computed with exactly. A product that is zero because
of one negative factor would be the negative zero.
-/
class ExactIntegers (F : Type) [CDouble F] : Prop where
  mul_ofInt {a b : Int} (left : ExactInt a) (right : ExactInt b) (exact : ExactInt (a * b))
    (sign : 0 ≤ a ∧ 0 ≤ b ∨ a * b ≠ 0)
    : mul (ofInt a) (ofInt b) = (ofInt (a * b) : F)
  add_ofInt {a b : Int} (left : ExactInt a) (right : ExactInt b) (exact : ExactInt (a + b))
    : add (ofInt a) (ofInt b) = (ofInt (a + b) : F)
  sub_ofInt {a b : Int} (left : ExactInt a) (right : ExactInt b) (exact : ExactInt (a - b))
    : sub (ofInt a) (ofInt b) = (ofInt (a - b) : F)
  pow_zero {a : Int} (exact : ExactInt a) : pow (ofInt a) (ofInt 0) = (ofInt 1 : F)
  fabs_ofInt {a : Int} (exact : ExactInt a) : fabs (ofInt a) = (ofInt a.natAbs : F)
  eq_ofInt {a b : Int} (left : ExactInt a) (right : ExactInt b)
    : eq (ofInt a : F) (ofInt b) = decide (a = b)
  le_ofInt {a b : Int} (left : ExactInt a) (right : ExactInt b)
    : le (ofInt a : F) (ofInt b) = decide (a ≤ b)
  zero_le_epsilon : le (ofInt 0 : F) epsilon = true

/-- The text of a rational number with six decimals, the last one rounded. -/
def sixDecimals (q : ℚ) : Bytes :=
  let millionths := (round (q * 1000000)).natAbs
  (if q < 0 then ['-'.toUInt8] else [])
    ++ (decimal (millionths / 1000000) ++ '.'.toUInt8 :: zeroPadded 6 (millionths % 1000000))

/-- The rational numbers behave as the type `double` where nothing has to be rounded. -/
instance : CDouble ℚ where
  ofInt z := z
  constant digits exponent := digits * 10 ^ exponent
  add := (· + ·)
  sub := (· - ·)
  mul := (· * ·)
  pow a b := a ^ ⌊b⌋
  fabs a := |a|
  floor a := ⌊a⌋
  eq a b := a = b
  le a b := a ≤ b
  lt a b := a < b
  toInt a := if 0 ≤ a then ⌊a⌋ else ⌈a⌉
  epsilon := 1 / 0x10000000000000
  formatWhole a := decimalInt (round a)
  formatFixed a := sixDecimals a
  formatScientific a :=
    let exponent := Int.log 10 |a|
    sixDecimals (a * 10 ^ (-exponent))
      ++ ('e'.toUInt8
        :: (if exponent < 0 then '-'.toUInt8 else '+'.toUInt8) :: zeroPadded 2 exponent.natAbs)

/-- Nothing has to be rounded among integers. -/
instance : ExactIntegers ℚ where
  mul_ofInt _ _ _ _ := (Int.cast_mul _ _).symm
  add_ofInt _ _ _ := (Int.cast_add _ _).symm
  sub_ofInt _ _ _ := (Int.cast_sub _ _).symm
  pow_zero _ := by simp [CDouble.pow, CDouble.ofInt]
  fabs_ofInt {a} _ := by
    simp [CDouble.fabs, CDouble.ofInt]
  eq_ofInt _ _ := by simp [CDouble.eq, CDouble.ofInt]
  le_ofInt _ _ := by simp [CDouble.le, CDouble.ofInt]
  zero_le_epsilon := by simp [CDouble.le, CDouble.ofInt, CDouble.epsilon]

end Cvos.Lib

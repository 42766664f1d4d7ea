import Cvos.Lib.CBuffer

/-! Decimal numbers as texts: what `sprintf` prints of a number, and what `atoi` reads. -/

namespace Cvos.Lib

/-- The byte of a digit. -/
def digitByte (d : Nat) : UInt8 := UInt8.ofNat (48 + d)

/-- The byte is a digit. -/
def isDigit (c : UInt8) : Bool := digitByte 0 ≤ c && c ≤ digitByte 9

/-- The byte is skipped in front of a number. -/
def isBlankByte (c : UInt8) : Bool := c == ' '.toUInt8 || (0x09 ≤ c && c ≤ 0x0d)

/-- The text of a number under the format `%u`. -/
def decimal (n : Nat) : Bytes := (Nat.toDigits 10 n).map Char.toUInt8

/-- The text of a number under the format `%ld`. -/
def decimalInt (z : Int) : Bytes :=
  if z < 0 then '-'.toUInt8 :: decimal z.natAbs else decimal z.natAbs

/-- The text of a number under a format like `%02u`. -/
def zeroPadded (width n : Nat) : Bytes := (decimal n).leftpad width (digitByte 0)

/-- The text of a number under a format like `%9lu`. -/
def blankPadded (width n : Nat) : Bytes := (decimal n).leftpad width ' '.toUInt8

/-- The text of a number under a format like `%02d`. -/
def zeroPaddedInt (width : Nat) (z : Int) : Bytes :=
  if z < 0 then '-'.toUInt8 :: zeroPadded (width - 1) z.natAbs else zeroPadded width z.natAbs

/-- The number that some digits are read as. -/
def digitsValue (s : Bytes) : Nat := s.foldl (fun value c => 10 * value + (c.toNat - 48)) 0

/-- A number as a `long`, which is the nearest one if it is none. -/
def clampLong (z : Int) : Int := max (-2 ^ 63) (min z (2 ^ 63 - 1))

/-- `atoi`, for a string without its terminator: the digits behind blanks and a sign are read as a
`long`, which becomes an `int`.
-/
def atoi (s : Bytes) : Int :=
  let s := s.dropWhile isBlankByte
  let negative := s.head? = some '-'.toUInt8
  let digits := if negative ∨ s.head? = some '+'.toUInt8 then s.tail else s
  let value : Int := digitsValue (digits.takeWhile isDigit)
  int32 (clampLong (if negative then -value else value))

/-- A number is printed digit by digit. -/
theorem decimal_eq (n : Nat)
    : decimal n = if n < 10 then [digitByte n] else decimal (n / 10) ++ [digitByte (n % 10)] := by
  have digit : ∀ d < 10, d.digitChar.toUInt8 = digitByte d := by decide
  rw [decimal, Nat.toDigits_eq_if (by decide)]
  split
  next small => rw [List.map_singleton, digit n small]
  next =>
    rw [List.map_append, List.map_singleton, digit (n % 10) (Nat.mod_lt n (by decide))]
    rfl

/-- The byte of a digit is a digit. -/
theorem isDigit_digitByte : ∀ d < 10, isDigit (digitByte d) := by decide

/-- A digit is the byte of its value. -/
theorem exists_digit {c : UInt8} (digit : isDigit c) : ∃ d < 10, c = digitByte d := by
  simp only [isDigit, Bool.and_eq_true, decide_eq_true_eq, UInt8.le_iff_toNat_le] at digit
  have low : 48 ≤ c.toNat := digit.1
  have high : c.toNat ≤ 57 := digit.2
  refine ⟨c.toNat - 48, by omega, ?_⟩
  rw [digitByte, Nat.add_sub_cancel' low, UInt8.ofNat_toNat]

/-- The value of the byte of a digit. -/
theorem toNat_digitByte : ∀ d < 10, (digitByte d).toNat = 48 + d := by decide

/-- A printed number has digits only. -/
theorem isDigit_decimal (n : Nat) : ∀ c ∈ decimal n, isDigit c := by
  induction n using Nat.strongRecOn with
  | ind n ih =>
      rw [decimal_eq]
      split
      next small => simpa using isDigit_digitByte n small
      next large =>
        refine List.forall_mem_append.mpr ⟨ih (n / 10) (by omega), ?_⟩
        simpa using isDigit_digitByte (n % 10) (Nat.mod_lt n (by decide))

/-- The number of digits is that of the power of ten. -/
theorem length_decimal_le_iff {n k : Nat} (positive : 0 < k)
    : (decimal n).length ≤ k ↔ n < 10 ^ k := by
  rw [decimal, List.length_map]
  exact Nat.length_toDigits_le_iff (by decide) positive

/-- A number of one digit is printed as it. -/
theorem zeroPadded_one {n : Nat} (small : n < 10) : zeroPadded 1 n = [digitByte n] := by
  rw [zeroPadded, decimal_eq, if_pos small]
  rfl

/-- The last digit of a number is printed behind the others. -/
theorem zeroPadded_succ {width : Nat} (positive : 0 < width) (n : Nat)
    : zeroPadded (width + 1) n = zeroPadded width (n / 10) ++ [digitByte (n % 10)] := by
  rw [zeroPadded, zeroPadded, decimal_eq n]
  split
  next small =>
    rw [Nat.div_eq_of_lt small, Nat.mod_eq_of_lt small, decimal_eq 0, if_pos (by decide)]
    simp only [List.leftpad, List.length_singleton, Nat.add_sub_cancel]
    rw [← List.replicate_succ', Nat.sub_add_cancel positive]
  next large => simp [List.leftpad]

/-- A number of two digits is printed as both. -/
theorem zeroPadded_two {n : Nat} (small : n < 100)
    : zeroPadded 2 n = [digitByte (n / 10), digitByte (n % 10)] := by
  rw [zeroPadded_succ (by decide), zeroPadded_one (by omega)]
  rfl

/-- A number of four digits is printed as two numbers of two. -/
theorem zeroPadded_four (n : Nat)
    : zeroPadded 4 n = zeroPadded 2 (n / 100) ++ zeroPadded 2 (n % 100) := by
  have tens : n / 10 % 10 = n % 100 / 10 := by omega
  have ones : n % 10 = n % 100 % 10 := by omega
  rw [zeroPadded_succ (by decide), zeroPadded_succ (by decide), Nat.div_div_eq_div_mul,
    @zeroPadded_two (n % 100) (by omega), tens, ones, List.append_assoc]
  rfl

/-- A further digit is worth the least. -/
theorem digitsValue_concat (s : Bytes) (c : UInt8)
    : digitsValue (s ++ [c]) = 10 * digitsValue s + (c.toNat - 48) := by
  rw [digitsValue, List.foldl_concat]
  rfl

/-- A printed number is read as the number. -/
theorem digitsValue_decimal (n : Nat) : digitsValue (decimal n) = n := by
  induction n using Nat.strongRecOn with
  | ind n ih =>
      rw [decimal_eq]
      split
      next small => simp [digitsValue, toNat_digitByte n small]
      next large =>
        rw [digitsValue_concat, ih (n / 10) (by omega),
          toNat_digitByte (n % 10) (Nat.mod_lt n (by decide))]
        omega

/-- A `long` is the nearest one to itself. -/
theorem clampLong_eq_self {z : Int} (low : -2 ^ 63 ≤ z) (high : z < 2 ^ 63) : clampLong z = z := by
  rw [clampLong]
  omega

/-- A digit is neither skipped nor a sign. -/
theorem of_isDigit {c : UInt8} (digit : isDigit c)
    : isBlankByte c = false ∧ c ≠ '-'.toUInt8 ∧ c ≠ '+'.toUInt8 ∧ c ≠ 0 := by
  have all
      : ∀ d < 10,
          isBlankByte (digitByte d) = false
          ∧ digitByte d ≠ '-'.toUInt8
          ∧ digitByte d ≠ '+'.toUInt8
          ∧ digitByte d ≠ 0 := by
    decide
  obtain ⟨d, small, rfl⟩ := exists_digit digit
  exact all d small

/-- Digits are read as their number. -/
theorem atoi_digits {s : Bytes} (digits : ∀ c ∈ s, isDigit c)
    : atoi s = int32 (clampLong (digitsValue s)) := by
  have all : s.takeWhile isDigit = s := List.takeWhile_eq_self_iff.mpr digits
  cases s with
  | nil => rfl
  | cons c rest =>
      obtain ⟨filled, noMinus, noPlus, -⟩ := of_isDigit (digits c List.mem_cons_self)
      have start : (c :: rest).dropWhile isBlankByte = c :: rest := by simp [filled]
      rw [atoi]
      simp only [start, List.head?_cons, Option.some.injEq, noMinus, noPlus, or_self, if_false, all]

/-- Digits of an `int` are read as its value. -/
theorem atoi_eq_digitsValue {s : Bytes} (digits : ∀ c ∈ s, isDigit c)
    (bound : digitsValue s < 2 ^ 31)
    : atoi s = digitsValue s := by
  rw [atoi_digits digits, clampLong_eq_self (by omega) (by omega),
    int32_eq_self (by omega) (by omega)]

/-- Digits are no NUL. -/
theorem nulFree_digits {s : Bytes} (digits : ∀ c ∈ s, isDigit c) : ∀ c ∈ s, c ≠ 0 :=
  fun c member => (of_isDigit (digits c member)).2.2.2

/-- A printed number is read as the `int` that it becomes. -/
theorem atoi_decimalInt {z : Int} (low : -2 ^ 63 ≤ z) (high : z < 2 ^ 63)
    : atoi (decimalInt z) = int32 z := by
  rw [decimalInt]
  split
  next negative =>
    have all : (decimal z.natAbs).takeWhile isDigit = decimal z.natAbs :=
      List.takeWhile_eq_self_iff.mpr (isDigit_decimal _)
    have start (rest : Bytes)
        : ('-'.toUInt8 :: rest).dropWhile isBlankByte = '-'.toUInt8 :: rest := rfl
    have value : -(z.natAbs : Int) = z := by omega
    rw [atoi]
    simp only [start, List.head?_cons, List.tail_cons, true_or, if_true, all, digitsValue_decimal,
      value, clampLong_eq_self low high]
  next nonneg =>
    have value : (z.natAbs : Int) = z := by omega
    rw [atoi_digits (isDigit_decimal _), digitsValue_decimal, value, clampLong_eq_self low high]

/-- A printed number has no NUL. -/
theorem nulFree_decimalInt (z : Int) : ∀ c ∈ decimalInt z, c ≠ 0 := by
  have digits : ∀ c ∈ decimal z.natAbs, c ≠ 0 := nulFree_digits (isDigit_decimal z.natAbs)
  rw [decimalInt]
  split
  next => exact List.forall_mem_cons.mpr ⟨by decide, digits⟩
  next => exact digits

/-- The length of a printed number, of which a sign takes one character. -/
theorem length_decimalInt_le_iff {z : Int} {k : Nat} (positive : 0 < k)
    : (decimalInt z).length ≤ k + 1 ↔ -10 ^ k < z ∧ z < 10 ^ (k + 1) := by
  have power (n : Nat) : ((10 ^ n : Nat) : Int) = 10 ^ n := Int.natCast_pow 10 n
  have above (n : Nat) : 0 < 10 ^ n := Nat.pow_pos (by decide)
  rw [decimalInt, ← power, ← power]
  split
  next negative =>
    have digits := @length_decimal_le_iff z.natAbs k positive
    have ones := above (k + 1)
    rw [List.length_cons, Nat.add_le_add_iff_right, digits]
    omega
  next nonneg =>
    have digits := @length_decimal_le_iff z.natAbs (k + 1) (Nat.succ_pos k)
    have ones := above k
    rw [digits]
    omega

end Cvos.Lib

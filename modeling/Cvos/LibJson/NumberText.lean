import Cvos.LibJson.Parse

/-! The texts that `parse_number` reads, and their values. Each part may be missing, also the digits
behind the mark of an exponent.
-/

namespace Cvos.LibJson

open Cvos.Lib

/-- The exponent of a number. -/
structure Exponent where
  capital : Bool
  sign : Option Bool
  digits : Bytes
  isDigits : ∀ c ∈ digits, isDigit c

/-- The text of the sign of an exponent, which is true for a minus. -/
def signText : Option Bool → Bytes
  | none => []
  | some true => ['-'.toUInt8]
  | some false => ['+'.toUInt8]

/-- The text of an exponent. -/
def Exponent.text (e : Exponent) : Bytes :=
  (if e.capital then 'E'.toUInt8 else 'e'.toUInt8) :: (signText e.sign ++ e.digits)

/-- The values of `subscale` and `signsubscale`. -/
def Exponent.value (e : Exponent) : Int × Int :=
  (e.digits.foldl exponentStep 0, if e.sign = some true then -1 else 1)

/-- A number as a text. It starts with its sign or a digit, and its digits do not start with a zero
of their own.
-/
structure Numeral where
  negative : Bool
  zero : Bool
  digits : Bytes
  fraction : Bytes
  exponent : Option Exponent
  isDigits : ∀ c ∈ digits, isDigit c
  isFraction : ∀ c ∈ fraction, isDigit c
  leading : digits.head? ≠ some (digitByte 0)
  starts : negative ∨ zero ∨ digits ≠ []

namespace Numeral

/-- The text of the fraction. -/
def fractionText (n : Numeral) : Bytes :=
  if n.fraction = [] then [] else '.'.toUInt8 :: n.fraction

/-- The text of the exponent. -/
def exponentText (n : Numeral) : Bytes := (n.exponent.map Exponent.text).getD []

/-- The text of a number. -/
def text (n : Numeral) : Bytes :=
  (if n.negative then ['-'.toUInt8] else [])
    ++ ((if n.zero then [digitByte 0] else [])
      ++ (n.digits ++ (n.fractionText ++ n.exponentText)))

variable {F : Type} [CDouble F]

/-- The value of a number. -/
def value (n : Numeral) : F :=
  let integer := n.digits.foldl integerStep (CDouble.ofInt 0)
  let (integer, scale) := n.fraction.foldl fractionStep (integer, CDouble.ofInt 0)
  let (subscale, signsubscale) := (n.exponent.map Exponent.value).getD (0, 1)
  scaled (if n.negative then CDouble.ofInt (-1) else CDouble.ofInt 1) integer scale subscale
    signsubscale

end Numeral

/-- How a number is spelled. -/
def SpellsNumber {F : Type} [CDouble F] (n : F) (t : Bytes) : Prop :=
  ∃ numeral : Numeral, t = numeral.text ∧ n = numeral.value

/-- The text of a number has no NUL. -/
theorem SpellsNumber.nulFree {F : Type} [CDouble F] {n : F} {t : Bytes}
    (spelled : SpellsNumber n t)
    : ∀ c ∈ t, c ≠ 0 := by
  obtain ⟨numeral, rfl, -⟩ := spelled
  have exponent : ∀ c ∈ numeral.exponentText, c ≠ 0 := by
    rw [Numeral.exponentText]
    cases numeral.exponent with
    | none => simp
    | some e =>
        refine List.forall_mem_cons.mpr ⟨by split <;> decide, List.forall_mem_append.mpr ⟨?_, ?_⟩⟩
        · rcases e.sign with _ | _ | _ <;> decide
        · exact nulFree_digits e.isDigits
  have fraction : ∀ c ∈ numeral.fractionText, c ≠ 0 := by
    rw [Numeral.fractionText]
    split
    next => simp
    next => exact List.forall_mem_cons.mpr ⟨by decide, nulFree_digits numeral.isFraction⟩
  rw [Numeral.text]
  simp only [List.forall_mem_append]
  refine ⟨?_, ?_, nulFree_digits numeral.isDigits, fraction, exponent⟩ <;> split <;> decide

/-- What stands behind a value. -/
def Delimiter (c : UInt8) : Prop :=
  c ≤ 32 ∨ c = ','.toUInt8 ∨ c = ']'.toUInt8 ∨ c = '\x7d'.toUInt8

instance (c : UInt8) : Decidable (Delimiter c) :=
  inferInstanceAs (Decidable (_ ∨ _))

/-- A text starts with a character of a kind. -/
def Starts (kind : UInt8 → Prop) (t : Bytes) : Prop := ∃ c rest, t = c :: rest ∧ kind c

/-- A character other than a digit. -/
def NoDigit (c : UInt8) : Prop := isDigit c = false

/-- Digits are read up to another character. -/
theorem parseDigits_append {α : Type} (step : α → UInt8 → α) {digits rest : Bytes}
    (all : ∀ c ∈ digits, isDigit c) (stops : Starts NoDigit rest) (value : α)
    : parseDigits step value (digits ++ rest) = .ok (digits.foldl step value, rest) := by
  induction digits generalizing value with
  | nil =>
      obtain ⟨c, rest, rfl, other⟩ := stops
      rw [NoDigit] at other
      simp [parseDigits, other]
  | cons c digits ih =>
      obtain ⟨here, all⟩ := List.forall_mem_cons.mp all
      rw [List.cons_append, parseDigits, if_pos here, ih all, List.foldl_cons]

/-- What was read as digits are digits, and all of them. -/
theorem parseDigits_eq_ok {α : Type} {step : α → UInt8 → α} {value value' : α} {num rest : Bytes}
    (read : parseDigits step value num = .ok (value', rest))
    : ∃ digits,
        num = digits ++ rest
        ∧ (∀ c ∈ digits, isDigit c)
        ∧ (∀ c t, num = c :: t → isDigit c → digits ≠ [])
        ∧ value' = digits.foldl step value := by
  induction num generalizing value with
  | nil => simp [parseDigits, outside] at read
  | cons c num ih =>
      rw [parseDigits] at read
      split at read
      next digit =>
        obtain ⟨digits, rfl, all, -, rfl⟩ := ih read
        exact ⟨c :: digits, rfl, List.forall_mem_cons.mpr ⟨digit, all⟩, by simp, rfl⟩
      next other =>
        obtain ⟨rfl, rfl⟩ := by simpa using read
        refine ⟨[], rfl, by simp, ?_, rfl⟩
        intro d t split digit
        obtain ⟨rfl, rfl⟩ := by simpa using split
        exact absurd digit other

/-- A character that may stand behind the fraction. -/
def BehindFraction (c : UInt8) : Prop := Delimiter c ∨ c = 'e'.toUInt8 ∨ c = 'E'.toUInt8

/-- A character that may stand behind the digits of the integer. -/
def BehindInteger (c : UInt8) : Prop := BehindFraction c ∨ c = '.'.toUInt8

instance (c : UInt8) : Decidable (BehindFraction c) :=
  inferInstanceAs (Decidable (_ ∨ _))

instance (c : UInt8) : Decidable (BehindInteger c) :=
  inferInstanceAs (Decidable (_ ∨ _))

/-- No digit may stand behind the digits. -/
theorem BehindInteger.noDigit {c : UInt8} (behind : BehindInteger c) : NoDigit c := by
  have none : ∀ d < 10, ¬BehindInteger (digitByte d) := by decide
  by_contra digit
  obtain ⟨d, small, rfl⟩ := exists_digit (by simpa [NoDigit] using digit)
  exact none d small behind

/-- A kind of character that includes another one. -/
theorem Starts.imp {kind kind' : UInt8 → Prop} {t : Bytes} (starts : Starts kind t)
    (includes : ∀ c, kind c → kind' c)
    : Starts kind' t := by
  obtain ⟨c, rest, rfl, isKind⟩ := starts
  exact ⟨c, rest, rfl, includes c isKind⟩

namespace Numeral

variable (n : Numeral) {rest : Bytes} (delimited : Starts Delimiter rest)

include delimited

/-- The exponent starts with its mark. -/
theorem starts_exponentText : Starts BehindFraction (n.exponentText ++ rest) := by
  rw [exponentText]
  cases n.exponent with
  | none => exact delimited.imp fun c delimiter => .inl delimiter
  | some e =>
      refine ⟨_, _, rfl, .inr ?_⟩
      cases e.capital
      · exact .inl rfl
      · exact .inr rfl

/-- The fraction starts with its point. -/
theorem starts_fractionText
    : Starts BehindInteger (n.fractionText ++ (n.exponentText ++ rest)) := by
  rw [fractionText]
  split
  · exact (n.starts_exponentText delimited).imp fun c behind => .inl behind
  · exact ⟨_, _, rfl, .inr rfl⟩

/-- The exponent is read. -/
theorem parseExponent_append
    : parseExponent (n.exponentText ++ rest)
      = .ok ((n.exponent.map Exponent.value).getD (0, 1), rest) := by
  have stops : Starts NoDigit rest :=
    delimited.imp fun c delimiter => BehindInteger.noDigit (.inl (.inl delimiter))
  rw [exponentText]
  cases n.exponent with
  | none =>
      obtain ⟨c, rest, rfl, delimiter⟩ := delimited
      have unmarked : ¬(c = 'e'.toUInt8 ∨ c = 'E'.toUInt8) := by
        rintro (rfl | rfl) <;> exact absurd delimiter (by decide)
      simp only [Option.map_none, Option.getD_none, List.nil_append, parseExponent, if_neg unmarked]
  | some e =>
      have marked
          : (if e.capital then 'E'.toUInt8 else 'e'.toUInt8) = 'e'.toUInt8
            ∨ (if e.capital then 'E'.toUInt8 else 'e'.toUInt8) = 'E'.toUInt8 := by
        cases e.capital <;> simp
      have digits := parseDigits_append exponentStep e.isDigits stops 0
      rw [Option.map_some, Option.getD_some, Option.map_some, Option.getD_some, Exponent.text,
        Exponent.value, List.cons_append, parseExponent, if_pos marked, List.append_assoc]
      rcases e.sign with _ | _ | _
      · have unsigned : parseExponentSign (e.digits ++ rest) = .ok (1, e.digits ++ rest) := by
          have no : ∀ d < 10, digitByte d ≠ '+'.toUInt8 ∧ digitByte d ≠ '-'.toUInt8 := by decide
          have first : Starts (fun c => c ≠ '+'.toUInt8 ∧ c ≠ '-'.toUInt8) (e.digits ++ rest) := by
            cases empty : e.digits with
            | nil =>
                refine delimited.imp fun c delimiter => ⟨?_, ?_⟩ <;>
                · rintro rfl
                  exact absurd delimiter (by decide)
            | cons c digits =>
                obtain ⟨d, small, rfl⟩ := exists_digit (e.isDigits c (by simp [empty]))
                exact ⟨_, _, rfl, no d small⟩
          obtain ⟨c, t, split, plus, minus⟩ := first
          rw [split, parseExponentSign, if_neg plus, if_neg minus]
        simp only [signText, List.nil_append, unsigned, Reading.ok_bind, digits]
        rfl
      · simp only [signText, List.singleton_append, parseExponentSign, if_pos, Reading.ok_bind,
          digits]
        rfl
      · have other : '-'.toUInt8 ≠ '+'.toUInt8 := by decide
        simp only [signText, List.singleton_append, parseExponentSign, if_neg other, if_pos,
          Reading.ok_bind, digits]

/-- The fraction is read. -/
theorem parseFraction_append {F : Type} [CDouble F] (m : F)
    : parseFraction m (n.fractionText ++ (n.exponentText ++ rest))
      = .ok (n.fraction.foldl fractionStep (m, CDouble.ofInt 0), n.exponentText ++ rest) := by
  have behind := n.starts_exponentText delimited
  have stops : Starts NoDigit (n.exponentText ++ rest) :=
    behind.imp fun c behind => BehindInteger.noDigit (.inl behind)
  rw [fractionText]
  split
  next empty =>
    obtain ⟨c, t, split, mark⟩ := behind
    have noPoint : c ≠ '.'.toUInt8 := by
      rintro rfl
      exact absurd mark (by decide)
    rw [List.nil_append, split, parseFraction, if_neg noPoint, empty, List.foldl_nil]
  next filled =>
    have read := parseDigits_append fractionStep n.isFraction stops (m, CDouble.ofInt 0)
    rw [List.cons_append, parseFraction, if_pos rfl, ← read]
    cases first : n.fraction with
    | nil => exact absurd first filled
    | cons d fraction =>
        have digit : isDigit d := n.isFraction d (by simp [first])
        rw [List.cons_append, peek, Reading.ok_bind, if_pos digit]

/-- The integer is read. -/
theorem parseInteger_append {F : Type} [CDouble F]
    : parseInteger (n.digits ++ (n.fractionText ++ (n.exponentText ++ rest)))
      = .ok (n.digits.foldl integerStep (CDouble.ofInt 0 : F),
          n.fractionText ++ (n.exponentText ++ rest)) := by
  have behind := n.starts_fractionText delimited
  cases first : n.digits with
  | nil =>
      obtain ⟨c, t, split, mark⟩ := behind
      have noDigit : ¬(digitByte 1 ≤ c ∧ c ≤ digitByte 9) := by
        rintro ⟨low, high⟩
        have digit : isDigit c := by
          rw [isDigit, Bool.and_eq_true, decide_eq_true_eq, decide_eq_true_eq]
          exact ⟨UInt8.le_trans (by decide : digitByte 0 ≤ digitByte 1) low, high⟩
        exact absurd mark.noDigit (by simp [NoDigit, digit])
      rw [List.nil_append, split, parseInteger, if_neg noDigit, List.foldl_nil]
  | cons d digits =>
      have read := parseDigits_append integerStep n.isDigits (behind.imp fun c h => h.noDigit)
        (CDouble.ofInt 0 : F)
      have all : ∀ d < 10, digitByte d ≠ digitByte 0
          → digitByte 1 ≤ digitByte d ∧ digitByte d ≤ digitByte 9 := by decide
      have positive : digitByte 1 ≤ d ∧ d ≤ digitByte 9 := by
        obtain ⟨v, small, rfl⟩ := exists_digit (n.isDigits d (by simp [first]))
        refine all v small fun zero => n.leading ?_
        rw [first, zero]
        rfl
      rw [first] at read
      rw [List.cons_append, parseInteger, if_pos positive]
      exact read

/-- What stands behind a zero does not start with another one. -/
theorem starts_digits
    : Starts (fun c => c ≠ digitByte 0)
        (n.digits ++ (n.fractionText ++ (n.exponentText ++ rest))) := by
  cases first : n.digits with
  | nil =>
      refine (n.starts_fractionText delimited).imp fun c behind => ?_
      rintro rfl
      exact absurd behind (by decide)
  | cons d digits =>
      refine ⟨d, _, rfl, fun zero => n.leading ?_⟩
      rw [first, zero]
      rfl

/-- The zero in front is skipped. -/
theorem parseZero_append
    : parseZero
        ((if n.zero then [digitByte 0] else [])
          ++ (n.digits ++ (n.fractionText ++ (n.exponentText ++ rest))))
      = .ok (n.digits ++ (n.fractionText ++ (n.exponentText ++ rest))) := by
  cases n.zero with
  | true => rfl
  | false =>
      obtain ⟨c, t, split, other⟩ := n.starts_digits delimited
      have empty : (if (false : Bool) = true then [digitByte 0] else []) = [] := rfl
      rw [empty, List.nil_append, split, parseZero, if_neg other]

omit delimited in
/-- A number without a sign starts with a digit. -/
theorem starts_unsigned (unsigned : n.negative = false)
    : Starts (fun c => isDigit c)
        ((if n.zero then [digitByte 0] else [])
          ++ (n.digits ++ (n.fractionText ++ (n.exponentText ++ rest)))) := by
  have starts := n.starts
  rw [unsigned] at starts
  cases zero : n.zero with
  | true => exact ⟨_, _, rfl, by decide⟩
  | false =>
      cases first : n.digits with
      | nil => simp [zero, first] at starts
      | cons d digits => exact ⟨d, _, rfl, n.isDigits d (by simp [first])⟩

omit delimited in
/-- The sign is read. -/
theorem parseSign_append {F : Type} [CDouble F]
    : parseSign (n.text ++ rest)
      = .ok ((if n.negative then CDouble.ofInt (-1) else CDouble.ofInt 1 : F),
          (if n.zero then [digitByte 0] else [])
            ++ (n.digits ++ (n.fractionText ++ (n.exponentText ++ rest)))) := by
  have assoc
      : n.text ++ rest
        = (if n.negative then ['-'.toUInt8] else [])
          ++ ((if n.zero then [digitByte 0] else [])
            ++ (n.digits ++ (n.fractionText ++ (n.exponentText ++ rest)))) := by
    simp only [text, List.append_assoc]
  rw [assoc]
  cases negative : n.negative with
  | true => rfl
  | false =>
      obtain ⟨c, t, split, digit⟩ := @starts_unsigned n rest negative
      have plain : c ≠ '-'.toUInt8 := (of_isDigit digit).2.1
      rw [split]
      simp [parseSign, plain]

/-- A number is read as its value, up to a delimiter. -/
theorem parseNumber_append {F : Type} [CDouble F] (item : Fields F)
    : parseNumber item (n.text ++ rest) = .ok (withNumber item n.value, rest) := by
  simp only [parseNumber, n.parseSign_append, n.parseZero_append delimited,
    n.parseInteger_append delimited, n.parseFraction_append delimited,
    n.parseExponent_append delimited, Reading.ok_bind]
  rfl

end Numeral

section Reading

variable {F : Type} [CDouble F] {num rest : Bytes}

/-- A sign was there, or not. -/
theorem parseSign_eq_ok {sign : F} (read : parseSign num = .ok (sign, rest))
    : num = (if num.head? = some '-'.toUInt8 then ['-'.toUInt8] else []) ++ rest
      ∧ sign = if num.head? = some '-'.toUInt8 then CDouble.ofInt (-1) else CDouble.ofInt 1 := by
  cases num with
  | nil => simp [parseSign, outside] at read
  | cons c num =>
      rw [parseSign] at read
      split at read
      next minus =>
        obtain ⟨rfl, rfl⟩ := by simpa using read
        simp [minus]
      next plain =>
        obtain ⟨rfl, rfl⟩ := by simpa using read
        simp [plain]

/-- A zero was there, or not. -/
theorem parseZero_eq_ok (read : parseZero num = .ok rest)
    : num = (if num.head? = some (digitByte 0) then [digitByte 0] else []) ++ rest := by
  cases num with
  | nil => simp [parseZero, outside] at read
  | cons c num =>
      rw [parseZero] at read
      split at read
      next zero =>
        obtain rfl := by simpa using read
        simp [zero]
      next other =>
        obtain rfl := by simpa using read
        simp [other]

/-- Digits were there unless the first character is none, or a zero. -/
theorem parseInteger_eq_ok {n : F} (read : parseInteger num = .ok (n, rest))
    : ∃ digits,
        num = digits ++ rest
        ∧ (∀ c ∈ digits, isDigit c)
        ∧ digits.head? ≠ some (digitByte 0)
        ∧ (∀ c t, num = c :: t → isDigit c → c ≠ digitByte 0 → digits ≠ [])
        ∧ n = digits.foldl integerStep (CDouble.ofInt 0) := by
  cases num with
  | nil => simp [parseInteger, outside] at read
  | cons c num =>
      rw [parseInteger] at read
      split at read
      next positive =>
        obtain ⟨digits, split, isDigits, filled, value⟩ := parseDigits_eq_ok read
        refine ⟨digits, split, isDigits, ?_, ?_, value⟩
        · intro zero
          cases digits with
          | nil => simp at zero
          | cons d digits =>
              obtain ⟨rfl, rfl⟩ := by simpa using split
              obtain rfl := by simpa using zero
              exact absurd positive (by decide)
        · intro d t same digit _
          exact filled d t same digit
      next other =>
        obtain ⟨rfl, rfl⟩ := by simpa using read
        refine ⟨[], rfl, by simp, by simp, ?_, rfl⟩
        intro d t split digit nonzero
        obtain ⟨rfl, rfl⟩ := by simpa using split
        obtain ⟨v, small, rfl⟩ := exists_digit digit
        have all
            : ∀ d < 10,
                digitByte d ≠ digitByte 0
                → digitByte 1 ≤ digitByte d ∧ digitByte d ≤ digitByte 9 := by
          decide
        exact absurd (all v small nonzero) other

/-- A fraction was there, or not. -/
theorem parseFraction_eq_ok {n : F} {value : F × F}
    (read : parseFraction n num = .ok (value, rest))
    : ∃ fraction : Bytes,
        num = (if fraction = [] then [] else '.'.toUInt8 :: fraction) ++ rest
        ∧ (∀ c ∈ fraction, isDigit c)
        ∧ value = fraction.foldl fractionStep (n, CDouble.ofInt 0) := by
  cases num with
  | nil => simp [parseFraction, outside] at read
  | cons c num =>
      rw [parseFraction] at read
      split at read
      next point =>
        obtain ⟨digit, first, read⟩ := Reading.bind_eq_ok.mp read
        split at read
        next isDigit =>
          cases num with
          | nil => simp [peek, outside] at first
          | cons d num =>
              obtain rfl := by simpa [peek] using first
              obtain ⟨fraction, split, isDigits, filled, value⟩ := parseDigits_eq_ok read
              refine ⟨fraction, ?_, isDigits, value⟩
              rw [if_neg (filled d num rfl isDigit), point, split, List.cons_append]
        next =>
          obtain ⟨rfl, rfl⟩ := by simpa using read
          exact ⟨[], rfl, by simp, rfl⟩
      next =>
        obtain ⟨rfl, rfl⟩ := by simpa using read
        exact ⟨[], rfl, by simp, rfl⟩

omit [CDouble F] in
/-- The sign of an exponent was there, or not. -/
theorem parseExponentSign_eq_ok {sign : Int} (read : parseExponentSign num = .ok (sign, rest))
    : ∃ mark : Option Bool,
        sign = (if mark = some true then -1 else 1)
        ∧ num = signText mark ++ rest := by
  cases num with
  | nil => simp [parseExponentSign, outside] at read
  | cons c num =>
      rw [parseExponentSign] at read
      split_ifs at read with plus minus <;> obtain ⟨rfl, rfl⟩ := by simpa using read
      · exact ⟨some false, rfl, by rw [plus]; rfl⟩
      · exact ⟨some true, rfl, by rw [minus]; rfl⟩
      · exact ⟨none, rfl, rfl⟩

omit [CDouble F] in
/-- An exponent was there, or not. -/
theorem parseExponent_eq_ok {value : Int × Int} (read : parseExponent num = .ok (value, rest))
    : ∃ e : Option Exponent,
        num = (e.map Exponent.text).getD [] ++ rest
        ∧ value = (e.map Exponent.value).getD (0, 1) := by
  cases num with
  | nil => simp [parseExponent, outside] at read
  | cons c num =>
      rw [parseExponent] at read
      split at read
      next marked =>
        obtain ⟨⟨sign, behind⟩, signed, read⟩ := Reading.bind_eq_ok.mp read
        obtain ⟨⟨subscale, behind'⟩, counted, read⟩ := Reading.bind_eq_ok.mp read
        obtain ⟨mark, rfl, split⟩ := parseExponentSign_eq_ok signed
        obtain ⟨digits, rfl, isDigits, -, rfl⟩ := parseDigits_eq_ok counted
        obtain ⟨rfl, rfl⟩ := by simpa using read
        refine ⟨some ⟨decide (c = 'E'.toUInt8), mark, digits, isDigits⟩, ?_, rfl⟩
        have capital
            : (if decide (c = 'E'.toUInt8) = true then 'E'.toUInt8 else 'e'.toUInt8) = c := by
          rcases marked with rfl | rfl <;> decide
        rw [Option.map_some, Option.getD_some, Exponent.text, capital, List.cons_append,
          List.append_assoc, split]
      next =>
        obtain ⟨rfl, rfl⟩ := by simpa using read
        exact ⟨none, rfl, rfl⟩

/-- What was read as a number spells it. -/
theorem parseNumber_eq_ok {item item' : Fields F}
    (first : ∃ c t, num = c :: t ∧ (c = '-'.toUInt8 ∨ isDigit c))
    (read : parseNumber item num = .ok (item', rest))
    : ∃ n t, num = t ++ rest ∧ SpellsNumber n t ∧ item' = withNumber item n := by
  rw [parseNumber] at read
  obtain ⟨⟨sign, unsigned⟩, signed, read⟩ := Reading.bind_eq_ok.mp read
  obtain ⟨nonzero, zero, read⟩ := Reading.bind_eq_ok.mp read
  obtain ⟨⟨m, behindInteger⟩, integer, read⟩ := Reading.bind_eq_ok.mp read
  obtain ⟨⟨⟨m', scale⟩, behindFraction⟩, fraction, read⟩ := Reading.bind_eq_ok.mp read
  obtain ⟨⟨⟨subscale, signsubscale⟩, behind⟩, exponent, read⟩ := Reading.bind_eq_ok.mp read
  obtain ⟨rfl, rfl⟩ := by simpa using read
  obtain ⟨atSign, rfl⟩ := parseSign_eq_ok signed
  have atZero := parseZero_eq_ok zero
  obtain ⟨digits, atInteger, isDigits, leading, filled, rfl⟩ := parseInteger_eq_ok integer
  obtain ⟨fraction, atFraction, isFraction, value⟩ := parseFraction_eq_ok fraction
  obtain ⟨e, atExponent, value'⟩ := parseExponent_eq_ok exponent
  have starts
      : decide (num.head? = some '-'.toUInt8) = true
        ∨ decide (unsigned.head? = some (digitByte 0)) = true
        ∨ digits ≠ [] := by
    obtain ⟨c, t, rfl, first⟩ := first
    by_cases minus : c = '-'.toUInt8
    · exact .inl (by simp [minus])
    have same : unsigned = c :: t := by simpa [minus] using atSign.symm
    by_cases isZero : c = digitByte 0
    · exact .inr (.inl (by simp [same, isZero]))
    have same' : nonzero = c :: t := by simpa [same, isZero] using atZero.symm
    exact .inr (.inr (filled c t same' (first.resolve_left minus) isZero))
  let numeral : Numeral :=
    ⟨decide (num.head? = some '-'.toUInt8), decide (unsigned.head? = some (digitByte 0)), digits,
      fraction, e, isDigits, isFraction, leading, starts⟩
  refine ⟨numeral.value, numeral.text, ?_, ⟨numeral, rfl, rfl⟩, ?_⟩
  · simp only [numeral, Numeral.text, Numeral.fractionText, Numeral.exponentText,
      decide_eq_true_eq, List.append_assoc]
    rw [← atExponent, ← atFraction, ← atInteger, ← atZero, ← atSign]
  · simp only [numeral, Numeral.value, decide_eq_true_eq, ← value, ← value']

end Reading

end Cvos.LibJson

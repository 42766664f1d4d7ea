import Cvos.LibJson.ParseString

/-! What `parse_string` makes of a text. The scan for the closing quote and the loop that resolves
the escapes take the text apart alike, so the loop ends where the scan did, within the memory that
the scan has counted.
-/

namespace Cvos.LibJson

open Cvos.Lib Json

/-- The six low bits of a code point under the mark of a continuation byte. -/
theorem continuation_eq (uc : Nat) : (uc ||| 0x80) &&& 0xBF = uc % 64 + 0x80 := by
  have small : ∀ x < 256, (x ||| 0x80) &&& 0xBF = x % 64 + 0x80 := by decide +kernel
  have masked : (0xBF : Nat) = (2 ^ 8 - 1) &&& 0xBF := by decide
  calc
    (uc ||| 0x80) &&& 0xBF = ((uc ||| 0x80) &&& (2 ^ 8 - 1)) &&& 0xBF := by
      rw [Nat.and_assoc, ← masked]
    _ = (uc % 2 ^ 8 ||| 0x80) &&& 0xBF := by
      rw [Nat.and_two_pow_sub_one_eq_mod, Nat.or_mod_two_pow]
    _ = uc % 2 ^ 8 % 64 + 0x80 := small _ (Nat.mod_lt _ (by decide))
    _ = uc % 64 + 0x80 := by omega

/-- What remains of a code point, under the mark of the first byte. -/
theorem mark_eq {first mark size : Nat} (fits : first < 2 ^ size) (high : mark % 2 ^ size = 0)
    : first ||| mark = first % 2 ^ size + mark := by
  obtain ⟨a, rfl⟩ := Nat.dvd_of_mod_eq_zero high
  rw [Nat.mod_eq_of_lt fits, Nat.or_comm, ← Nat.two_pow_add_eq_or_of_lt fits, Nat.add_comm]

/-- A code point of Unicode is encoded in UTF-8. -/
theorem encode_eq_utf8 {uc : Nat} (scalar : uc.isValidChar) : encode uc = utf8 uc := by
  have point : (Char.ofNat uc).val.toNat = uc := by
    rw [Char.ofNat, dif_pos scalar]
    rfl
  have range : uc < 0x110000 := by
    rcases scalar with low | ⟨-, high⟩
    · omega
    · exact high
  rw [utf8, String.utf8EncodeChar, point, encode, encodedLength]
  by_cases one : uc < 0x80
  · rw [if_pos one, if_pos (Nat.le_of_lt_succ one)]
    change [UInt8.ofNat (uc ||| 0)] = _
    rw [Nat.or_zero]
  rw [if_neg one, if_neg (by omega : ¬uc ≤ 0x7f)]
  by_cases two : uc < 0x800
  · rw [if_pos two, if_pos (Nat.le_of_lt_succ two)]
    change [UInt8.ofNat (uc >>> 6 ||| 0xC0), UInt8.ofNat ((uc ||| 0x80) &&& 0xBF)] = _
    rw [Nat.shiftRight_eq_div_pow, @mark_eq _ _ 5 (by omega) (by decide), continuation_eq]
    rfl
  rw [if_neg two, if_neg (by omega : ¬uc ≤ 0x7ff)]
  by_cases three : uc < 0x10000
  · rw [if_pos three, if_pos (Nat.le_of_lt_succ three)]
    change
      [UInt8.ofNat (uc >>> 6 >>> 6 ||| 0xE0), UInt8.ofNat ((uc >>> 6 ||| 0x80) &&& 0xBF),
        UInt8.ofNat ((uc ||| 0x80) &&& 0xBF)] = _
    rw [continuation_eq, continuation_eq, Nat.shiftRight_eq_div_pow, Nat.shiftRight_eq_div_pow,
      @mark_eq _ _ 4 (by omega) (by decide), Nat.div_div_eq_div_mul]
    rfl
  · rw [if_neg three, if_neg (by omega : ¬uc ≤ 0xffff)]
    change
      [UInt8.ofNat (uc >>> 6 >>> 6 >>> 6 ||| 0xF0),
        UInt8.ofNat ((uc >>> 6 >>> 6 ||| 0x80) &&& 0xBF),
        UInt8.ofNat ((uc >>> 6 ||| 0x80) &&& 0xBF), UInt8.ofNat ((uc ||| 0x80) &&& 0xBF)] = _
    rw [continuation_eq, continuation_eq, continuation_eq, Nat.shiftRight_eq_div_pow,
      Nat.shiftRight_eq_div_pow, Nat.shiftRight_eq_div_pow, @mark_eq _ _ 3 (by omega) (by decide),
      Nat.div_div_eq_div_mul, Nat.div_div_eq_div_mul, Nat.div_div_eq_div_mul]
    rfl


/-- The code point of a pair of surrogates. -/
theorem pair_eq {high low : Nat} (first : HighSurrogate high) (second : LowSurrogate low)
    : 0x10000 + ((high &&& 0x3FF) <<< 10 ||| low &&& 0x3FF)
      = 0x10000 + (high - 0xD800) * 0x400 + (low - 0xDC00) := by
  have bits (x : Nat) : x &&& 0x3FF = x % 2 ^ 10 := Nat.and_two_pow_sub_one_eq_mod x 10
  have small : low % 2 ^ 10 < 2 ^ 10 := Nat.mod_lt low (by decide)
  rw [bits, bits, Nat.shiftLeft_eq, Nat.mul_comm, ← Nat.two_pow_add_eq_or_of_lt small]
  rw [HighSurrogate] at first
  rw [LowSurrogate] at second
  omega

/-- The digits of a code unit are read. -/
theorem parseHex4_append {digits : Bytes} {unit : Nat} (spelled : CodeUnit digits unit)
    (rest : Bytes)
    : parseHex4 (digits ++ rest) = .ok unit := by
  cases spelled with
  | digits first second third fourth =>
      simp only [parseHex4, List.cons_append, parseHexDigits, first, second, third, fourth,
        Nat.shiftLeft_eq, Nat.zero_mul, Nat.zero_add]

/-- A code unit other than zero was spelled by digits. -/
theorem parseHex4_eq_ok {str : Bytes} {unit : Nat} (read : parseHex4 str = .ok unit)
    (filled : unit ≠ 0)
    : ∃ digits rest, str = digits ++ rest ∧ CodeUnit digits unit := by
  have next {count h : Nat} {str : Bytes} (read : parseHexDigits (count + 1) h str = .ok unit)
      : ∃ c digit rest,
          str = c :: rest
          ∧ hexValue c = some digit
          ∧ parseHexDigits count (h * 16 + digit) rest = .ok unit := by
    cases str with
    | nil => simp [parseHexDigits, outside] at read
    | cons c rest =>
        rw [parseHexDigits] at read
        cases value : hexValue c with
        | none =>
            simp only [value, Except.ok.injEq] at read
            exact absurd read.symm filled
        | some digit =>
            simp only [value, Nat.shiftLeft_eq] at read
            exact ⟨c, digit, rest, rfl, value, read⟩
  obtain ⟨a, w, rest, rfl, first, read⟩ := next read
  obtain ⟨b, x, rest, rfl, second, read⟩ := next read
  obtain ⟨c, y, rest, rfl, third, read⟩ := next read
  obtain ⟨d, z, rest, rfl, fourth, read⟩ := next read
  rw [parseHexDigits, Nat.zero_mul, Nat.zero_add, Except.ok.injEq] at read
  exact ⟨[a, b, c, d], rest, rfl, read ▸ .digits first second third fourth⟩

/-- Reading digits ends at the latest at a character that is none. -/
theorem exists_parseHex4 {front rest : Bytes} {c : UInt8} (other : hexValue c = none)
    : ∃ unit, parseHex4 (front ++ c :: rest) = .ok unit := by
  have all (count h : Nat) : ∃ unit, parseHexDigits count h (front ++ c :: rest) = .ok unit := by
    induction front generalizing count h with
    | nil =>
        cases count with
        | zero => exact ⟨h, rfl⟩
        | succ count => exact ⟨0, by simp [parseHexDigits, other]⟩
    | cons d front ih =>
        cases count with
        | zero => exact ⟨h, rfl⟩
        | succ count =>
            rw [List.cons_append, parseHexDigits]
            cases hexValue d with
            | none => exact ⟨0, rfl⟩
            | some digit => exact ih count _
  exact all 4 0


/-- The first loop of `parse_string` with a count that has no bound. -/
def countString : Bytes → Nat → Reading (Nat × Bytes)
  | [], _ => outside
  | [c], len => if c ≠ Json.quote ∧ c ≠ 0 then outside else .ok (len, [c])
  | c :: d :: rest, len =>
      if c ≠ Json.quote ∧ c ≠ 0 then
        if c = backslash then countString rest (len + 1) else countString (d :: rest) (len + 1)
      else
        .ok (len, c :: d :: rest)

/-- The scan stops at a quote and at the end of the text. -/
theorem countString_stop {c : UInt8} (stop : c = Json.quote ∨ c = 0) (rest : Bytes) (len : Nat)
    : countString (c :: rest) len = .ok (len, c :: rest) := by
  have stays : ¬(c ≠ Json.quote ∧ c ≠ 0) := by tauto
  cases rest with
  | nil => rw [countString, if_neg stays]
  | cons d rest => rw [countString, if_neg stays]

/-- The scan passes an ordinary character. -/
theorem countString_plain {c : UInt8} (filled : c ≠ 0) (unquoted : c ≠ Json.quote)
    (unescaped : c ≠ backslash) (rest : Bytes) (len : Nat)
    : countString (c :: rest) len = countString rest (len + 1) := by
  cases rest with
  | nil => simp [countString, unquoted, filled]
  | cons d rest => rw [countString, if_pos ⟨unquoted, filled⟩, if_neg unescaped]

/-- The scan passes a backslash together with the character behind it. -/
theorem countString_escape (c : UInt8) (rest : Bytes) (len : Nat)
    : countString (backslash :: c :: rest) len = countString rest (len + 1) := by
  rw [countString, if_pos (by decide), if_pos rfl]

/-- A hexadecimal digit is an ordinary character. -/
theorem of_hexValue {c : UInt8} (hex : (hexValue c).isSome)
    : c ≠ 0 ∧ c ≠ Json.quote ∧ c ≠ backslash := by
  refine ⟨?_, ?_, ?_⟩ <;>
  · rintro rfl
    exact absurd hex (by decide)

/-- The scan passes hexadecimal digits one by one. -/
theorem countString_hex {digits : Bytes} (hex : ∀ c ∈ digits, (hexValue c).isSome) (rest : Bytes)
    (len : Nat)
    : countString (digits ++ rest) len = countString rest (len + digits.length) := by
  induction digits generalizing len with
  | nil => rfl
  | cons c digits ih =>
      obtain ⟨filled, unquoted, unescaped⟩ := of_hexValue (hex c List.mem_cons_self)
      rw [List.cons_append, countString_plain filled unquoted unescaped,
        ih fun d member => hex d (List.mem_cons_of_mem c member), List.length_cons]
      congr 1
      omega

/-- The scan passes a piece of a string, and counts at least as many bytes as are written. -/
theorem countString_piece {piece bytes : Bytes} (isPiece : Piece piece bytes)
    : ∃ count,
        bytes.length ≤ count
        ∧ ∀ rest len, countString (piece ++ rest) len = countString rest (len + count) := by
  cases isPiece with
  | plain filled unquoted unescaped =>
      exact ⟨1, Nat.le_refl 1, fun rest len => countString_plain filled unquoted unescaped rest len⟩
  | escape _ _ => exact ⟨1, Nat.le_refl 1, fun rest len => countString_escape _ rest len⟩
  | @unicode digits unit spelled _ _ _ =>
      obtain ⟨four, hex⟩ := spelled.hex
      have bytes := length_utf8_le unit
      refine ⟨5, by omega, fun rest len => ?_⟩
      rw [List.cons_append, List.cons_append, countString_escape, countString_hex hex, four]
  | @pair digits digits' high low spelled _ spelled' _ =>
      obtain ⟨four, hex⟩ := spelled.hex
      obtain ⟨four', hex'⟩ := spelled'.hex
      have bytes := length_utf8_le (0x10000 + (high - 0xD800) * 0x400 + (low - 0xDC00))
      refine ⟨10, by omega, fun rest len => ?_⟩
      rw [List.cons_append, List.cons_append, countString_escape, List.append_assoc,
        countString_hex hex, List.cons_append, List.cons_append, countString_escape,
        countString_hex hex', four, four']

/-- The scan passes the inside of a string, and counts at least as many bytes as are written. -/
theorem countString_escaped {raw s : Bytes} (escaped : Escaped raw s)
    : ∃ count,
        s.length ≤ count
        ∧ ∀ rest len, countString (raw ++ rest) len = countString rest (len + count) := by
  induction escaped with
  | nil => exact ⟨0, Nat.le_refl 0, fun rest len => rfl⟩
  | cons first _ ih =>
      obtain ⟨one, enough, passed⟩ := countString_piece first
      obtain ⟨count, enough', scanned⟩ := ih
      refine ⟨one + count, ?_, fun rest len => ?_⟩
      · rw [List.length_append]
        omega
      · rw [List.append_assoc, passed, scanned, Nat.add_assoc]

/-- A code unit outside the surrogates is written. -/
theorem parseUnicode_unit (str : Bytes) {endPtr digits rest : Bytes} {unit : Nat}
    (spelled : CodeUnit digits unit) (filled : unit ≠ 0) (notHigh : ¬HighSurrogate unit)
    (notLow : ¬LowSurrogate unit) (behind : endPtr.length ≤ rest.length)
    : ∃ last,
        parseUnicode str endPtr (unicodeMark :: (digits ++ rest))
        = .ok (utf8 unit, last :: rest) := by
  have written := encode_eq_utf8 (spelled.isValidChar notHigh notLow)
  have read := parseHex4_append spelled rest
  rw [HighSurrogate] at notHigh
  rw [LowSurrogate] at notLow
  cases spelled with
  | @digits _ _ _ d _ _ _ _ first second third fourth =>
      refine ⟨d, ?_⟩
      simp only [List.cons_append, List.nil_append] at read ⊢
      simp only [parseUnicode, List.drop_succ_cons, List.drop_zero, read, Reading.ok_bind,
        List.length_cons]
      rw [if_neg (by omega), if_neg (by omega), if_neg notHigh, written]

/-- A pair of surrogates is written. -/
theorem parseUnicode_pair (str : Bytes) {endPtr digits digits' rest : Bytes} {high low : Nat}
    (spelled : CodeUnit digits high) (first : HighSurrogate high)
    (spelled' : CodeUnit digits' low) (second : LowSurrogate low)
    (behind : endPtr.length ≤ rest.length)
    : ∃ last,
        parseUnicode str endPtr
          (unicodeMark :: (digits ++ backslash :: unicodeMark :: (digits' ++ rest)))
        = .ok (utf8 (0x10000 + (high - 0xD800) * 0x400 + (low - 0xDC00)), last :: rest) := by
  have written := encode_eq_utf8 (pair_isValidChar first second)
  have read := parseHex4_append spelled (backslash :: unicodeMark :: (digits' ++ rest))
  have read' := parseHex4_append spelled' rest
  rw [← pair_eq first second] at written ⊢
  rw [HighSurrogate] at first
  rw [LowSurrogate] at second
  cases spelled with
  | digits _ _ _ _ =>
      cases spelled' with
      | @digits _ _ _ d _ _ _ _ _ _ _ _ =>
          refine ⟨d, ?_⟩
          simp only [List.cons_append, List.nil_append] at read read' ⊢
          simp only [parseUnicode, List.drop_succ_cons, List.drop_zero, read, read', peek,
            Reading.ok_bind, List.length_cons]
          rw [if_neg (by omega), if_neg (by omega), if_pos first, if_neg (by omega),
            if_neg (by simp), if_neg (by omega), written]

/-- One turn of the loop over a code point. -/
theorem parseCharacter_unicode {str endPtr rest bytes behind : Bytes} {last : UInt8}
    (read : parseUnicode str endPtr (unicodeMark :: rest) = .ok (bytes, last :: behind))
    : parseCharacter str endPtr (backslash :: unicodeMark :: rest) = .ok (bytes, behind) := by
  rw [parseCharacter, if_neg (by simp), peek, Reading.ok_bind, if_pos rfl, read]
  rfl

/-- One turn of the loop writes a piece. -/
theorem parseCharacter_piece {str endPtr piece bytes rest : Bytes} (isPiece : Piece piece bytes)
    (behind : endPtr.length ≤ rest.length)
    : parseCharacter str endPtr (piece ++ rest) = .ok (bytes, rest) := by
  cases isPiece with
  | plain _ _ unescaped => rw [List.singleton_append, parseCharacter, if_pos unescaped]
  | escape _ letter =>
      rw [List.cons_append, parseCharacter, if_neg (by simp), List.singleton_append, peek,
        Reading.ok_bind, if_neg letter]
      rfl
  | unicode spelled filled notHigh notLow =>
      obtain ⟨last, read⟩ := parseUnicode_unit str spelled filled notHigh notLow behind
      exact parseCharacter_unicode read
  | pair spelled first spelled' second =>
      obtain ⟨last, read⟩ := parseUnicode_pair str spelled first spelled' second behind
      have step := parseCharacter_unicode read
      simpa using step

/-- What fits into the memory is written. -/
theorem allocated_eq {size : Nat} {written : Bytes} (fits : written.length ≤ size)
    : allocated size written = .ok written :=
  if_pos fits

/-- One turn of the loop, in front of those that write the rest. -/
theorem parseCharacters_turn {str endPtr piece bytes rest out : Bytes} {size fuel : Nat}
    (isPiece : Piece piece bytes) (behind : endPtr.length ≤ rest.length)
    (room : out.length + bytes.length ≤ size)
    : parseCharacters str endPtr size (fuel + 1) out (piece ++ rest)
      = parseCharacters str endPtr size fuel (out ++ bytes) rest := by
  have some := List.length_pos_iff.mpr isPiece.ne_nil
  have more : endPtr.length < (piece ++ rest).length := by
    rw [List.length_append]
    omega
  have fits : (out ++ bytes).length ≤ size := by rwa [List.length_append]
  rw [parseCharacters, if_pos more, parseCharacter_piece isPiece behind]
  simp only [Reading.ok_bind, allocated_eq fits]

/-- The inside of a string is written, and the loop ends behind it. -/
theorem parseCharacters_escaped (str endPtr : Bytes) {raw s : Bytes} (escaped : Escaped raw s)
    {size fuel : Nat} {out : Bytes} (room : out.length + s.length ≤ size)
    (enough : raw.length < fuel)
    : parseCharacters str endPtr size fuel out (raw ++ endPtr) = .ok (out ++ s, endPtr) := by
  induction escaped generalizing fuel out with
  | nil =>
      obtain ⟨fuel, rfl⟩ := Nat.exists_eq_add_of_lt enough
      simp [parseCharacters]
  | @cons piece bytes raw s first _ ih =>
      have some := List.length_pos_iff.mpr first.ne_nil
      rw [List.length_append] at room enough
      obtain ⟨fuel, rfl⟩ : ∃ n, fuel = n + 1 := ⟨fuel - 1, by omega⟩
      rw [List.append_assoc, parseCharacters_turn first (by simp) (by omega),
        ih (by rw [List.length_append]; omega) (by omega), List.append_assoc]


/-- The scan leads behind the block only from a last backslash. Elsewhere it stops at a quote or
at the end of the text.
-/
theorem countString_cases {p : Bytes} (terminated : Terminated p) (len : Nat)
    : countString p len = outside ∧ (∃ text, p = text ++ [backslash, 0])
      ∨ ∃ front stop rest len',
          p = front ++ stop :: rest
          ∧ (stop = Json.quote ∨ stop = 0)
          ∧ len ≤ len'
          ∧ countString p len = .ok (len', stop :: rest) := by
  induction p, len using countString.induct with
  | case1 len => exact absurd rfl terminated.ne_nil
  | case2 c len going =>
      rcases terminated_cons.mp terminated with ⟨rfl, -⟩ | ⟨-, behind⟩
      · exact absurd rfl going.2
      · exact absurd rfl behind.ne_nil
  | case3 c len stops =>
      exact .inr ⟨[], c, [], len, rfl, by tauto, Nat.le_refl len,
        countString_stop (by tauto) [] len⟩
  | case4 d rest len going ih =>
      have ⟨_, behind⟩ := (terminated_cons.mp terminated).resolve_left fun h => going.2 h.1
      rw [countString_escape]
      rcases terminated_cons.mp behind with ⟨rfl, rfl⟩ | ⟨-, behind⟩
      · exact .inl ⟨rfl, [], rfl⟩
      rcases ih behind with
        ⟨fault, text, rfl⟩ | ⟨front, stop, rest, len', rfl, stops, grown, scanned⟩
      · exact .inl ⟨fault, backslash :: d :: text, rfl⟩
      · exact .inr ⟨backslash :: d :: front, stop, rest, len', rfl, stops, by omega, scanned⟩
  | case5 c d rest len going unescaped ih =>
      have ⟨_, behind⟩ := (terminated_cons.mp terminated).resolve_left fun h => going.2 h.1
      rw [countString_plain going.2 going.1 unescaped]
      rcases ih behind with
        ⟨fault, text, split⟩ | ⟨front, stop, rest', len', split, stops, grown, scanned⟩
      · exact .inl ⟨fault, c :: text, by rw [split, List.cons_append]⟩
      · exact .inr ⟨c :: front, stop, rest', len', by rw [split, List.cons_append], stops, by omega,
          scanned⟩
  | case6 c d rest len stops =>
      exact .inr ⟨[], c, d :: rest, len, rfl, by tauto, Nat.le_refl len,
        countString_stop (by tauto) (d :: rest) len⟩

/-- Digits end in front of a character that is none. -/
theorem digits_within {p digits r rest : Bytes} {stop : UInt8}
    (split : p ++ stop :: rest = digits ++ r) (hex : ∀ c ∈ digits, (hexValue c).isSome)
    (other : hexValue stop = none)
    : ∃ front, p = digits ++ front ∧ r = front ++ stop :: rest := by
  rcases List.append_eq_append_iff.mp split with ⟨a, rfl, behind⟩ | ⟨a, rfl, rfl⟩
  · cases a with
    | nil => exact ⟨[], by simp, by simpa using behind.symm⟩
    | cons c a =>
        obtain ⟨rfl, -⟩ := by simpa using behind
        exact absurd (hex stop (by simp)) (by simp [other])
  · exact ⟨a, rfl, rfl⟩

/-- A code unit is read in front of the end of the string, or none is. -/
theorem parseHex4_cases {p rest : Bytes} {stop : UInt8} (stops : stop = Json.quote ∨ stop = 0)
    : parseHex4 (p ++ stop :: rest) = .ok 0
      ∨ ∃ unit digits front, unit ≠ 0 ∧ CodeUnit digits unit ∧ p = digits ++ front := by
  have other : hexValue stop = none := by
    rcases stops with rfl | rfl <;> decide
  obtain ⟨unit, read⟩ := @exists_parseHex4 p rest stop other
  by_cases zero : unit = 0
  · exact .inl (zero ▸ read)
  · obtain ⟨digits, r, split, spelled⟩ := parseHex4_eq_ok read zero
    obtain ⟨front, inside, -⟩ := digits_within split spelled.hex.2 other
    exact .inr ⟨unit, digits, front, zero, spelled, inside⟩

/-- A code unit of zero is refused. -/
theorem parseUnicode_zero (str : Bytes) {endPtr p : Bytes} (read : parseHex4 p = .ok 0)
    : parseUnicode str endPtr (unicodeMark :: p) = .error (.malformed str) := by
  simp [parseUnicode, read]

/-- The second half of a pair is refused as the first one. -/
theorem parseUnicode_low (str : Bytes) {endPtr digits r : Bytes} {unit : Nat}
    (spelled : CodeUnit digits unit) (low : LowSurrogate unit)
    : parseUnicode str endPtr (unicodeMark :: (digits ++ r)) = .error (.malformed str) := by
  rw [LowSurrogate] at low
  simp [parseUnicode, parseHex4_append spelled, low]

/-- Behind the first half of a pair, the second one is read. -/
theorem parseUnicode_high (str : Bytes) {endPtr digits r : Bytes} {unit : Nat}
    (spelled : CodeUnit digits unit) (high : HighSurrogate unit)
    (failed : r.length < endPtr.length + 5
      ∨ (∃ a b p, r = a :: b :: p
        ∧ (a ≠ backslash ∨ b ≠ unicodeMark ∨ ∃ low, parseHex4 p = .ok low ∧ ¬LowSurrogate low)))
    : parseUnicode str endPtr (unicodeMark :: (digits ++ r)) = .error (.malformed str) := by
  have read := parseHex4_append spelled r
  rw [HighSurrogate] at high
  cases spelled with
  | digits _ _ _ _ =>
      simp only [List.cons_append, List.nil_append] at read ⊢
      simp only [parseUnicode, List.drop_succ_cons, List.drop_zero, read, Reading.ok_bind,
        List.length_cons]
      split
      next => rfl
      next inside =>
        rw [if_neg (by omega)]
        rcases failed with short | ⟨a, b, p, rfl, failed⟩
        · rw [if_pos (by omega)]
        · split
          next => rfl
          next =>
            simp only [List.drop_succ_cons, List.drop_zero, peek, Reading.ok_bind]
            split
            next => rfl
            next marked =>
              obtain ⟨low, read, other⟩ :=
                (failed.resolve_left fun h => marked (.inl h)).resolve_left
                  fun h => marked (.inr h)
              rw [LowSurrogate] at other
              rw [read, Reading.ok_bind, if_pos (by omega)]

/-- The code points of a pair are read, or the text is refused. -/
theorem parseUnicode_cases (str p rest : Bytes) {stop : UInt8}
    (stops : stop = Json.quote ∨ stop = 0)
    : parseUnicode str (stop :: rest) (unicodeMark :: (p ++ stop :: rest))
        = .error (.malformed str)
      ∨ ∃ digits bytes front,
          p = digits ++ front ∧ Piece (backslash :: unicodeMark :: digits) bytes := by
  rcases @parseHex4_cases p rest stop stops with zero | ⟨unit, digits, p, filled, spelled, rfl⟩
  · exact .inl (parseUnicode_zero str zero)
  by_cases low : LowSurrogate unit
  · rw [List.append_assoc]
    exact .inl (parseUnicode_low str spelled low)
  by_cases high : HighSurrogate unit
  · rw [List.append_assoc]
    have refused := @parseUnicode_high str (stop :: rest) _ (p ++ stop :: rest) _ spelled high
    cases p with
    | nil => exact .inl (refused (.inl (by simp)))
    | cons a p =>
        cases p with
        | nil => exact .inl (refused (.inl (by simp)))
        | cons b p =>
            by_cases marked : a = backslash ∧ b = unicodeMark
            · obtain ⟨rfl, rfl⟩ := marked
              rcases @parseHex4_cases p rest stop stops with
                zero | ⟨low, digits', p, -, spelled', rfl⟩
              · exact .inl (refused (.inr ⟨_, _, _, rfl, .inr (.inr ⟨0, zero, by decide⟩)⟩))
              by_cases second : LowSurrogate low
              · exact .inr ⟨digits ++ backslash :: unicodeMark :: digits', _, p, by simp,
                  .pair spelled high spelled' second⟩
              · have read := parseHex4_append spelled' (p ++ stop :: rest)
                rw [← List.append_assoc] at read
                exact .inl (refused (.inr ⟨_, _, _, rfl, .inr (.inr ⟨low, read, second⟩)⟩))
            · exact .inl (refused (.inr ⟨a, b, _, rfl, by tauto⟩))
  · exact .inr ⟨digits, _, p, rfl, .unicode spelled filled high low⟩

/-- The scan counts up, at most once for a character, and stops at a part of the text. -/
theorem countString_suffix {p e : Bytes} {len len' : Nat}
    (scanned : countString p len = .ok (len', e))
    : e <:+ p ∧ len ≤ len' ∧ len' + e.length ≤ len + p.length := by
  induction p, len using countString.induct with
  | case1 len => simp [countString, outside] at scanned
  | case2 c len going => simp [countString, outside, going] at scanned
  | case3 c len stops =>
      rw [countString_stop (by tauto), Except.ok.injEq, Prod.mk.injEq] at scanned
      obtain ⟨rfl, rfl⟩ := scanned
      exact ⟨List.suffix_refl _, Nat.le_refl _, Nat.le_refl _⟩
  | case4 d rest len going ih =>
      rw [countString_escape] at scanned
      obtain ⟨part, up, once⟩ := ih scanned
      simp only [List.length_cons]
      exact ⟨part.trans ⟨[backslash, d], rfl⟩, by omega, by omega⟩
  | case5 c d rest len going unescaped ih =>
      rw [countString_plain going.2 going.1 unescaped] at scanned
      obtain ⟨part, up, once⟩ := ih scanned
      rw [List.length_cons]
      exact ⟨part.trans ⟨[c], rfl⟩, by omega, by omega⟩
  | case6 c d rest len stops =>
      rw [countString_stop (by tauto), Except.ok.injEq, Prod.mk.injEq] at scanned
      obtain ⟨rfl, rfl⟩ := scanned
      exact ⟨List.suffix_refl _, Nat.le_refl _, Nat.le_refl _⟩

/-- The value of `++len` below the bound of an `int`. -/
theorem int32_succ {len : Nat} (small : len + 1 < 2 ^ 31) : int32 (len + 1) = (len + 1 : Nat) := by
  rw [int32_eq_self (by omega) (by omega), Nat.cast_succ]

/-- The scan with an `int` is the one without a bound, as long as the count is below the bound. -/
theorem scanString_eq {p e : Bytes} {len len' : Nat}
    (counted : countString p len = .ok (len', e)) (small : len' < 2 ^ 31)
    : scanString p len = .ok ((len' : Int), e) := by
  have goes {len : Nat} (up : len + 1 ≤ len') : int32 (len + 1) ≠ 0 := by
    rw [int32_succ (by omega)]
    omega
  induction p, len using countString.induct with
  | case1 len => simp [countString, outside] at counted
  | case2 c len going => simp [countString, outside, going] at counted
  | case3 c len stops =>
      rw [countString_stop (by tauto), Except.ok.injEq, Prod.mk.injEq] at counted
      obtain ⟨rfl, rfl⟩ := counted
      rw [scanString, if_neg stops]
  | case4 d rest len going ih =>
      rw [countString_escape] at counted
      have up := (countString_suffix counted).2.1
      rw [scanString, if_pos going, if_pos (goes up), if_pos rfl, int32_succ (by omega), ih counted]
  | case5 c d rest len going unescaped ih =>
      rw [countString_plain going.2 going.1 unescaped] at counted
      have up := (countString_suffix counted).2.1
      rw [scanString, if_pos going, if_pos (goes up), if_neg unescaped, int32_succ (by omega),
        ih counted]
  | case6 c d rest len stops =>
      rw [countString_stop (by tauto), Except.ok.injEq, Prod.mk.injEq] at counted
      obtain ⟨rfl, rfl⟩ := counted
      rw [scanString, if_neg stops]

/-- In a short text, the scan with an `int` is led behind the block where the other one is. -/
theorem scanString_outside {p : Bytes} {len : Nat} (counted : countString p len = outside)
    (short : len + p.length < 2 ^ 31)
    : scanString p len = outside := by
  have goes {len : Nat} (small : len + 1 < 2 ^ 31) : int32 (len + 1) ≠ 0 := by
    rw [int32_succ small]
    omega
  induction p, len using countString.induct with
  | case1 len => rfl
  | case2 c len going =>
      rw [List.length_singleton] at short
      rw [scanString, if_pos going, if_pos (goes short)]
  | case3 c len stops =>
      rw [countString_stop (by tauto)] at counted
      exact absurd counted (by simp [outside])
  | case4 d rest len going ih =>
      rw [List.length_cons, List.length_cons] at short
      rw [countString_escape] at counted
      rw [scanString, if_pos going, if_pos (goes (by omega)), if_pos rfl, int32_succ (by omega),
        ih counted (by omega)]
  | case5 c d rest len going unescaped ih =>
      rw [List.length_cons, List.length_cons] at short
      rw [countString_plain going.2 going.1 unescaped] at counted
      rw [scanString, if_pos going, if_pos (goes (by omega)), if_neg unescaped,
        int32_succ (by omega), ih counted (by rw [List.length_cons]; omega)]
  | case6 c d rest len stops =>
      rw [countString_stop (by tauto)] at counted
      exact absurd counted (by simp [outside])

/-- One turn of the loop refuses the text, or writes a piece. -/
theorem parseCharacter_cases (str : Bytes) {p : Bytes} {stop : UInt8} {rest : Bytes}
    (terminated : Terminated (p ++ stop :: rest)) (stops : stop = Json.quote ∨ stop = 0)
    (filled : p ≠ []) {len len' : Nat}
    (scanned : countString (p ++ stop :: rest) len = .ok (len', stop :: rest))
    : parseCharacter str (stop :: rest) (p ++ stop :: rest) = .error (.malformed str)
      ∨ ∃ piece bytes front, p = piece ++ front ∧ Piece piece bytes := by
  obtain ⟨nulFree, -⟩ := terminated.of_append (by simp)
  cases p with
  | nil => exact absurd rfl filled
  | cons c p =>
      have filled := nulFree c List.mem_cons_self
      by_cases quoted : c = Json.quote
      · rw [List.cons_append, countString_stop (.inl quoted), Except.ok.injEq, Prod.mk.injEq]
          at scanned
        have length := congrArg List.length scanned.2
        simp only [List.length_cons, List.length_append] at length
        omega
      by_cases escaped : c = backslash
      · subst escaped
        cases p with
        | nil =>
            rw [List.singleton_append, countString_escape] at scanned
            exact absurd (countString_suffix scanned).1.length_le (by simp)
        | cons d p =>
            have behind : d ≠ 0 := nulFree d (by simp)
            by_cases unicode : d = unicodeMark
            · subst unicode
              rcases parseUnicode_cases str p rest stops with
                refused | ⟨digits, bytes, front, rfl, isPiece⟩
              · refine .inl ?_
                simp [parseCharacter, peek, refused]
              · exact .inr ⟨_, bytes, front, rfl, isPiece⟩
            · exact .inr ⟨[backslash, d], _, p, rfl, .escape behind unicode⟩
      · exact .inr ⟨[c], [c], p, rfl, .plain filled quoted escaped⟩

/-- The loop refuses the text, or writes the inside of the string up to the end of the scan, for
which the memory suffices.
-/
theorem parseCharacters_cases (str : Bytes) {p : Bytes} {stop : UInt8} {rest : Bytes}
    (terminated : Terminated (p ++ stop :: rest)) (stops : stop = Json.quote ∨ stop = 0)
    {count len fuel : Nat} {out : Bytes}
    (scanned : countString (p ++ stop :: rest) count = .ok (len, stop :: rest))
    (room : out.length ≤ count) (enough : p.length < fuel)
    : parseCharacters str (stop :: rest) (len + 1) fuel out (p ++ stop :: rest)
        = .error (.malformed str)
      ∨ ∃ s,
          Escaped p s
          ∧ out.length + s.length ≤ len
          ∧ parseCharacters str (stop :: rest) (len + 1) fuel out (p ++ stop :: rest)
            = .ok (out ++ s, stop :: rest) := by
  induction fuel generalizing p count out with
  | zero => omega
  | succ fuel ih =>
      by_cases filled : p = []
      · subst filled
        rw [List.nil_append, countString_stop stops, Except.ok.injEq, Prod.mk.injEq] at scanned
        refine .inr ⟨[], .nil, by simpa [← scanned.1] using room, ?_⟩
        simp [parseCharacters]
      rcases parseCharacter_cases str terminated stops filled scanned with
        refused | ⟨piece, bytes, front, rfl, isPiece⟩
      · have more : (stop :: rest).length < (p ++ stop :: rest).length := by
          simpa using List.length_pos_iff.mpr filled
        rw [parseCharacters, if_pos more, refused]
        exact .inl rfl
      · obtain ⟨passed, bound, scan⟩ := countString_piece isPiece
        rw [List.append_assoc, scan] at scanned
        rw [List.append_assoc] at terminated ⊢
        have counted := (countString_suffix scanned).2.1
        have some := List.length_pos_iff.mpr isPiece.ne_nil
        rw [List.length_append] at enough
        have turn := @parseCharacters_turn str (stop :: rest) piece bytes (front ++ stop :: rest)
          out (len + 1) fuel isPiece (by simp) (by omega)
        have room' : (out ++ bytes).length ≤ count + passed := by
          rw [List.length_append]
          omega
        rw [turn]
        rcases ih (terminated.of_append (by simp)).2 scanned room' (by omega) with
          refused | ⟨s, escaped, fits, written⟩
        · exact .inl refused
        · refine .inr ⟨bytes ++ s, .cons isPiece escaped, ?_, ?_⟩
          · rw [List.length_append] at fits ⊢
            omega
          · rw [written, List.append_assoc]

/-- The fields of an item that was given a string. -/
def withString {F : Type} (item : Fields F) (s : CString) : Fields F :=
  { item with valuestring := some s, type := .string }

variable [Supply] {F : Type} (item : Fields F)

/-- Memory is there, or was refused. -/
theorem request_cases {size : Nat} (small : size < 2 ^ 31)
    : request size = .ok size ∨ request size = .error .memory ∧ ¬Supplied (2 ^ 31) := by
  rw [request]
  cases given : mallocInt size with
  | none => exact .inr ⟨rfl, not_supplied small given⟩
  | some size' =>
      obtain rfl : size = size' := Int.ofNat_inj.mp (mallocInt_eq_some given)
      exact .inl rfl

/-- Behind the scan, memory is asked for, in which the string is written. -/
theorem parseString_scanned {str endPtr : Bytes} {len : Int}
    (scanned : scanString str 0 = .ok (len, endPtr))
    : parseString item (Json.quote :: str)
      = (request (int32 (len + 1))).bind fun size =>
          (parseCharacters (Json.quote :: str) endPtr size (Json.quote :: str).length [] str).bind
            fun written =>
              (allocated size (written.1 ++ [0])).bind fun out =>
                (peek written.2).bind fun behind =>
                  .ok
                    ({ item with valuestring := some (CString.startOf out), type := .string },
                      if behind = Json.quote then written.2.drop 1 else written.2) := by
  rw [parseString, peek, Reading.ok_bind, if_neg (by simp), List.drop_one, List.tail_cons, scanned,
    Reading.ok_bind]
  rfl

/-- A text of a string is read as the string, if memory for it is given. -/
theorem parseString_given {raw : Bytes} {s : CString} (escaped : Escaped raw s.val) {stop : UInt8}
    {rest : Bytes} {len : Nat}
    (counted : countString (raw ++ stop :: rest) 0 = .ok (len, stop :: rest))
    (enough : s.val.length ≤ len) (small : len + 1 < 2 ^ 31)
    (given : request (len + 1 : Nat) = .ok (len + 1))
    : parseString item (Json.quote :: (raw ++ stop :: rest))
      = .ok (withString item s, if stop = Json.quote then rest else stop :: rest) := by
  have room : raw.length < (Json.quote :: (raw ++ stop :: rest)).length := by
    rw [List.length_cons, List.length_append]
    omega
  have whole := @parseCharacters_escaped (Json.quote :: (raw ++ stop :: rest)) (stop :: rest) raw
    s.val escaped (len + 1) (Json.quote :: (raw ++ stop :: rest)).length []
    (by rw [List.length_nil]; omega) room
  have fits : (s.val ++ [0]).length ≤ len + 1 := by
    simp only [List.length_append, List.length_singleton]
    omega
  have kept := s.startOf_append []
  have read := scanString_eq counted (Nat.lt_of_succ_lt small)
  rw [Nat.cast_zero] at read
  rw [List.nil_append] at whole
  rw [parseString_scanned item read, int32_succ small, given, Except.bind, whole, Except.bind,
    allocated_eq fits, Except.bind, kept]
  rfl

/-- A short text of a string is read as the string. -/
theorem parseString_escaped (supplied : Supplied (2 ^ 31)) {raw : Bytes} {s : CString}
    (escaped : Escaped raw s.val) (short : raw.length + 1 < 2 ^ 31) {stop : UInt8}
    (stops : stop = Json.quote ∨ stop = 0) (rest : Bytes)
    : parseString item (Json.quote :: (raw ++ stop :: rest))
      = .ok (withString item s, if stop = Json.quote then rest else stop :: rest) := by
  obtain ⟨len, enough, scanned⟩ := countString_escaped escaped
  have counted : countString (raw ++ stop :: rest) 0 = .ok (len, stop :: rest) := by
    rw [scanned, countString_stop stops, Nat.zero_add]
  have once := (countString_suffix counted).2.2
  rw [List.length_append] at once
  have small : len + 1 < 2 ^ 31 := by omega
  exact parseString_given item escaped counted enough small
    ((request_cases small).resolve_right fun refused => refused.2 supplied)

/-- A terminated text starts with no string, or with one, or its last character is a backslash that
leads the scan behind it, or memory is refused.
-/
theorem parseString_cases {str : Bytes} (terminated : Terminated str)
    (short : str.length ≤ 2 ^ 31)
    : parseString item str = .error (.malformed str)
      ∨ parseString item str = outside ∧ (∃ text, str = text ++ [backslash, 0])
      ∨ parseString item str = .error .memory ∧ ¬Supplied (2 ^ 31)
      ∨ ∃ raw stop rest,
          ∃ s : CString,
            str = Json.quote :: (raw ++ stop :: rest)
            ∧ (stop = Json.quote ∨ stop = 0)
            ∧ Escaped raw s.val
            ∧ parseString item str
              = .ok (withString item s, if stop = Json.quote then rest else stop :: rest) := by
  cases str with
  | nil => exact absurd rfl terminated.ne_nil
  | cons c str =>
      by_cases quoted : c = Json.quote
      swap
      · refine .inl ?_
        simp [parseString, peek, quoted]
      subst quoted
      have behind := ((terminated_cons.mp terminated).resolve_left fun h => by
        exact absurd h.1 (by decide)).2
      rw [List.length_cons] at short
      rcases countString_cases behind 0 with
        ⟨fault, text, rfl⟩ | ⟨raw, stop, rest, len, rfl, stops, -, counted⟩
      · have read := scanString_outside fault (by omega)
        rw [Nat.cast_zero] at read
        refine .inr (.inl ⟨?_, Json.quote :: text, rfl⟩)
        rw [parseString, peek, Reading.ok_bind, if_neg (by simp), List.drop_one, List.tail_cons,
          read]
        rfl
      have once := (countString_suffix counted).2.2
      rw [List.length_cons] at once
      have small : len + 1 < 2 ^ 31 := by omega
      have read := scanString_eq counted (Nat.lt_of_succ_lt small)
      rw [Nat.cast_zero] at read
      rcases request_cases small with given | ⟨refused, limited⟩
      swap
      · refine .inr (.inr (.inl ⟨?_, limited⟩))
        rw [parseString_scanned item read, int32_succ small, refused, Except.bind]
      have empty : ([] : Bytes).length ≤ 0 := Nat.le_refl 0
      have enough : raw.length < (Json.quote :: (raw ++ stop :: rest)).length := by
        simp only [List.length_cons, List.length_append]
        omega
      rcases parseCharacters_cases (Json.quote :: (raw ++ stop :: rest)) behind stops counted
        empty enough with refused | ⟨s, escaped, fits, -⟩
      · refine .inl ?_
        rw [parseString_scanned item read, int32_succ small, given, Except.bind, refused,
          Except.bind]
      · rw [List.length_nil, Nat.zero_add] at fits
        exact .inr (.inr (.inr ⟨raw, stop, rest, ⟨s, escaped.nulFree⟩, rfl, stops, escaped,
          @parseString_given _ F item raw ⟨s, escaped.nulFree⟩ escaped stop rest len counted fits
            small given⟩))

end Cvos.LibJson

import Cvos.Lib.CMemory

/-! JSON values whose strings are C strings, and the texts that spell them: escapes are resolved,
and code points are encoded in UTF-8. What may stand between the tokens and how a number is spelled
are parameters.
-/

namespace Cvos.Lib

/-- A C string, without its terminator. -/
abbrev CString := {s : Bytes // ∀ c ∈ s, c ≠ 0}

/-- The string with no characters. -/
def CString.empty : CString := ⟨[], by simp⟩

/-- The string that starts at a block. -/
def CString.startOf (mem : Bytes) : CString :=
  ⟨mem.takeWhile (· ≠ 0), fun _ member => by simpa using List.mem_takeWhile_imp member⟩

/-- The string in front of a terminator. -/
theorem CString.startOf_append (s : CString) (rest : Bytes)
    : CString.startOf (s.val ++ 0 :: rest) = s := by
  have kept : (s.val ++ 0 :: rest).takeWhile (· ≠ 0) = s.val := by
    rw [List.takeWhile_append_of_pos (by simpa using s.property)]
    simp
  exact Subtype.ext kept

/-- A block ends with the only NUL in it, which terminates the string. -/
def Terminated (mem : Bytes) : Prop := ∃ s : CString, mem = s.val ++ [0]

/-- A terminated block holds the terminator. -/
theorem Terminated.ne_nil {mem : Bytes} (terminated : Terminated mem) : mem ≠ [] := by
  obtain ⟨s, rfl⟩ := terminated
  simp

/-- A terminated block starts with its terminator, or goes on. -/
theorem terminated_cons {c : UInt8} {mem : Bytes}
    : Terminated (c :: mem) ↔ c = 0 ∧ mem = [] ∨ c ≠ 0 ∧ Terminated mem := by
  constructor
  · rintro ⟨⟨s, nulFree⟩, split⟩
    cases s with
    | nil => exact .inl (by simpa using split)
    | cons d s =>
        obtain ⟨rfl, rfl⟩ := by simpa using split
        obtain ⟨filled, nulFree⟩ := List.forall_mem_cons.mp nulFree
        exact .inr ⟨filled, ⟨s, nulFree⟩, rfl⟩
  · rintro (⟨rfl, rfl⟩ | ⟨filled, ⟨s, nulFree⟩, rfl⟩)
    · exact ⟨CString.empty, rfl⟩
    · exact ⟨⟨c :: s, List.forall_mem_cons.mpr ⟨filled, nulFree⟩⟩, rfl⟩

/-- What stands in front of a part of a terminated block has no NUL, and the part is terminated. -/
theorem Terminated.of_append {front mem : Bytes} (terminated : Terminated (front ++ mem))
    (filled : mem ≠ [])
    : (∀ c ∈ front, c ≠ 0) ∧ Terminated mem := by
  induction front with
  | nil => exact ⟨by simp, terminated⟩
  | cons c front ih =>
      rcases terminated_cons.mp terminated with ⟨-, empty⟩ | ⟨here, behind⟩
      · exact absurd (List.append_eq_nil_iff.mp empty).2 filled
      · exact ⟨List.forall_mem_cons.mpr ⟨here, (ih behind).1⟩, (ih behind).2⟩

namespace Json

/-- The double quote. -/
def quote : UInt8 := '"'.toUInt8

/-- The character that starts an escape. -/
def backslash : UInt8 := '\\'.toUInt8

/-- The letter behind the backslash of a code unit. -/
def unicodeMark : UInt8 := 'u'.toUInt8

/-- The value of a hexadecimal digit. -/
def hexValue (c : UInt8) : Option Nat :=
  if '0'.toUInt8 ≤ c ∧ c ≤ '9'.toUInt8 then
    some (c.toNat - 48)
  else if 'A'.toUInt8 ≤ c ∧ c ≤ 'F'.toUInt8 then
    some (10 + (c.toNat - 65))
  else if 'a'.toUInt8 ≤ c ∧ c ≤ 'f'.toUInt8 then
    some (10 + (c.toNat - 97))
  else
    none

/-- The code unit that four hexadecimal digits spell. -/
inductive CodeUnit : Bytes → Nat → Prop where
  | digits {a b c d : UInt8} {w x y z : Nat} (first : hexValue a = some w)
    (second : hexValue b = some x) (third : hexValue c = some y) (fourth : hexValue d = some z)
    : CodeUnit [a, b, c, d] (((w * 16 + x) * 16 + y) * 16 + z)

/-- The UTF-8 encoding of a code point. -/
def utf8 (codePoint : Nat) : Bytes := String.utf8EncodeChar (Char.ofNat codePoint)

/-- The character that a backslash and this one stand for. -/
def unescape (c : UInt8) : UInt8 :=
  if c = 'b'.toUInt8 then 0x08
  else if c = 'f'.toUInt8 then 0x0c
  else if c = 'n'.toUInt8 then 0x0a
  else if c = 'r'.toUInt8 then 0x0d
  else if c = 't'.toUInt8 then 0x09
  else c

/-- The code units of the first half of a pair. -/
def HighSurrogate (unit : Nat) : Prop := 0xD800 ≤ unit ∧ unit ≤ 0xDBFF

/-- The code units of the second half of a pair. -/
def LowSurrogate (unit : Nat) : Prop := 0xDC00 ≤ unit ∧ unit ≤ 0xDFFF

instance (unit : Nat) : Decidable (HighSurrogate unit) :=
  inferInstanceAs (Decidable (_ ∧ _))

instance (unit : Nat) : Decidable (LowSurrogate unit) :=
  inferInstanceAs (Decidable (_ ∧ _))

/-- A code point takes at most four bytes. -/
theorem length_utf8_le (codePoint : Nat) : (utf8 codePoint).length ≤ 4 := by
  rw [utf8, String.length_utf8EncodeChar]
  exact Char.utf8Size_le_four _

/-- The value of a hexadecimal digit. -/
theorem hexValue_lt {c : UInt8} {digit : Nat} (value : hexValue c = some digit) : digit < 16 := by
  rw [hexValue] at value
  split_ifs at value with low upper lower <;>
    simp only [Option.some.injEq, UInt8.le_iff_toNat_le] at *
  · have bound : c.toNat ≤ 57 := low.2
    omega
  · have bound : c.toNat ≤ 70 := upper.2
    omega
  · have bound : c.toNat ≤ 102 := lower.2
    omega

/-- A code unit outside the surrogates is a code point. -/
theorem CodeUnit.isValidChar {digits : Bytes} {unit : Nat} (spelled : CodeUnit digits unit)
    (notHigh : ¬HighSurrogate unit) (notLow : ¬LowSurrogate unit)
    : unit.isValidChar := by
  rw [HighSurrogate] at notHigh
  rw [LowSurrogate] at notLow
  rw [Nat.isValidChar]
  cases spelled with
  | digits first second third fourth =>
      have w := hexValue_lt first
      have x := hexValue_lt second
      have y := hexValue_lt third
      have z := hexValue_lt fourth
      omega

/-- A pair of surrogates stands for a code point. -/
theorem pair_isValidChar {high low : Nat} (first : HighSurrogate high) (second : LowSurrogate low)
    : (0x10000 + (high - 0xD800) * 0x400 + (low - 0xDC00)).isValidChar := by
  rw [HighSurrogate] at first
  rw [LowSurrogate] at second
  rw [Nat.isValidChar]
  omega

/-- Bytes of a code unit are hexadecimal digits. -/
theorem CodeUnit.hex {digits : Bytes} {unit : Nat} (spelled : CodeUnit digits unit)
    : digits.length = 4 ∧ ∀ c ∈ digits, (hexValue c).isSome := by
  cases spelled with
  | digits first second third fourth => simp [first, second, third, fourth]

/-- One character, escape or code point of the text between quotes, and its bytes. -/
inductive Piece : Bytes → Bytes → Prop where
  | plain {c : UInt8} (filled : c ≠ 0) (unquoted : c ≠ quote) (unescaped : c ≠ backslash)
    : Piece [c] [c]
  | escape {c : UInt8} (filled : c ≠ 0) (letter : c ≠ unicodeMark)
    : Piece [backslash, c] [unescape c]
  | unicode {digits : Bytes} {unit : Nat} (spelled : CodeUnit digits unit) (filled : unit ≠ 0)
    (notHigh : ¬HighSurrogate unit) (notLow : ¬LowSurrogate unit)
    : Piece (backslash :: unicodeMark :: digits) (utf8 unit)
  | pair {digits digits' : Bytes} {high low : Nat} (spelled : CodeUnit digits high)
    (first : HighSurrogate high) (spelled' : CodeUnit digits' low) (second : LowSurrogate low)
    : Piece (backslash :: unicodeMark :: (digits ++ backslash :: unicodeMark :: digits'))
        (utf8 (0x10000 + (high - 0xD800) * 0x400 + (low - 0xDC00)))

/-- The text between the quotes of a string, and the bytes of the string. -/
inductive Escaped : Bytes → Bytes → Prop where
  | nil : Escaped [] []
  | cons {piece bytes raw s : Bytes} (first : Piece piece bytes) (rest : Escaped raw s)
    : Escaped (piece ++ raw) (bytes ++ s)

/-- The bytes of a code point are not zero, unless it is. -/
theorem utf8_nulFree {codePoint : Nat} (scalar : codePoint.isValidChar) (filled : codePoint ≠ 0)
    : ∀ c ∈ utf8 codePoint, c ≠ 0 := by
  have point : (Char.ofNat codePoint).val.toNat = codePoint := by
    rw [Char.ofNat, dif_pos scalar]
    rfl
  have byte {n : Nat} (positive : 0 < n) (small : n < 256) : UInt8.ofNat n ≠ 0 := by
    intro zero
    have value := congrArg UInt8.toNat zero
    rw [UInt8.toNat_ofNat', Nat.mod_eq_of_lt small] at value
    exact absurd value (Nat.pos_iff_ne_zero.mp positive)
  rw [utf8, String.utf8EncodeChar, point]
  split_ifs <;> simp only [List.mem_cons, List.not_mem_nil, or_false, forall_eq_or_imp, forall_eq]
  · exact byte (by omega) (by omega)
  · exact ⟨byte (by omega) (by omega), byte (by omega) (by omega)⟩
  · exact ⟨byte (by omega) (by omega), byte (by omega) (by omega), byte (by omega) (by omega)⟩
  · exact ⟨byte (by omega) (by omega), byte (by omega) (by omega), byte (by omega) (by omega),
      byte (by omega) (by omega)⟩

/-- A piece is not empty. -/
theorem Piece.ne_nil {piece bytes : Bytes} (isPiece : Piece piece bytes) : piece ≠ [] := by
  cases isPiece <;> simp

/-- A piece stands for bytes other than NUL. -/
theorem Piece.nulFree {piece bytes : Bytes} (isPiece : Piece piece bytes) : ∀ c ∈ bytes, c ≠ 0 := by
  cases isPiece with
  | plain filled _ _ => simpa using filled
  | @escape c filled _ =>
      rw [List.forall_mem_singleton, unescape]
      split_ifs <;> first | decide | exact filled
  | unicode spelled filled notHigh notLow =>
      exact utf8_nulFree (spelled.isValidChar notHigh notLow) filled
  | pair _ first _ second => exact utf8_nulFree (pair_isValidChar first second) (by omega)

/-- The text of a code unit has no NUL. -/
theorem CodeUnit.text_nulFree {digits : Bytes} {unit : Nat} (spelled : CodeUnit digits unit)
    : ∀ c ∈ digits, c ≠ 0 := by
  rintro c member rfl
  exact absurd (spelled.hex.2 0 member) (by decide)

/-- The text of a piece has no NUL. -/
theorem Piece.text_nulFree {piece bytes : Bytes} (isPiece : Piece piece bytes)
    : ∀ c ∈ piece, c ≠ 0 := by
  have escaped {c : UInt8} {rest : Bytes} (letter : c ≠ 0) (filled : ∀ d ∈ rest, d ≠ 0)
      : ∀ d ∈ backslash :: c :: rest, d ≠ 0 :=
    List.forall_mem_cons.mpr ⟨by decide, List.forall_mem_cons.mpr ⟨letter, filled⟩⟩
  cases isPiece with
  | plain filled _ _ => simpa using filled
  | escape filled _ => exact escaped filled (by simp)
  | unicode spelled _ _ _ => exact escaped (by decide) spelled.text_nulFree
  | pair spelled _ spelled' _ =>
      exact escaped (by decide)
        (List.forall_mem_append.mpr
          ⟨spelled.text_nulFree, escaped (by decide) spelled'.text_nulFree⟩)

/-- What stands between quotes is a C string. -/
theorem Escaped.nulFree {raw s : Bytes} (escaped : Escaped raw s) : ∀ c ∈ s, c ≠ 0 := by
  induction escaped with
  | nil => simp
  | cons first _ ih => exact List.forall_mem_append.mpr ⟨first.nulFree, ih⟩

/-- The text between quotes has no NUL. -/
theorem Escaped.text_nulFree {raw s : Bytes} (escaped : Escaped raw s) : ∀ c ∈ raw, c ≠ 0 := by
  induction escaped with
  | nil => simp
  | cons first _ ih => exact List.forall_mem_append.mpr ⟨first.text_nulFree, ih⟩

end Json

/-- A JSON value over a type of numbers. -/
inductive Json (F : Type) where
  | null
  | bool (b : Bool)
  | number (n : F)
  | string (s : CString)
  | array (elements : List (Json F))
  | object (members : List (CString × Json F))

namespace Json

/-- The blanks between tokens. -/
def Blank (b : Bytes) : Prop := ∀ c ∈ b, c ≠ 0 ∧ c ≤ 32

instance (b : Bytes) : Decidable (Blank b) :=
  inferInstanceAs (Decidable (∀ c ∈ b, _))

/-- What a part of a text spells. -/
inductive Phrase (F : Type) where
  | value (j : Json F)
  | element (j : Json F)
  | elements (js : List (Json F))
  | member (m : CString × Json F)
  | members (ms : List (CString × Json F))

/-- The bytes of a keyword. -/
def keyword (s : String) : Bytes := s.toList.map Char.toUInt8

/-- A text spells a phrase, with gaps between the tokens. -/
inductive Spells {F : Type} (Gap : Bytes → Prop) (Num : F → Bytes → Prop)
    : Phrase F → Bytes → Prop where
  | null : Spells Gap Num (.value .null) (keyword "null")
  | true : Spells Gap Num (.value (.bool true)) (keyword "true")
  | false : Spells Gap Num (.value (.bool false)) (keyword "false")
  | number {n : F} {t : Bytes} (spelled : Num n t) : Spells Gap Num (.value (.number n)) t
  | string {s : CString} {raw : Bytes} (escaped : Escaped raw s.val)
    : Spells Gap Num (.value (.string s)) (quote :: (raw ++ [quote]))
  | emptyArray {b : Bytes} (blank : Gap b)
    : Spells Gap Num (.value (.array [])) ('['.toUInt8 :: (b ++ [']'.toUInt8]))
  | array {js : List (Json F)} {t : Bytes} (inside : Spells Gap Num (.elements js) t)
    : Spells Gap Num (.value (.array js)) ('['.toUInt8 :: (t ++ [']'.toUInt8]))
  | emptyObject {b : Bytes} (blank : Gap b)
    : Spells Gap Num (.value (.object [])) ('\x7b'.toUInt8 :: (b ++ ['\x7d'.toUInt8]))
  | object {ms : List (CString × Json F)} {t : Bytes} (inside : Spells Gap Num (.members ms) t)
    : Spells Gap Num (.value (.object ms)) ('\x7b'.toUInt8 :: (t ++ ['\x7d'.toUInt8]))
  | element {j : Json F} {b t b' : Bytes} (before : Gap b) (value : Spells Gap Num (.value j) t)
    (behind : Gap b')
    : Spells Gap Num (.element j) (b ++ (t ++ b'))
  | lastElement {j : Json F} {t : Bytes} (last : Spells Gap Num (.element j) t)
    : Spells Gap Num (.elements [j]) t
  | elements {j : Json F} {js : List (Json F)} {t more : Bytes}
    (first : Spells Gap Num (.element j) t) (rest : Spells Gap Num (.elements js) more)
    : Spells Gap Num (.elements (j :: js)) (t ++ ','.toUInt8 :: more)
  | member {s : CString} {j : Json F} {b raw b' t : Bytes} (before : Gap b)
    (name : Escaped raw s.val) (behind : Gap b') (value : Spells Gap Num (.element j) t)
    : Spells Gap Num (.member (s, j)) (b ++ quote :: (raw ++ quote :: (b' ++ ':'.toUInt8 :: t)))
  | lastMember {m : CString × Json F} {t : Bytes} (last : Spells Gap Num (.member m) t)
    : Spells Gap Num (.members [m]) t
  | members {m : CString × Json F} {ms : List (CString × Json F)} {t more : Bytes}
    (first : Spells Gap Num (.member m) t) (rest : Spells Gap Num (.members ms) more)
    : Spells Gap Num (.members (m :: ms)) (t ++ ','.toUInt8 :: more)

/-- A text has no NUL, if gaps and numbers have none. -/
theorem Spells.nulFree {F : Type} {Gap : Bytes → Prop} {Num : F → Bytes → Prop}
    (gaps : ∀ b, Gap b → ∀ c ∈ b, c ≠ 0) (numbers : ∀ n t, Num n t → ∀ c ∈ t, c ≠ 0)
    {phrase : Phrase F} {t : Bytes}
    (text : Spells Gap Num phrase t)
    : ∀ c ∈ t, c ≠ 0 := by
  have bracketed {first last : UInt8} {inner : Bytes} (opened : first ≠ 0) (closed : last ≠ 0)
      (filled : ∀ c ∈ inner, c ≠ 0)
      : ∀ c ∈ first :: (inner ++ [last]), c ≠ 0 :=
    List.forall_mem_cons.mpr ⟨opened, List.forall_mem_append.mpr ⟨filled, by simpa using closed⟩⟩
  have separated {front behind : Bytes} {c : UInt8} (filled : c ≠ 0) (before : ∀ d ∈ front, d ≠ 0)
      (after : ∀ d ∈ behind, d ≠ 0)
      : ∀ d ∈ front ++ c :: behind, d ≠ 0 :=
    List.forall_mem_append.mpr ⟨before, List.forall_mem_cons.mpr ⟨filled, after⟩⟩
  induction text with
  | null => decide
  | true => decide
  | false => decide
  | number spelled => exact numbers _ _ spelled
  | string escaped => exact bracketed (by decide) (by decide) escaped.text_nulFree
  | emptyArray blank => exact bracketed (by decide) (by decide) (gaps _ blank)
  | array _ ih => exact bracketed (by decide) (by decide) ih
  | emptyObject blank => exact bracketed (by decide) (by decide) (gaps _ blank)
  | object _ ih => exact bracketed (by decide) (by decide) ih
  | element before _ behind ih =>
      exact List.forall_mem_append.mpr
        ⟨gaps _ before, List.forall_mem_append.mpr ⟨ih, gaps _ behind⟩⟩
  | lastElement _ ih => exact ih
  | elements _ _ first rest => exact separated (by decide) first rest
  | member before name behind _ ih =>
      exact separated (by decide) (gaps _ before)
        (separated (by decide) name.text_nulFree (separated (by decide) (gaps _ behind) ih))
  | lastMember _ ih => exact ih
  | members _ _ first rest => exact separated (by decide) first rest

section Translation

variable {F : Type} {Gap Gap' : Bytes → Prop} {Num Num' : F → Bytes → Prop}
  {R : Bytes → Bytes → Prop}

/-- Texts that are rewritten part by part, with gaps and numbers replaced by others, spell what they
spelled.
-/
theorem Spells.translate (append : ∀ t t' u u', R t t' → R u u' → R (t ++ u) (t' ++ u'))
    (tokens : ∀ c ∈ keyword "[]\x7b\x7d,:", R [c] [c])
    (words : ∀ w ∈ ["null", "true", "false"], R (keyword w) (keyword w))
    (strings
      : ∀ raw s, Escaped raw s → R (quote :: (raw ++ [quote])) (quote :: (raw ++ [quote])))
    (gaps : ∀ b, Gap b → ∃ b', Gap' b' ∧ R b b')
    (numbers : ∀ n t, Num n t → ∃ t', Num' n t' ∧ R t t')
    {phrase : Phrase F} {t : Bytes} (text : Spells Gap Num phrase t)
    : ∃ t', Spells Gap' Num' phrase t' ∧ R t t' := by
  have bracketed {first last : UInt8} {inner inner' : Bytes}
      (opened : first ∈ keyword "[]\x7b\x7d,:") (closed : last ∈ keyword "[]\x7b\x7d,:")
      (inside : R inner inner')
      : R (first :: (inner ++ [last])) (first :: (inner' ++ [last])) :=
    append _ _ _ _ (tokens _ opened) (append _ _ _ _ inside (tokens _ closed))
  have separated {c : UInt8} {front front' behind behind' : Bytes}
      (token : c ∈ keyword "[]\x7b\x7d,:") (before : R front front') (after : R behind behind')
      : R (front ++ c :: behind) (front' ++ c :: behind') :=
    append _ _ _ _ before (append _ _ _ _ (tokens _ token) after)
  induction text with
  | null => exact ⟨_, .null, words _ (by simp)⟩
  | true => exact ⟨_, .true, words _ (by simp)⟩
  | false => exact ⟨_, .false, words _ (by simp)⟩
  | number spelled =>
      obtain ⟨t', spelled', same⟩ := numbers _ _ spelled
      exact ⟨t', .number spelled', same⟩
  | string escaped => exact ⟨_, .string escaped, strings _ _ escaped⟩
  | emptyArray blank =>
      obtain ⟨b', blank', same⟩ := gaps _ blank
      exact ⟨_, .emptyArray blank', bracketed (by decide) (by decide) same⟩
  | array _ ih =>
      obtain ⟨t', inside, same⟩ := ih
      exact ⟨_, .array inside, bracketed (by decide) (by decide) same⟩
  | emptyObject blank =>
      obtain ⟨b', blank', same⟩ := gaps _ blank
      exact ⟨_, .emptyObject blank', bracketed (by decide) (by decide) same⟩
  | object _ ih =>
      obtain ⟨t', inside, same⟩ := ih
      exact ⟨_, .object inside, bracketed (by decide) (by decide) same⟩
  | element before _ behind ih =>
      obtain ⟨b, before', same⟩ := gaps _ before
      obtain ⟨t', value, same'⟩ := ih
      obtain ⟨b', behind', same''⟩ := gaps _ behind
      exact ⟨_, .element before' value behind',
        append _ _ _ _ same (append _ _ _ _ same' same'')⟩
  | lastElement _ ih =>
      obtain ⟨t', last, same⟩ := ih
      exact ⟨t', .lastElement last, same⟩
  | elements _ _ first rest =>
      obtain ⟨t', first', same⟩ := first
      obtain ⟨more', rest', same'⟩ := rest
      exact ⟨_, .elements first' rest', separated (by decide) same same'⟩
  | @member s j b raw b' t before name behind _ ih =>
      obtain ⟨g, before', same⟩ := gaps _ before
      obtain ⟨g', behind', same'⟩ := gaps _ behind
      obtain ⟨t', value, same''⟩ := ih
      refine ⟨_, .member before' name behind' value, ?_⟩
      have literal := append _ _ _ _ (strings _ _ name)
        (separated (c := ':'.toUInt8) (by decide) same' same'')
      have whole := append _ _ _ _ same literal
      simpa using whole
  | lastMember _ ih =>
      obtain ⟨t', last, same⟩ := ih
      exact ⟨t', .lastMember last, same⟩
  | members _ _ first rest =>
      obtain ⟨t', first', same⟩ := first
      obtain ⟨more', rest', same'⟩ := rest
      exact ⟨_, .members first' rest', separated (by decide) same same'⟩

end Translation

end Json

end Cvos.Lib

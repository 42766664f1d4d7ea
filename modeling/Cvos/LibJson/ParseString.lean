import Cvos.Lib.Supply
import Cvos.LibJson.Item

/-! The parser of cJSON at its characters: blanks, hexadecimal digits and strings. A pointer into
the text is what the block holds from it on.
-/

namespace Cvos.LibJson

open Cvos.Lib

/-- Why parsing ends without an item: the code has no defined result, or the parser returns a null
pointer, with `*ep` set to a place in the text, or without since memory was refused.
-/
inductive Failure where
  | fault (fault : Fault)
  | malformed (ep : Bytes)
  | memory
  deriving DecidableEq, Repr

/-- The result of a part of the parser. -/
abbrev Reading (α : Type) := Except Failure α

/-- An access behind the block. -/
def outside {α : Type} : Reading α := .error (.fault .outOfBounds)

/-- What has been read is handed on. -/
@[simp]
theorem Reading.ok_bind {α β : Type} (a : α) (next : α → Reading β)
    : ((.ok a : Reading α) >>= next) = next a := rfl

/-- Nothing is read behind a failure. -/
@[simp]
theorem Reading.error_bind {α β : Type} (failure : Failure) (next : α → Reading β)
    : ((.error failure : Reading α) >>= next) = .error failure := rfl

/-- Something is read exactly when each part is. -/
theorem Reading.bind_eq_ok {α β : Type} {x : Reading α} {next : α → Reading β} {b : β}
    : x >>= next = .ok b ↔ ∃ a, x = .ok a ∧ next a = .ok b := by
  cases x with
  | error failure => simp
  | ok a => simp

/-- The value `*p`. -/
def peek : Bytes → Reading UInt8
  | [] => outside
  | c :: _ => .ok c

/-- `skip` -/
def skip : Bytes → Reading Bytes
  | [] => outside
  | c :: rest => if c ≠ 0 ∧ c ≤ 32 then skip rest else .ok (c :: rest)

/-- The digits of `parse_hex4` that are still to be read. -/
def parseHexDigits : Nat → Nat → Bytes → Reading Nat
  | 0, h, _ => .ok h
  | _ + 1, _, [] => outside
  | count + 1, h, c :: rest =>
      match Json.hexValue c with
      | none => .ok 0
      | some digit => parseHexDigits count (h <<< 4 + digit) rest

/-- `parse_hex4` -/
def parseHex4 (str : Bytes) : Reading Nat := parseHexDigits 4 0 str

/-- `firstByteMark` -/
def firstByteMark : Nat → Nat
  | 0 => 0x00
  | 1 => 0x00
  | 2 => 0xC0
  | 3 => 0xE0
  | 4 => 0xF0
  | 5 => 0xF8
  | _ => 0xFC

/-- The bytes that are written back from the end of a code point, with what remains of it. -/
def continuationBytes : Nat → Nat → Nat × Bytes
  | 0, uc => (uc, [])
  | count + 1, uc =>
      let (first, bytes) := continuationBytes count (uc >>> 6)
      (first, bytes ++ [UInt8.ofNat ((uc ||| 0x80) &&& 0xBF)])

/-- The number of bytes of a code point. -/
def encodedLength (uc : Nat) : Nat :=
  if uc < 0x80 then 1 else if uc < 0x800 then 2 else if uc < 0x10000 then 3 else 4

/-- The bytes of a code point. -/
def encode (uc : Nat) : Bytes :=
  let (first, bytes) := continuationBytes (encodedLength uc - 1) uc
  UInt8.ofNat (first ||| firstByteMark (encodedLength uc)) :: bytes

/-- The first loop of `parse_string`, with `len` and `end_ptr`. A backslash at the end of the block
leads behind it, and the loop also ends when `len` comes back to zero.
-/
def scanString : Bytes → Int → Reading (Int × Bytes)
  | [], _ => outside
  | [c], len =>
      if c ≠ Json.quote ∧ c ≠ 0 then
        if int32 (len + 1) ≠ 0 then outside else .ok (0, [c])
      else
        .ok (len, [c])
  | c :: d :: rest, len =>
      if c ≠ Json.quote ∧ c ≠ 0 then
        if int32 (len + 1) ≠ 0 then
          if c = Json.backslash then
            scanString rest (int32 (len + 1))
          else
            scanString (d :: rest) (int32 (len + 1))
        else
          .ok (0, c :: d :: rest)
      else
        .ok (len, c :: d :: rest)

/-- The case `'u'` of `parse_string`, with `ptr` at the `u`: the bytes of the code point, and the
last digit. The comparison with `end_ptr` is one of what remains.
-/
def parseUnicode (str endPtr ptr : Bytes) : Reading (Bytes × Bytes) := do
  let uc ← parseHex4 (ptr.drop 1)
  let ptr := ptr.drop 4
  if ptr.length ≤ endPtr.length then
    .error (.malformed str)
  else if 0xDC00 ≤ uc ∧ uc ≤ 0xDFFF ∨ uc = 0 then
    .error (.malformed str)
  else if 0xD800 ≤ uc ∧ uc ≤ 0xDBFF then
    if ptr.length < endPtr.length + 6 then
      .error (.malformed str)
    else do
      let escape ← peek (ptr.drop 1)
      let mark ← peek (ptr.drop 2)
      if escape ≠ Json.backslash ∨ mark ≠ Json.unicodeMark then
        .error (.malformed str)
      else do
        let uc2 ← parseHex4 (ptr.drop 3)
        let ptr := ptr.drop 6
        if uc2 < 0xDC00 ∨ 0xDFFF < uc2 then
          .error (.malformed str)
        else
          .ok (encode (0x10000 + ((uc &&& 0x3FF) <<< 10 ||| uc2 &&& 0x3FF)), ptr)
  else
    .ok (encode uc, ptr)

/-- One turn of the second loop of `parse_string`: the bytes that it writes, and `ptr`. -/
def parseCharacter (str endPtr : Bytes) : Bytes → Reading (Bytes × Bytes)
  | [] => outside
  | c :: rest =>
      if c ≠ Json.backslash then
        .ok ([c], rest)
      else do
        let escape ← peek rest
        if escape = Json.unicodeMark then do
          let (bytes, ptr) ← parseUnicode str endPtr rest
          .ok (bytes, ptr.drop 1)
        else
          .ok ([Json.unescape escape], rest.drop 1)

/-- The memory at `out`, of which some bytes are allocated, with further bytes written. -/
def allocated (size : Nat) (written : Bytes) : Reading Bytes :=
  if written.length ≤ size then .ok written else outside

/-- The second loop of `parse_string`, with what is written at `out`, and `ptr`. -/
def parseCharacters (str endPtr : Bytes) (size : Nat)
    : Nat → Bytes → Bytes → Reading (Bytes × Bytes)
  | 0, _, _ => .error (.fault .diverges)
  | fuel + 1, out, ptr =>
      if endPtr.length < ptr.length then do
        let (bytes, ptr) ← parseCharacter str endPtr ptr
        let out ← allocated size (out ++ bytes)
        parseCharacters str endPtr size fuel out ptr
      else
        .ok (out, ptr)

variable [Supply]

/-- Memory for an `int` number of bytes, without which a null pointer is returned. -/
def request (size : Int) : Reading Nat :=
  match mallocInt size with
  | none => .error .memory
  | some size => .ok size

variable {F : Type}

/-- `parse_string`: the fields of the item, and the text behind the string. -/
def parseString (item : Fields F) (str : Bytes) : Reading (Fields F × Bytes) := do
  let first ← peek str
  if first ≠ Json.quote then
    .error (.malformed str)
  else do
    let (len, endPtr) ← scanString (str.drop 1) 0
    let size ← request (int32 (len + 1))
    let (out, ptr) ← parseCharacters str endPtr size str.length [] (str.drop 1)
    let out ← allocated size (out ++ [0])
    let behind ← peek ptr
    let item := { item with valuestring := some (CString.startOf out), type := .string }
    .ok (item, if behind = Json.quote then ptr.drop 1 else ptr)

end Cvos.LibJson

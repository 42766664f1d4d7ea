import Cvos.Lib.Supply
import Cvos.LibJson.Item

/-! The printer of cJSON. A leaf asks for a number of bytes and writes a text into them, be it into
memory of its own or into a buffer. Without a buffer, arrays and objects collect the texts of their
items before they allocate their own. Where memory is refused, a null pointer is returned.
-/

namespace Cvos.LibJson

open Cvos.Lib

/-- How many bytes are asked for, and the text that is written there with a terminator. -/
structure Rendered where
  needed : Int
  text : Bytes
  deriving DecidableEq, Repr

/-- The bytes of a string literal. -/
abbrev word (s : String) : Bytes := Json.keyword s

/-- The byte of a hexadecimal digit under the format `%x`. -/
def hexDigit (d : Nat) : UInt8 := UInt8.ofNat (if d < 10 then 48 + d else 87 + d)

/-- The text of a byte under the format `u%04x`. -/
def hex04 (c : UInt8) : Bytes :=
  ['u'.toUInt8, '0'.toUInt8, '0'.toUInt8, hexDigit (c.toNat / 16), hexDigit (c.toNat % 16)]

/-- The characters that `print_string_ptr` escapes by a letter, with the letter. -/
def escapeLetter (c : UInt8) : Option UInt8 :=
  if c = Json.backslash then some Json.backslash
  else if c = Json.quote then some Json.quote
  else if c = 0x08 then some 'b'.toUInt8
  else if c = 0x0c then some 'f'.toUInt8
  else if c = 0x0a then some 'n'.toUInt8
  else if c = 0x0d then some 'r'.toUInt8
  else if c = 0x09 then some 't'.toUInt8
  else none

/-- The condition under which the loops of `print_string_ptr` treat a character apart. The first one
compares a `char`, which is signed.
-/
def isSpecial (c : UInt8) : Bool := (0 < c && c < 32) || c == Json.quote || c == Json.backslash

/-- The bytes that are counted for a character. -/
def escapedSize (c : UInt8) : Nat :=
  if (escapeLetter c).isSome then 2 else if c < 32 then 6 else 1

/-- The bytes that are written for a character. -/
def escapeCharacter (c : UInt8) : Bytes :=
  if 31 < c ∧ c ≠ Json.quote ∧ c ≠ Json.backslash then
    [c]
  else
    Json.backslash
      :: (match escapeLetter c with
          | some letter => [letter]
          | none => hex04 c)

/-- The second loop of `print_string_ptr`, which also ends when `len` comes back to zero. -/
def escapedLength : Bytes → Int → Int
  | [], len => len
  | token :: ptr, len =>
      if int32 (len + 1) = 0 then 0 else escapedLength ptr (int32 (len + escapedSize token))

/-- `print_string_ptr` -/
def printStringPtr : Option CString → Rendered
  | none => ⟨3, [Json.quote, Json.quote]⟩
  | some str =>
      if str.val.any isSpecial then
        ⟨int32 (escapedLength str.val 0 + 3),
          Json.quote :: (str.val.flatMap escapeCharacter ++ [Json.quote])⟩
      else
        ⟨int32 (int32 str.val.length + 3), Json.quote :: (str.val ++ [Json.quote])⟩

/-- What is only written if the output is formatted. -/
def formatted (fmt : Bool) (bytes : Bytes) : Bytes := if fmt then bytes else []

/-- The tabs in front of a line. -/
def tabs (depth : Nat) : Bytes := List.replicate depth '\t'.toUInt8

/-- The elements of an array, with the commas between them. -/
def arrayBody (fmt : Bool) : List Bytes → Bytes
  | [] => []
  | [text] => text
  | text :: rest => text ++ ','.toUInt8 :: (formatted fmt [' '.toUInt8] ++ arrayBody fmt rest)

/-- The text of an array, from those of its elements. -/
def arrayText (fmt : Bool) (entries : List Bytes) : Bytes :=
  '['.toUInt8 :: (arrayBody fmt entries ++ [']'.toUInt8])

/-- The members of an object on their lines. -/
def objectBody (fmt : Bool) (depth : Nat) : List (Bytes × Bytes) → Bytes
  | [] => []
  | (name, text) :: rest =>
      formatted fmt (tabs depth)
        ++ (name
          ++ ':'.toUInt8
            :: (formatted fmt ['\t'.toUInt8]
              ++ (text
                ++ ((if rest.isEmpty then [] else [','.toUInt8])
                  ++ (formatted fmt ['\n'.toUInt8] ++ objectBody fmt depth rest)))))

/-- The text of an object, from the names and texts of its members. -/
def objectText (fmt : Bool) (depth : Nat) (entries : List (Bytes × Bytes)) : Bytes :=
  '\x7b'.toUInt8
    :: (formatted fmt ['\n'.toUInt8]
      ++ (objectBody fmt (depth + 1) entries
        ++ (formatted fmt (tabs depth) ++ ['\x7d'.toUInt8])))

section Printing

variable {F : Type} [CDouble F]

/-- `print_number` -/
def printNumber (item : Fields F) : Rendered :=
  let d := item.valuedouble
  if CDouble.eq d (CDouble.ofInt 0) then
    ⟨2, word "0"⟩
  else if CDouble.le (CDouble.fabs (CDouble.sub (CDouble.ofInt item.valueint) d)) CDouble.epsilon
      ∧ CDouble.le d (CDouble.ofInt (2 ^ 31 - 1))
      ∧ CDouble.le (CDouble.ofInt (-2 ^ 31)) d then
    ⟨21, decimalInt item.valueint⟩
  else if !CDouble.eq (CDouble.mul d (CDouble.ofInt 0)) (CDouble.ofInt 0) then
    ⟨64, word "null"⟩
  else if CDouble.le (CDouble.fabs (CDouble.sub (CDouble.floor d) d)) CDouble.epsilon
      ∧ CDouble.lt (CDouble.fabs d) (CDouble.constant 1 60) then
    ⟨64, CDouble.formatWhole d⟩
  else if CDouble.lt (CDouble.fabs d) (CDouble.constant 1 (-6))
      ∨ CDouble.lt (CDouble.constant 1 9) (CDouble.fabs d) then
    ⟨64, CDouble.formatScientific d⟩
  else
    ⟨64, CDouble.formatFixed d⟩

/-- The value of `numentries` behind the loop that counts the items of a chain. -/
def numentries (child : Item F) : Int := int32 child.chain.length

variable [Supply]

/-- A text with its terminator in memory of its own, or a null pointer. -/
def filled (size : Int) (text : Bytes) : Checked (Option Bytes) :=
  match mallocInt size with
  | none => .ok none
  | some size => if text.length < size then .ok (some text) else .error .outOfBounds

/-- A text in memory of its own. -/
def Rendered.alone (r : Rendered) : Checked (Option Bytes) := filled r.needed r.text

/-- `cJSON_strdup` -/
def cJSONStrdup (str : Bytes) : Checked (Option Bytes) := filled (str.length + 1) str

/-- The bytes that are counted in `len` for an array. -/
def arrayLength (fmt : Bool) (entries : List (Bytes × Bytes)) : Nat :=
  5 + (entries.map fun entry => entry.2.length + 2 + if fmt then 1 else 0).sum

/-- The bytes that are counted in `len` for an object. -/
def objectLength (fmt : Bool) (depth : Nat) (entries : List (Bytes × Bytes)) : Nat :=
  7 + (if fmt then depth else 0)
    + (entries.map fun entry =>
        entry.2.length + entry.1.length + 2 + if fmt then 2 + depth else 0).sum

/-- `print_array` without a buffer, from the loop over the elements, which is given the number of
the pointers that there is memory for.
-/
def printArray (fmt : Bool) (numentries : Int)
    (elements : Nat → Checked (Option (List (Bytes × Bytes))))
    : Checked (Option Bytes) :=
  if numentries = 0 then
    filled 3 (word "[]")
  else
    match mallocInt (numentries * 8) with
    | none => .ok none
    | some size => do
        match ← elements (size / 8) with
        | none => .ok none
        | some entries =>
            filled (int32 (arrayLength fmt entries)) (arrayText fmt (entries.map Prod.snd))

/-- `print_object` without a buffer, from the loop over the members. The memory for the pointers to
the names is that for the pointers to the values once more.
-/
def printObject (fmt : Bool) (depth : Nat) (numentries : Int)
    (members : Nat → Checked (Option (List (Bytes × Bytes))))
    : Checked (Option Bytes) :=
  if numentries = 0 then
    filled (if fmt then int32 (depth + 4) else 3) (objectText fmt depth [])
  else
    match mallocInt (numentries * 8) with
    | none => .ok none
    | some size => do
        match ← members (size / 8) with
        | none => .ok none
        | some entries =>
            filled (int32 (objectLength fmt (depth + 1) entries)) (objectText fmt depth entries)

/-- The name that the loop of `print_object` prints in front of a value. An element has none. -/
def printName (parent : ItemType) (string : Option CString) : Checked (Option Bytes) :=
  if parent = .object then (printStringPtr string).alone else .ok (some [])

/-- `print_value` without a buffer, from the loop over the items below the item. -/
def printFields (fmt : Bool) (depth : Nat) (fields : Fields F) (child : Item F)
    (items : Nat → Checked (Option (List (Bytes × Bytes))))
    : Checked (Option Bytes) :=
  match fields.type with
  | .unset => .ok none
  | .null => cJSONStrdup (word "null")
  | .false => cJSONStrdup (word "false")
  | .true => cJSONStrdup (word "true")
  | .number => (printNumber fields).alone
  | .string => (printStringPtr fields.valuestring).alone
  | .array => printArray fmt (numentries child) items
  | .object => printObject fmt depth (numentries child) items

/-- The loops over the elements of an array or the members of an object: their names and texts,
unless one of them cannot be printed, with the number of the pointers that are left to be set.
-/
def printChain (fmt : Bool)
    : ItemType → Nat → Nat → Item F → Checked (Option (List (Bytes × Bytes)))
  | _, _, _, .null => .ok (some [])
  | _, _, 0, .node _ _ _ => .error .outOfBounds
  | parent, depth, slots + 1, .node fields child next => do
      let name ← printName parent fields.string
      let text ← printFields fmt depth fields child fun slots =>
        printChain fmt fields.type (depth + 1) slots child
      match name, text with
      | some name, some text => do
          let rest ← printChain fmt parent depth slots next
          .ok (rest.map fun rest => (name, text) :: rest)
      | _, _ => .ok none

/-- `print_value` without a buffer: a text, or a null pointer. -/
def printValue (fmt : Bool) (depth : Nat) : Item F → Checked (Option Bytes)
  | .null => .ok none
  | .node fields child _ =>
      printFields fmt depth fields child fun slots =>
        printChain fmt fields.type (depth + 1) slots child

/-- `cJSON_Print` -/
def cJSONPrint (item : Item F) : Checked (Option Bytes) := printValue true 0 item

/-- `cJSON_PrintUnformatted` -/
def cJSONPrintUnformatted (item : Item F) : Checked (Option Bytes) := printValue false 0 item

end Printing

end Cvos.LibJson

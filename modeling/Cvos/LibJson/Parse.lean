import Cvos.LibJson.ParseString

/-! The parser of cJSON at its values. The functions for arrays and objects are given the one for
values, which calls itself through them; a loop and a call take one turn of the fuel each.
-/

namespace Cvos.LibJson

open Cvos.Lib

section Numbers

variable {F : Type} [CDouble F]

/-- A loop that reads digits, each of which changes a value. -/
def parseDigits {α : Type} (step : α → UInt8 → α) : α → Bytes → Reading (α × Bytes)
  | _, [] => outside
  | value, c :: num =>
      if isDigit c then parseDigits step (step value c) num else .ok (value, c :: num)

/-- A digit of the integer. -/
def integerStep (n : F) (c : UInt8) : F :=
  CDouble.add (CDouble.mul n (CDouble.ofInt 10)) (CDouble.ofInt (c.toNat - 48))

/-- A digit of the fraction, which also changes the scale. -/
def fractionStep (value : F × F) (c : UInt8) : F × F :=
  (integerStep value.1 c, CDouble.sub value.2 (CDouble.ofInt 1))

/-- A digit of the exponent. -/
def exponentStep (subscale : Int) (c : UInt8) : Int := int32 (subscale * 10 + (c.toNat - 48))

/-- The sign of a number. -/
def parseSign : Bytes → Reading (F × Bytes)
  | [] => outside
  | c :: num =>
      if c = '-'.toUInt8 then .ok (CDouble.ofInt (-1), num) else .ok (CDouble.ofInt 1, c :: num)

/-- A zero in front of a number, which is skipped. -/
def parseZero : Bytes → Reading Bytes
  | [] => outside
  | c :: num => if c = digitByte 0 then .ok num else .ok (c :: num)

/-- The digits of an integer, unless the first one is zero. -/
def parseInteger : Bytes → Reading (F × Bytes)
  | [] => outside
  | c :: num =>
      if digitByte 1 ≤ c ∧ c ≤ digitByte 9 then
        parseDigits integerStep (CDouble.ofInt 0) (c :: num)
      else
        .ok (CDouble.ofInt 0, c :: num)

/-- The fraction of a number, which has a digit behind the point. -/
def parseFraction (n : F) : Bytes → Reading ((F × F) × Bytes)
  | [] => outside
  | c :: num =>
      if c = '.'.toUInt8 then do
        let digit ← peek num
        if isDigit digit then
          parseDigits fractionStep (n, CDouble.ofInt 0) num
        else
          .ok ((n, CDouble.ofInt 0), c :: num)
      else
        .ok ((n, CDouble.ofInt 0), c :: num)

/-- The sign of an exponent. -/
def parseExponentSign : Bytes → Reading (Int × Bytes)
  | [] => outside
  | c :: num =>
      if c = '+'.toUInt8 then .ok (1, num)
      else if c = '-'.toUInt8 then .ok (-1, num)
      else .ok (1, c :: num)

/-- The exponent of a number, with its sign. It may have no digits. -/
def parseExponent : Bytes → Reading ((Int × Int) × Bytes)
  | [] => outside
  | c :: num =>
      if c = 'e'.toUInt8 ∨ c = 'E'.toUInt8 then do
        let (signsubscale, num) ← parseExponentSign num
        let (subscale, num) ← parseDigits exponentStep 0 num
        .ok ((subscale, signsubscale), num)
      else
        .ok ((0, 1), c :: num)

/-- The value `sign * n * pow (10.0, (scale + subscale * signsubscale))`. -/
def scaled (sign n scale : F) (subscale signsubscale : Int) : F :=
  CDouble.mul (CDouble.mul sign n)
    (CDouble.pow (CDouble.ofInt 10)
      (CDouble.add scale (CDouble.ofInt (int32 (subscale * signsubscale)))))

/-- The fields of an item that was given a number. -/
def withNumber (item : Fields F) (n : F) : Fields F :=
  { item with type := .number, valuedouble := n, valueint := CDouble.toInt n }

/-- `parse_number` -/
def parseNumber (item : Fields F) (num : Bytes) : Reading (Fields F × Bytes) := do
  let (sign, num) ← parseSign num
  let num ← parseZero num
  let (n, num) ← parseInteger num
  let ((n, scale), num) ← parseFraction n num
  let ((subscale, signsubscale), num) ← parseExponent num
  .ok (withNumber item (scaled sign n scale subscale signsubscale), num)

end Numbers

/-- The value of `!strncmp (value, keyword, n)` for the `n` characters of a keyword. -/
def startsWith : Bytes → Bytes → Reading Bool
  | [], _ => .ok true
  | _ :: _, [] => outside
  | d :: keyword, c :: value => if c = d then startsWith keyword value else .ok false

section Values

variable [Supply] {F : Type} [CDouble F]

/-- `cJSON_New_Item`, whose memory of `sizeof(cJSON)` bytes may be refused. -/
def cJSONNewItem : Reading (Fields F) := do
  let _ ← request 64
  .ok newItem

/-- What a parser of one value does with the fields of an item: it sets them, and delivers the
items below it and the text behind the value.
-/
abbrev ValueParser (F : Type) := Fields F → Bytes → Reading ((Fields F × Item F) × Bytes)

/-- A value for an item, with the blanks around it: `skip (parse_value (child, skip (value)))`. -/
def parseElement (parseValue : ValueParser F) (child : Fields F) (value : Bytes)
    : Reading ((Fields F × Item F) × Bytes) := do
  let value ← skip value
  let (child, value) ← parseValue child value
  let value ← skip value
  .ok (child, value)

/-- An element of an array, in an item of its own. -/
def parseNewElement (parseValue : ValueParser F) (value : Bytes)
    : Reading ((Fields F × Item F) × Bytes) := do
  let child ← cJSONNewItem
  parseElement parseValue child value

/-- A member of an object, with the blanks around its name and its value. The name is moved from
the string of the item to its name.
-/
def parseMember (parseValue : ValueParser F) (value : Bytes)
    : Reading ((Fields F × Item F) × Bytes) := do
  let child ← cJSONNewItem
  let value ← skip value
  let (child, value) ← parseString child value
  let value ← skip value
  let child := { child with string := child.valuestring, valuestring := none }
  match value with
  | [] => outside
  | c :: rest =>
      if c ≠ ':'.toUInt8 then .error (.malformed value) else parseElement parseValue child rest

/-- The items of an array or an object, up to the bracket that closes it. -/
def parseItems (parseItem : Bytes → Reading ((Fields F × Item F) × Bytes)) (close : UInt8)
    : Nat → Bytes → Reading (Item F × Bytes)
  | 0, _ => .error (.fault .diverges)
  | fuel + 1, value => do
      let (child, value) ← parseItem value
      match value with
      | [] => outside
      | c :: rest =>
          if c = ','.toUInt8 then do
            let (next, value) ← parseItems parseItem close fuel rest
            .ok (.node child.1 child.2 next, value)
          else if c = close then
            .ok (.node child.1 child.2 .null, rest)
          else
            .error (.malformed value)

/-- What `parse_array` and `parse_object` have in common: a bracket, and another one behind blanks
or behind items.
-/
def parseBrackets (parseItem : Bytes → Reading ((Fields F × Item F) × Bytes))
    (opening close : UInt8) (type : ItemType) (fuel : Nat) (item : Fields F) (value : Bytes)
    : Reading ((Fields F × Item F) × Bytes) := do
  let first ← peek value
  if first ≠ opening then
    .error (.malformed value)
  else do
    let item := { item with type := type }
    let value ← skip (value.drop 1)
    let next ← peek value
    if next = close then
      .ok ((item, .null), value.drop 1)
    else do
      let (child, value) ← parseItems parseItem close fuel value
      .ok ((item, child), value)

/-- `parse_array` -/
def parseArray (parseValue : ValueParser F) (fuel : Nat) : ValueParser F :=
  parseBrackets (parseNewElement parseValue) '['.toUInt8 ']'.toUInt8 .array fuel

/-- `parse_object` -/
def parseObject (parseValue : ValueParser F) (fuel : Nat) : ValueParser F :=
  parseBrackets (parseMember parseValue) '\x7b'.toUInt8 '\x7d'.toUInt8 .object fuel

/-- `parse_value`. The text is not a null pointer, for a failure ends the caller. -/
def parseValue : Nat → ValueParser F
  | 0, _, _ => .error (.fault .diverges)
  | fuel + 1, item, value => do
      if ← startsWith (Json.keyword "null") value then
        .ok (({ item with type := .null }, .null), value.drop 4)
      else if ← startsWith (Json.keyword "false") value then
        .ok (({ item with type := .false }, .null), value.drop 5)
      else if ← startsWith (Json.keyword "true") value then
        .ok (({ item with type := .true, valueint := 1 }, .null), value.drop 4)
      else do
        let first ← peek value
        if first = Json.quote then do
          let (item, value) ← parseString item value
          .ok ((item, .null), value)
        else if first = '-'.toUInt8 ∨ isDigit first then do
          let (item, value) ← parseNumber item value
          .ok ((item, .null), value)
        else if first = '['.toUInt8 then
          parseArray (parseValue fuel) (fuel + 1) item value
        else if first = '\x7b'.toUInt8 then
          parseObject (parseValue fuel) (fuel + 1) item value
        else
          .error (.malformed value)

/-- `cJSON_ParseWithOpts`: the item, and the text behind it, which is the one that
`return_parse_end` is given.
-/
def cJSONParseWithOpts (value : Bytes) (requireNullTerminated : Bool)
    : Reading (Item F × Bytes) := do
  let item ← cJSONNewItem
  let start ← skip value
  let ((item, child), finish) ← parseValue (value.length + 1) item start
  if requireNullTerminated then do
    let finish ← skip finish
    let last ← peek finish
    if last ≠ 0 then .error (.malformed finish) else .ok (.node item child .null, finish)
  else
    .ok (.node item child .null, finish)

/-- `cJSON_Parse`, with the item or null pointer that it returns and the value of
`cJSON_GetErrorPtr ()`.
-/
def cJSONParse (value : Bytes) : Checked (Item F × Option Bytes) :=
  match cJSONParseWithOpts value false with
  | .ok (item, _) => .ok (item, none)
  | .error (.malformed ep) => .ok (.null, some ep)
  | .error .memory => .ok (.null, none)
  | .error (.fault fault) => .error fault

end Values

end Cvos.LibJson

import Cvos.Lib.CBuffer
import Cvos.Lib.CToken

/-! The flat JSON messages of `libjson.c`: an object of names and values that are strings. Packing
puts them into a buffer as they are, and parsing cuts the buffer with `strtok`.
-/

namespace Cvos.LibJson

open Cvos.Lib

/-- `MAX_JSON_TOKEN` -/
def maxJsonToken : Nat := 64

/-- The delimiter of the pairs. -/
def comma : UInt8 := ','.toUInt8

/-- The delimiter of a name and its value. -/
def colon : UInt8 := ':'.toUInt8

/-- The double quote. -/
def quote : UInt8 := '"'.toUInt8

-----------------------------------------------------------------------------------------
-- Packing
-----------------------------------------------------------------------------------------

/-- `len += sprintf (MsgBuf + len, ...)` of a text. Beyond an `int`, neither `sprintf` nor the sum
has a defined result.
-/
def sprintf (msgBuf : Bytes) (len : Nat) (text : Bytes) : Checked (Nat × Bytes) :=
  if len + text.length < 2 ^ 31 then do
    let msgBuf ← copyTo msgBuf len (text ++ [0])
    .ok (len + text.length, msgBuf)
  else
    .error .outOfBounds

/-- A name and its value under the format of a pair. -/
def pairText (pair : Bytes × Bytes) : Bytes :=
  quote :: (pair.1 ++ quote :: colon :: quote :: (pair.2 ++ [quote]))

/-- What stands behind the last pair. -/
def closing : Bytes := ['}'.toUInt8, '\n'.toUInt8, '\r'.toUInt8]

/-- The loop of `osPackageJsonStr`. -/
def packPairs : List (Bytes × Bytes) → Nat → Bytes → Checked (Nat × Bytes)
  | [], len, msgBuf => .ok (len, msgBuf)
  | pair :: pairs, len, msgBuf => do
      let (len, msgBuf) ← sprintf msgBuf len (pairText pair)
      if pairs.isEmpty then
        .ok (len, msgBuf)
      else do
        let (len, msgBuf) ← sprintf msgBuf len [comma]
        packPairs pairs len msgBuf

/-- `osPackageJsonStr` of as many names and values as `TokenNum`: its result, and the buffer. -/
def osPackageJsonStr (pairs : Option (List (Bytes × Bytes))) (msgBuf : Option Bytes)
    : Checked (Int × Option Bytes) :=
  match pairs, msgBuf with
  | some pairs, some msgBuf =>
      if pairs.isEmpty then
        .ok (-1, some msgBuf)
      else do
        let (len, msgBuf) ← sprintf msgBuf 0 ['{'.toUInt8]
        let (len, msgBuf) ← packPairs pairs len msgBuf
        let (len, msgBuf) ← sprintf msgBuf len closing
        .ok (len, some msgBuf)
  | _, _ => .ok (-1, msgBuf)

-----------------------------------------------------------------------------------------
-- Parsing
-----------------------------------------------------------------------------------------

/-- The loop of `osJsonParseMsg` that cuts further tokens, at most the given number. -/
def cutTokens : Nat → Tokenizer → Checked (List Nat × Tokenizer)
  | 0, t => .ok ([], t)
  | count + 1, t => do
      match ← t.next [comma] with
      | (none, t) => .ok ([], t)
      | (some token, t) => do
          let (tokens, t) ← cutTokens count t
          .ok (token :: tokens, t)

/-- The loop of `osJsonParseMsg` over the tokens: the pointers to the names and values, of which
`strtok` may make null pointers.
-/
def splitTokens : List Nat → Tokenizer → Checked (List (Option Nat × Option Nat) × Tokenizer)
  | [], t => .ok ([], t)
  | token :: tokens, t => do
      let (temp1, t) ← t.strtok token [colon]
      -- The delimiter is the empty string, so the token is the rest.
      let (temp2, t) ← t.next []
      match temp1, temp2 with
      | some temp1, some temp2 => do
          let temp1 ← scanWhile t.mem (· != quote) temp1
          let (name, t) ← t.strtok temp1 [quote]
          let temp2 ← scanWhile t.mem (· != quote) temp2
          let (value, t) ← t.strtok temp2 [quote]
          let (pairs, t) ← splitTokens tokens t
          .ok ((name, value) :: pairs, t)
      | _, _ => .ok ([], t)

/-- What `osJsonParseMsg` leaves: its result, the pointers in `pName` and `pValue`, and the buffer
that they point into.
-/
structure Parsed where
  ret : Int
  pointers : List (Option Nat × Option Nat)
  msgBuf : Bytes
  deriving DecidableEq, Repr

/-- `osJsonParseMsg`. The first two arguments say whether there is room for the names and values.
-/
def osJsonParseMsg (pName pValue : Bool) (msgBuf : Option Bytes) : Checked Parsed :=
  match msgBuf with
  | none => .ok ⟨-1, [], []⟩
  | some msgBuf =>
      if !pName || !pValue then
        .ok ⟨-1, [], msgBuf⟩
      else do
        let (first, t) ← Tokenizer.strtok ⟨msgBuf, 0⟩ 0 [comma]
        let (tokens, t) ← cutTokens (maxJsonToken - 1) t
        let tokens :=
          match first with
          | none => []
          | some first => first :: tokens
        let (pointers, t) ← splitTokens tokens t
        .ok ⟨pointers.length, pointers, t.mem⟩

/-- The name and the value behind two pointers. -/
def readPair (mem : Bytes) (pointers : Option Nat × Option Nat) : Option Bytes × Option Bytes :=
  (pointers.1.map (cstring mem), pointers.2.map (cstring mem))

/-- The names and values that are delivered. -/
def Parsed.pairs (p : Parsed) : List (Option Bytes × Option Bytes) :=
  p.pointers.map (readPair p.msgBuf)

-----------------------------------------------------------------------------------------
-- The text of a message
-----------------------------------------------------------------------------------------

/-- The pairs with a comma behind all but the last, and the closing behind that. -/
def pairsText : List (Bytes × Bytes) → Bytes
  | [] => closing
  | [pair] => pairText pair ++ closing
  | pair :: pairs => pairText pair ++ comma :: pairsText pairs

/-- The message of some pairs. -/
def flatText (pairs : List (Bytes × Bytes)) : Bytes := '{'.toUInt8 :: pairsText pairs

/-- A string that is not empty, without NUL and without double quotes. -/
structure Plain (s : Bytes) : Prop where
  filled : s ≠ []
  nulFree : ∀ c ∈ s, c ≠ 0
  unquoted : ∀ c ∈ s, c ≠ quote

instance (s : Bytes) : Decidable (Plain s) :=
  decidable_of_iff (s ≠ [] ∧ (∀ c ∈ s, c ≠ 0) ∧ ∀ c ∈ s, c ≠ quote)
    ⟨fun ⟨filled, nulFree, unquoted⟩ => ⟨filled, nulFree, unquoted⟩,
      fun plain => ⟨plain.filled, plain.nulFree, plain.unquoted⟩⟩

/-- A name without comma and colon, and a value without comma. -/
structure Undelimited (pair : Bytes × Bytes) : Prop where
  name : ∀ c ∈ pair.1, c ≠ comma ∧ c ≠ colon
  value : ∀ c ∈ pair.2, c ≠ comma

instance (pair : Bytes × Bytes) : Decidable (Undelimited pair) :=
  decidable_of_iff ((∀ c ∈ pair.1, c ≠ comma ∧ c ≠ colon) ∧ ∀ c ∈ pair.2, c ≠ comma)
    ⟨fun ⟨name, value⟩ => ⟨name, value⟩, fun clean => ⟨clean.name, clean.value⟩⟩

/-- What is packed into a buffer that is large enough is parsed as the same names and values. -/
def RoundTrips (pairs : List (Bytes × Bytes)) : Prop :=
  ∀ msgBuf : Bytes,
    (flatText pairs).length < msgBuf.length
    → ∃ len packed parsed,
        osPackageJsonStr (some pairs) (some msgBuf) = .ok (len, packed)
        ∧ osJsonParseMsg true true packed = .ok parsed
        ∧ parsed.ret = pairs.length
        ∧ parsed.pairs = pairs.map fun pair => (some pair.1, some pair.2)

/-- Printing a text puts it with a NUL behind what is there. -/
theorem sprintf_eq (written spare text : Bytes) (room : text.length < spare.length)
    (fits : written.length + text.length < 2 ^ 31)
    : ∃ spare',
        sprintf (written ++ spare) written.length text
          = .ok ((written ++ text).length, (written ++ text) ++ 0 :: spare')
        ∧ (0 :: spare').length + text.length = spare.length := by
  obtain ⟨old, rest, rfl, length⟩ : ∃ old rest : Bytes,
      spare = old ++ rest ∧ (text ++ [0]).length = old.length :=
    ⟨spare.take (text.length + 1), spare.drop (text.length + 1), by simp, by simp; omega⟩
  refine ⟨rest, ?_, ?_⟩
  · rw [sprintf, if_pos fits, copyTo_append written old rest length]
    simp
  · simp only [List.length_append, List.length_cons, List.length_nil] at length ⊢
    omega

/-- Printing a text counts it. -/
theorem sprintf_length {msgBuf msgBuf' text : Bytes} {len len' : Nat}
    (printed : sprintf msgBuf len text = .ok (len', msgBuf'))
    : len' = len + text.length ∧ len' < 2 ^ 31 := by
  rw [sprintf] at printed
  split at printed
  next fits =>
    obtain ⟨_, -, printed⟩ := Checked.bind_eq_ok.mp printed
    obtain ⟨rfl, -⟩ := Prod.mk.inj (Except.ok.inj printed)
    exact ⟨rfl, fits⟩
  next => contradiction

end Cvos.LibJson

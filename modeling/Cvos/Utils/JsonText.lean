import Cvos.Lib.CBuffer

/-! The two helpers of `utils.c` that put names and values into a JSON text and take them out again,
over the parser and the printer of cJSON. The type test of the second one compares a truth value
with a type.
-/

namespace Cvos.Utils

open Cvos.Lib

/-- A `cJSON *`: an item points to its first member, and to the item behind it. -/
inductive CJson where
  | null
  | item (type : Nat) (string valuestring : Option Bytes) (child next : CJson)
  deriving DecidableEq, Repr

/-- `cJSON_String` -/
def cJSONString : Nat := 1 <<< 4

/-- `cJSON_Object` -/
def cJSONObject : Nat := 1 <<< 6

/-- The value of `a && b`. -/
def logicalAnd (a b : Nat) : Nat := if a ≠ 0 ∧ b ≠ 0 then 1 else 0

/-- `cJSON_CreateString` -/
def cJSONCreateString (string : Bytes) : CJson :=
  .item cJSONString none (some string) .null .null

/-- `cJSON_CreateObject` -/
def cJSONCreateObject : CJson := .item cJSONObject none none .null .null

/-- `suffix_object` behind the last item of a chain. -/
def suffixObject (item : CJson) : CJson → CJson
  | .null => item
  | .item type string valuestring child next =>
      .item type string valuestring child (suffixObject item next)

/-- `cJSON_AddItemToObject` -/
def cJSONAddItemToObject (object : CJson) (string : Bytes) (item : CJson) : CJson :=
  match object, item with
  | .item type name valuestring child next, .item type' _ valuestring' child' next' =>
      .item type name valuestring
        (suffixObject (.item type' (some string) valuestring' child' next') child) next
  | _, _ => object

/-- The object that the loop of `JsonCreateObjects` builds. -/
def createRoot (pairs : List (Bytes × Bytes)) : CJson :=
  pairs.foldl
    (fun root pair => cJSONAddItemToObject root pair.1 (cJSONCreateString pair.2))
    cJSONCreateObject

/-- `JsonCreateObjects` with the printer of cJSON, which returns a text or a null pointer: its
result, and the memory at `MsgBuf`.
-/
def jsonCreateObjects (print : CJson → Option Bytes) (pairs : List (Bytes × Bytes))
    (msgBuf : Bytes)
    : Checked (Nat × Bytes) :=
  match print (createRoot pairs) with
  | none => .ok (0, msgBuf)
  | some out => do
      let ret := if out.length > 1000 then 1000 else out.length
      let bytes ← strncpy (out ++ [0]) ret
      let msgBuf ← copyTo msgBuf 0 bytes
      .ok (ret, msgBuf)

/-- `strdup` -/
def strdup : Option Bytes → Checked Bytes
  | none => .error .nullPointer
  | some s => .ok s

/-- The loop of `JsonParseText`, with the names and values that it delivers. -/
def parseItems : CJson → Checked (List (Bytes × Bytes))
  | .null => .ok []
  | .item type string valuestring _ next =>
      if logicalAnd type 0xFF ≠ cJSONString then
        .ok []
      else do
        let name ← strdup string
        let value ← strdup valuestring
        let items ← parseItems next
        .ok ((name, value) :: items)

/-- `JsonParseText` with the parser of cJSON: its result, and the names and values. -/
def jsonParseText (parse : Bytes → CJson) (msgBuf : Bytes)
    : Checked (Int × List (Bytes × Bytes)) :=
  match parse msgBuf with
  | .null => .ok (-1, [])
  | json => do
      let items ← parseItems json
      .ok (items.length, items)

/-- What is written into a cleared buffer is read back as the same names and values. -/
def RoundTrips (parse : Bytes → CJson) (print : CJson → Option Bytes)
    (pairs : List (Bytes × Bytes))
    : Prop :=
  ∀ size > 1000,
    ∃ ret msgBuf,
      jsonCreateObjects print pairs (List.replicate size 0) = .ok (ret, msgBuf)
      ∧ jsonParseText parse (cstring msgBuf 0) = .ok (pairs.length, pairs)

/-- The type test never passes: a truth value is not the type of a string. -/
theorem parseItems_eq (json : CJson) : parseItems json = .ok [] := by
  cases json with
  | null => rfl
  | item type string valuestring child next =>
      have other : logicalAnd type 0xFF ≠ cJSONString := by
        rw [logicalAnd]
        split <;> decide
      rw [parseItems, if_pos other]

/-- `JsonParseText` delivers nothing, whatever the text and the parser. -/
theorem jsonParseText_eq (parse : Bytes → CJson) (msgBuf : Bytes)
    : jsonParseText parse msgBuf = .ok (if parse msgBuf = .null then -1 else 0, []) := by
  rw [jsonParseText]
  cases parse msgBuf with
  | null => rfl
  | item type string valuestring child next =>
      simp only [parseItems_eq, Checked.ok_bind]
      rfl

/-- No list of names and values comes back, whatever cJSON parses and prints. -/
theorem not_roundTrips (parse : Bytes → CJson) (print : CJson → Option Bytes)
    {pairs : List (Bytes × Bytes)} (filled : pairs ≠ [])
    : ¬RoundTrips parse print pairs := by
  intro roundTrips
  obtain ⟨ret, msgBuf, -, parsed⟩ := roundTrips 1001 (by decide)
  rw [jsonParseText_eq] at parsed
  exact filled (congrArg Prod.snd (Except.ok.inj parsed)).symm

/-- The text that cJSON prints for the name `a` with the value `1`. -/
def printedOne : Bytes :=
  [0x7b, 0x0a, 0x09, 0x22, 0x61, 0x22, 0x3a, 0x09, 0x22, 0x31, 0x22, 0x0a, 0x7d]

/-- A parser that knows this text. -/
def parseOne (msgBuf : Bytes) : CJson :=
  if msgBuf = printedOne then createRoot [([0x61], [0x31])] else .null

/-- Witness: one name with its value. -/
theorem not_roundTrips_one
    : ¬RoundTrips parseOne (fun _ => some printedOne) [([0x61], [0x31])] :=
  not_roundTrips _ _ (by decide)

/-- Names and values do not come back although the parser gives back what was printed. -/
theorem not_roundTrips_inverse
    : ¬ ∀ parse print pairs,
        pairs ≠ []
        → (pairs.map Prod.fst).Nodup
        → (∃ out,
            print (createRoot pairs) = some out
            ∧ out.length ≤ 1000
            ∧ (∀ c ∈ out, c ≠ 0)
            ∧ parse out = createRoot pairs)
        → RoundTrips parse print pairs := by
  intro always
  have roundTrips :=
    always parseOne (fun _ => some printedOne) [([0x61], [0x31])] (by decide) (by decide)
      ⟨printedOne, rfl, by decide, by decide, rfl⟩
  obtain ⟨ret, msgBuf, -, parsed⟩ := roundTrips 1001 (by decide)
  rw [jsonParseText_eq] at parsed
  obtain ⟨-, nothing⟩ := Prod.mk.inj (Except.ok.inj parsed)
  contradiction

end Cvos.Utils

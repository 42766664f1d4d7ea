import Cvos.Lib.CDouble
import Cvos.Lib.Json

/-! The items of cJSON. A `cJSON *` is null, or leads to an item with the items below it and the
items behind it, so what hangs on a pointer is a chain of trees. The links back are left to the
heap of `Chain`.
-/

namespace Cvos.LibJson

open Cvos.Lib

/-- The low byte of `type`, which is zero in a new item. -/
inductive ItemType where
  | unset
  | false
  | true
  | null
  | number
  | string
  | array
  | object
  deriving DecidableEq, Repr

/-- The fields of a `cJSON` other than its links, with the two flags of `type`. -/
structure Fields (F : Type) where
  type : ItemType
  isReference : Bool
  stringIsConst : Bool
  valuestring : Option CString
  valueint : Int
  valuedouble : F
  string : Option CString
  deriving DecidableEq, Repr

/-- A `cJSON *` with all that hangs on it. -/
inductive Item (F : Type) where
  | null
  | node (fields : Fields F) (child next : Item F)
  deriving DecidableEq, Repr

/-- `cJSON_New_Item`, whose memory is cleared. -/
def newItem {F : Type} [CDouble F] : Fields F where
  type := .unset
  isReference := false
  stringIsConst := false
  valuestring := none
  valueint := 0
  valuedouble := CDouble.ofInt 0
  string := none

section Values

variable {F : Type}

/-- A string that may be a null pointer, which counts as an empty one. -/
def orEmpty (s : Option CString) : CString := s.getD CString.empty

/-- A string that is there. -/
@[simp]
theorem orEmpty_some (s : CString) : orEmpty (some s) = s := rfl

/-- The JSON value of an item, from the names and values of the items below it. -/
def Fields.value (fields : Fields F) (children : Option (List (Option CString × Json F)))
    : Option (Json F) :=
  match fields.type with
  | .unset => none
  | .false => some (.bool false)
  | .true => some (.bool true)
  | .null => some .null
  | .number => some (.number fields.valuedouble)
  | .string => some (.string (orEmpty fields.valuestring))
  | .array => children.map fun children => .array (children.map Prod.snd)
  | .object =>
      children.map fun children => .object (children.map fun child => (orEmpty child.1, child.2))

/-- The names and values of the items of a chain, if all have a value. -/
def Item.values : Item F → Option (List (Option CString × Json F))
  | .null => some []
  | .node fields child next => do
      let value ← fields.value child.values
      let rest ← next.values
      some ((fields.string, value) :: rest)

/-- The JSON value of the item at a pointer. -/
def Item.value : Item F → Option (Json F)
  | .null => none
  | .node fields child _ => fields.value child.values

/-- The items of a chain, each with the items below it. -/
def Item.chain : Item F → List (Fields F × Item F)
  | .null => []
  | .node fields child next => (fields, child) :: next.chain

end Values

end Cvos.LibJson

import Cvos.Lib.CBuffer
import Cvos.Lib.ForestHeap
import Cvos.LibJson.Item

/-! The items of cJSON as they stand in memory, with their links to one another and the texts they
lead to, and the functions that create, list, search, replace, copy and delete them.
-/

namespace Cvos.LibJson

open Cvos.Lib

/-- The fields of a `cJSON` other than its links, with the two flags of `type`. -/
structure Record (F : Type) where
  type : ItemType
  isReference : Bool
  stringIsConst : Bool
  valuestring : Option Nat
  valueint : Int
  valuedouble : F
  string : Option Nat
  deriving DecidableEq, Repr

/-- A `cJSON` in memory. -/
abbrev Cell (F : Type) := Node (Record F)

/-- A text in memory. One of the caller's was not allocated by `malloc`. -/
structure TextBlock where
  text : CString
  callers : Bool
  deriving DecidableEq, Repr

/-- The items and texts that stand in memory. -/
structure Memory (F : Type) where
  items : Heap (Cell F)
  texts : Heap TextBlock

/-- Of a chain of items, one and its place, which is counted in an `int`. -/
structure Reached where
  item : Option Nat
  index : Int

/-- A result in a memory. -/
structure Made (F α : Type) where
  result : α
  memory : Memory F

section Lists

variable {F : Type}

/-- `while (c && goesOn (c)) i++,c=c->next;` -/
def seek (items : Heap (Cell F)) (goesOn : Cell F → Checked Bool)
    : Nat → Option Nat → Nat → Checked Reached
  | _, none, i => .ok ⟨none, int32 i⟩
  | 0, some _, _ => .error .diverges
  | fuel + 1, some c, i => do
      let item ← items.read (some c)
      let on ← goesOn item
      if on then seek items goesOn fuel item.next (i + 1) else .ok ⟨some c, int32 i⟩

/-- The turns that are enough for every chain of items that does not come back. -/
def enoughTurns {α : Type} (heap : Heap α) : Nat := heap.keys.card

/-- `while (c && which>0) c=c->next,which--;` with what is left of `which`. -/
def advance (items : Heap (Cell F)) : Nat → Option Nat → Checked (Option Nat)
  | 0, c => .ok c
  | _ + 1, none => .ok none
  | which + 1, some c => do
      let item ← items.read (some c)
      advance items which item.next

/-- `suffix_object` -/
def suffixObject (items : Heap (Cell F)) (prev item : Option Nat)
    : Checked (Heap (Cell F)) := do
  let items ← items.change prev fun cell => { cell with next := item }
  items.change item fun cell => { cell with prev }

/-- An item is listed behind the last one. -/
def suffixLast (items : Heap (Cell F)) (first item : Option Nat) : Checked (Heap (Cell F)) := do
  let last ← seek items (fun cell => .ok cell.next.isSome) (enoughTurns items) first 0
  suffixObject items last.item item

/-- `cJSON_AddItemToArray` -/
def cJSONAddItemToArray (items : Heap (Cell F)) (array item : Option Nat)
    : Checked (Heap (Cell F)) := do
  let cell ← items.read array
  if item.isNone then
    .ok items
  else if cell.child.isNone then
    items.change array fun cell => { cell with child := item }
  else
    suffixLast items cell.child item

/-- `if (c==array->child) array->child=item;` -/
def changeFirst (items : Heap (Cell F)) (array c item : Option Nat)
    : Checked (Heap (Cell F)) := do
  let cell ← items.read array
  if cell.child = c then items.change array fun cell => { cell with child := item } else .ok items

/-- `if (c==array->child) array->child=newitem; else newitem->prev->next=newitem;` -/
def changeFirstOrNext (items : Heap (Cell F)) (array c newitem : Option Nat)
    : Checked (Heap (Cell F)) := do
  let cell ← items.read array
  if cell.child = c then
    items.change array fun cell => { cell with child := newitem }
  else do
    let new ← items.read newitem
    items.change new.prev fun cell => { cell with next := newitem }

/-- The writes of `cJSON_DetachItemFromArray` to the links. -/
def unlink (items : Heap (Cell F)) (array c : Option Nat) : Checked (Heap (Cell F)) := do
  let item ← items.read c
  let items ← items.changeIf item.prev fun cell => { cell with next := item.next }
  let item ← items.read c
  let items ← items.changeIf item.next fun cell => { cell with prev := item.prev }
  let item ← items.read c
  let items ← changeFirst items array c item.next
  items.change c fun cell => { cell with next := none, prev := none }

/-- `cJSON_DetachItemFromArray`, which returns the item. -/
def cJSONDetachItemFromArray (items : Heap (Cell F)) (array : Option Nat) (which : Int)
    : Checked (Option Nat × Heap (Cell F)) := do
  let cell ← items.read array
  let c ← advance items which.toNat cell.child
  if c.isNone then
    .ok (none, items)
  else do
    let items ← unlink items array c
    .ok (c, items)

/-- The writes of `cJSON_InsertItemInArray` to the links, where it finds the item `c`. -/
def linkBefore (items : Heap (Cell F)) (array c newitem : Option Nat)
    : Checked (Heap (Cell F)) := do
  let items ← items.change newitem fun cell => { cell with next := c }
  let item ← items.read c
  let items ← items.change newitem fun cell => { cell with prev := item.prev }
  let items ← items.change c fun cell => { cell with prev := newitem }
  changeFirstOrNext items array c newitem

/-- `cJSON_InsertItemInArray` -/
def cJSONInsertItemInArray (items : Heap (Cell F)) (array : Option Nat) (which : Int)
    (newitem : Option Nat)
    : Checked (Heap (Cell F)) := do
  let cell ← items.read array
  let c ← advance items which.toNat cell.child
  if c.isNone then cJSONAddItemToArray items array newitem else linkBefore items array c newitem

/-- The writes of `cJSON_ReplaceItemInArray` to the links. -/
def relink (items : Heap (Cell F)) (array c newitem : Option Nat)
    : Checked (Heap (Cell F)) := do
  let item ← items.read c
  let items ← items.change newitem fun cell => { cell with next := item.next }
  let item ← items.read c
  let items ← items.change newitem fun cell => { cell with prev := item.prev }
  let new ← items.read newitem
  let items ← items.changeIf new.next fun cell => { cell with prev := newitem }
  let items ← changeFirstOrNext items array c newitem
  items.change c fun cell => { cell with next := none, prev := none }

end Lists

section Texts

variable {F : Type}

/-- The text at a pointer. -/
def Memory.textAt (m : Memory F) (p : Option Nat) : Checked (Option CString) :=
  if p.isSome then (m.texts.read p).map fun block => some block.text else .ok none

/-- `cJSON_free` of a text. One of the caller's is none that `malloc` returned. -/
def Memory.freeText (m : Memory F) (p : Option Nat) : Checked (Memory F) := do
  let block ← m.texts.read p
  if block.callers then
    .error .outOfBounds
  else
    (m.texts.free p).map fun texts => { m with texts }

/-- `if (free) cJSON_free(p);` -/
def Memory.freeIf (m : Memory F) (free : Bool) (p : Option Nat) : Checked (Memory F) :=
  if free && p.isSome then m.freeText p else .ok m

/-- `tolower` -/
def tolower (c : UInt8) : UInt8 := if 65 ≤ c ∧ c ≤ 90 then c + 32 else c

/-- The loop of `cJSON_strcasecmp`, on texts without their terminators. -/
def strcasecmp : Bytes → Bytes → Int
  | [], [] => 0
  | [], d :: _ => -(tolower d).toNat
  | c :: _, [] => (tolower c).toNat
  | c :: s, d :: t =>
      if tolower c = tolower d then strcasecmp s t else (tolower c).toNat - (tolower d).toNat

/-- `cJSON_strcasecmp` -/
def cJSONStrcasecmp : Option CString → Option CString → Int
  | none, none => 0
  | none, some _ => 1
  | some _, none => 1
  | some s, some t => strcasecmp s.val t.val

/-- `cJSON_strcasecmp(c->string,string)` -/
def Memory.nameDiffers (m : Memory F) (string : Option CString) (cell : Cell F) : Checked Bool :=
  (m.textAt cell.data.string).map fun name => cJSONStrcasecmp name string ≠ 0

/-- `while (c && cJSON_strcasecmp(c->string,string)) i++,c=c->next;` -/
def Memory.seekName (m : Memory F) (object : Option Nat) (string : Option CString)
    : Checked Reached := do
  let cell ← m.items.read object
  seek m.items (m.nameDiffers string) (enoughTurns m.items) cell.child 0

/-- `cJSON_GetObjectItem` -/
def cJSONGetObjectItem (m : Memory F) (object : Option Nat) (string : Option CString)
    : Checked (Option Nat) :=
  if object.isSome then (m.seekName object string).map Reached.item else .ok none

/-- `cJSON_HasObjectItem` -/
def cJSONHasObjectItem (m : Memory F) (object : Option Nat) (string : Option CString)
    : Checked Bool :=
  (cJSONGetObjectItem m object string).map Option.isSome

/-- `cJSON_DetachItemFromObject`, which returns the item. -/
def cJSONDetachItemFromObject (m : Memory F) (object : Option Nat) (string : Option CString)
    : Checked (Option Nat × Heap (Cell F)) := do
  let place ← m.seekName object string
  if place.item.isSome then
    cJSONDetachItemFromArray m.items object place.index
  else
    .ok (none, m.items)

end Texts

section Deletion

variable {F : Type}

/-- The end of a turn of `cJSON_Delete`, behind the items below: texts and item are freed. -/
def Memory.freeItem (m : Memory F) (c : Option Nat) : Checked (Memory F) := do
  let item ← m.items.read c
  let m ← m.freeIf (!item.data.isReference) item.data.valuestring
  let m ← m.freeIf (!item.data.stringIsConst) item.data.string
  (m.items.free c).map fun items => { m with items }

/-- The turns of `cJSON_Delete`. -/
def deleteLoop : Nat → Option Nat → Memory F → Checked (Memory F)
  | _, none, m => .ok m
  | 0, some _, _ => .error .diverges
  | fuel + 1, some c, m => do
      let item ← m.items.read (some c)
      let m ← (if item.data.isReference then .ok m else deleteLoop fuel item.child m)
      let m ← m.freeItem (some c)
      deleteLoop fuel item.next m

/-- `cJSON_Delete` -/
def cJSONDelete (m : Memory F) (c : Option Nat) : Checked (Memory F) :=
  deleteLoop (enoughTurns m.items) c m

/-- `cJSON_DeleteItemFromArray` -/
def cJSONDeleteItemFromArray (m : Memory F) (array : Option Nat) (which : Int)
    : Checked (Memory F) := do
  let detached ← cJSONDetachItemFromArray m.items array which
  cJSONDelete { m with items := detached.2 } detached.1

/-- `cJSON_DeleteItemFromObject` -/
def cJSONDeleteItemFromObject (m : Memory F) (object : Option Nat) (string : Option CString)
    : Checked (Memory F) := do
  let detached ← cJSONDetachItemFromObject m object string
  cJSONDelete { m with items := detached.2 } detached.1

/-- `cJSON_ReplaceItemInArray` -/
def cJSONReplaceItemInArray (m : Memory F) (array : Option Nat) (which : Int)
    (newitem : Option Nat)
    : Checked (Memory F) := do
  let cell ← m.items.read array
  let c ← advance m.items which.toNat cell.child
  if c.isNone then
    .ok m
  else do
    let items ← relink m.items array c newitem
    cJSONDelete { m with items } c

end Deletion

section Allocation

variable {F : Type} [CDouble F] (malloc : Allocator)

/-- The fields of a new item, whose memory is cleared. -/
def newRecord : Record F where
  type := .unset
  isReference := false
  stringIsConst := false
  valuestring := none
  valueint := 0
  valuedouble := CDouble.ofInt 0
  string := none

/-- A new item with some fields set. -/
def Memory.place (m : Memory F) (record : Record F) : Made F (Option Nat) :=
  let a := malloc.place m.items.keys
  ⟨some a, { m with items := m.items.insert a ⟨none, none, none, record⟩ }⟩

/-- `cJSON_strdup` -/
def Memory.strdup (m : Memory F) (str : CString) : Made F (Option Nat) :=
  let a := malloc.place m.texts.keys
  ⟨some a, { m with texts := m.texts.insert a ⟨str, false⟩ }⟩

/-- The caller keeps a text of its own. -/
def Memory.keepText (m : Memory F) (text : CString) : Made F (Option Nat) :=
  let a := malloc.place m.texts.keys
  ⟨some a, { m with texts := m.texts.insert a ⟨text, true⟩ }⟩

/-- `cJSON_CreateNull` -/
def Memory.cJSONCreateNull (m : Memory F) : Made F (Option Nat) :=
  m.place malloc { newRecord with type := .null }

/-- `cJSON_CreateTrue` -/
def Memory.cJSONCreateTrue (m : Memory F) : Made F (Option Nat) :=
  m.place malloc { newRecord with type := .true }

/-- `cJSON_CreateFalse` -/
def Memory.cJSONCreateFalse (m : Memory F) : Made F (Option Nat) :=
  m.place malloc { newRecord with type := .false }

/-- `cJSON_CreateBool` -/
def Memory.cJSONCreateBool (m : Memory F) (b : Int) : Made F (Option Nat) :=
  m.place malloc { newRecord with type := if b ≠ 0 then .true else .false }

/-- `cJSON_CreateNumber` -/
def Memory.cJSONCreateNumber (m : Memory F) (num : F) : Made F (Option Nat) :=
  m.place malloc
    { (newRecord : Record F) with
      type := .number, valuedouble := num, valueint := CDouble.toInt num }

/-- `cJSON_CreateString` -/
def Memory.cJSONCreateString (m : Memory F) (string : CString) : Made F (Option Nat) :=
  let copy := m.strdup malloc string
  copy.memory.place malloc { newRecord with type := .string, valuestring := copy.result }

/-- `cJSON_CreateArray` -/
def Memory.cJSONCreateArray (m : Memory F) : Made F (Option Nat) :=
  m.place malloc { newRecord with type := .array }

/-- `cJSON_CreateObject` -/
def Memory.cJSONCreateObject (m : Memory F) : Made F (Option Nat) :=
  m.place malloc { newRecord with type := .object }

/-- The loops of the functions that create an array of the items for some values, from the last one
on.
-/
def createItems {α : Type} (create : Memory F → α → Made F (Option Nat)) (a : Option Nat)
    : List α → Option Nat → Memory F → Checked (Memory F)
  | [], _, m => .ok m
  | value :: values, p, m => do
      let n := create m value
      let items ←
        (if p.isNone then n.memory.items.change a fun cell => { cell with child := n.result }
        else suffixObject n.memory.items p n.result)
      createItems create a values n.result { n.memory with items }

/-- A new array of the items for some values. -/
def Memory.createArrayOf (m : Memory F) {α : Type} (create : Memory F → α → Made F (Option Nat))
    (values : List α)
    : Checked (Made F (Option Nat)) :=
  let a := m.cJSONCreateArray malloc
  (createItems create a.result values none a.memory).map fun m => ⟨a.result, m⟩

/-- `cJSON_CreateIntArray` -/
def Memory.cJSONCreateIntArray (m : Memory F) (numbers : List Int)
    : Checked (Made F (Option Nat)) :=
  m.createArrayOf malloc (fun m number => m.cJSONCreateNumber malloc (CDouble.ofInt number)) numbers

/-- `cJSON_CreateDoubleArray` -/
def Memory.cJSONCreateDoubleArray (m : Memory F) (numbers : List F)
    : Checked (Made F (Option Nat)) :=
  m.createArrayOf malloc (fun m number => m.cJSONCreateNumber malloc number) numbers

/-- `cJSON_CreateStringArray` -/
def Memory.cJSONCreateStringArray (m : Memory F) (strings : List CString)
    : Checked (Made F (Option Nat)) :=
  m.createArrayOf malloc (fun m string => m.cJSONCreateString malloc string) strings

/-- The record that `create_reference` leaves in the new item. -/
def Record.reference (record : Record F) : Record F :=
  { record with string := none, isReference := true }

/-- `create_reference` -/
def Memory.createReference (m : Memory F) (item : Option Nat) : Checked (Made F (Option Nat)) := do
  let ref := m.place malloc newRecord
  let cell ← ref.memory.items.read item
  let items ← ref.memory.items.change ref.result fun _ =>
    { next := none, prev := none, child := cell.child, data := cell.data.reference }
  .ok ⟨ref.result, { ref.memory with items }⟩

/-- `item->string=cJSON_strdup(string);` -/
def Memory.rename (m : Memory F) (item : Option Nat) (string : CString) : Checked (Memory F) :=
  let copy := m.strdup malloc string
  (copy.memory.items.change item fun cell =>
      { cell with data := { cell.data with string := copy.result } }).map
    fun items => { copy.memory with items }

/-- `cJSON_AddItemToObject`, which reads the name after it has freed the one of the item. -/
def cJSONAddItemToObject (m : Memory F) (object string item : Option Nat)
    : Checked (Memory F) :=
  if item.isNone then
    .ok m
  else do
    let cell ← m.items.read item
    let m ← m.freeIf true cell.data.string
    let name ← m.texts.read string
    let m ← m.rename malloc item name.text
    (cJSONAddItemToArray m.items object item).map fun items => { m with items }

/-- `cJSON_AddItemToObjectCS` -/
def cJSONAddItemToObjectCS (m : Memory F) (object string item : Option Nat)
    : Checked (Memory F) :=
  if item.isNone then
    .ok m
  else do
    let cell ← m.items.read item
    let m ← m.freeIf (!cell.data.stringIsConst) cell.data.string
    let items ← m.items.change item fun cell =>
      { cell with data := { cell.data with string, stringIsConst := true } }
    (cJSONAddItemToArray items object item).map fun items => { m with items }

/-- `cJSON_AddItemReferenceToArray` -/
def cJSONAddItemReferenceToArray (m : Memory F) (array item : Option Nat)
    : Checked (Memory F) := do
  let ref ← m.createReference malloc item
  (cJSONAddItemToArray ref.memory.items array ref.result).map fun items =>
    { ref.memory with items }

/-- `cJSON_AddItemReferenceToObject` -/
def cJSONAddItemReferenceToObject (m : Memory F) (object string item : Option Nat)
    : Checked (Memory F) := do
  let ref ← m.createReference malloc item
  cJSONAddItemToObject malloc ref.memory object string ref.result

/-- `cJSON_ReplaceItemInObject` -/
def cJSONReplaceItemInObject (m : Memory F) (object : Option Nat) (string : CString)
    (newitem : Option Nat)
    : Checked (Memory F) := do
  let place ← m.seekName object (some string)
  if place.item.isSome then do
    let m ← m.rename malloc newitem string
    cJSONReplaceItemInArray m object place.index newitem
  else
    .ok m

end Allocation

end Cvos.LibJson

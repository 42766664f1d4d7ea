import Cvos.Lib.CBuffer
import Cvos.LibJson.Print

/-! The printer of cJSON with a buffer, which grows to a power of two whenever it is too small. What
new memory holds is arbitrary. Once memory is refused there is no buffer any more, and nothing is
written.
-/

namespace Cvos.LibJson

open Cvos.Lib Json

/-- A `printbuffer`, whose `length` is the length of its memory. The offset stays within it. -/
structure PrintBuffer where
  mem : Option Bytes
  offset : Nat

/-- A line of `pow2gt`, where the shift keeps the sign. -/
def orShifted (shift : Nat) (x : BitVec 32) : BitVec 32 := x ||| x.sshiftRight shift

/-- `pow2gt` -/
def pow2gt (x : Int) : Int :=
  let x := BitVec.ofInt 32 (x - 1)
  let x := orShifted 1 x
  let x := orShifted 2 x
  let x := orShifted 4 x
  let x := orShifted 8 x
  let x := orShifted 16 x
  (x + 1).toInt

/-- The memory of a size that `cJSON_malloc` returns, with what it happens to hold. -/
def fresh (contents : Nat → Nat → UInt8) (size : Nat) : Bytes :=
  (List.range size).map (contents size)

/-- The tests for the commas behind elements and members. -/
def isLast {F : Type} : Item F → Bool
  | .null => true
  | .node _ _ _ => false

section Buffer

variable [Supply] (contents : Nat → Nat → UInt8)

/-- `ensure` -/
def ensure (needed : Int) (p : PrintBuffer) : Checked PrintBuffer :=
  match p.mem with
  | none => .ok p
  | some mem =>
      let needed := int32 (needed + p.offset)
      if needed ≤ mem.length then
        .ok p
      else
        match mallocInt (pow2gt needed) with
        | none => .ok { p with mem := none }
        | some newsize => do
            let mem ← copyTo (fresh contents newsize) 0 mem
            .ok { p with mem := some mem }

/-- Room is made for a number of bytes, some are written, and the offset is advanced, unless there
is no buffer.
-/
def emit (needed : Int) (bytes : Bytes) (advance : Nat) (p : PrintBuffer)
    : Checked PrintBuffer := do
  let p ← ensure contents needed p
  match p.mem with
  | none => .ok p
  | some mem => do
      let mem ← copyTo mem p.offset bytes
      .ok ⟨some mem, p.offset + advance⟩

/-- A text is written with its terminator, and the offset stays. -/
def Rendered.buffered (r : Rendered) (p : PrintBuffer) : Checked PrintBuffer :=
  emit contents r.needed (r.text ++ [0]) 0 p

/-- The effect of `p->offset=update(p)`. -/
def update (p : PrintBuffer) : Checked PrintBuffer :=
  match p.mem with
  | none => .ok { p with offset := 0 }
  | some mem => do
      let len ← strlen mem p.offset
      .ok { p with offset := p.offset + len }

/-- What the loop of `print_array` writes behind an element. -/
def behindElement (fmt last : Bool) (p : PrintBuffer) : Checked PrintBuffer :=
  if last then
    .ok p
  else
    let len : Nat := if fmt then 2 else 1
    emit contents (len + 1) (','.toUInt8 :: (formatted fmt [' '.toUInt8] ++ [0])) len p

/-- The tabs that the loop of `print_object` writes in front of a member. -/
def startLine (fmt : Bool) (depth : Nat) (p : PrintBuffer) : Checked PrintBuffer :=
  if fmt then emit contents depth (tabs depth) depth p else .ok p

/-- What the loop of `print_object` writes in front of the value of a member. -/
def beforeMember (fmt : Bool) (depth : Nat) (string : Option CString) (p : PrintBuffer)
    : Checked PrintBuffer := do
  let p ← startLine contents fmt depth p
  let p ← (printStringPtr string).buffered contents p
  let p ← update p
  let len : Nat := if fmt then 2 else 1
  emit contents len (':'.toUInt8 :: formatted fmt ['\t'.toUInt8]) len p

/-- What the loop of `print_object` writes behind a member. -/
def behindMember (fmt last : Bool) (p : PrintBuffer) : Checked PrintBuffer :=
  let len : Nat := (if fmt then 1 else 0) + if last then 0 else 1
  emit contents (len + 1)
    ((if last then [] else [','.toUInt8]) ++ (formatted fmt ['\n'.toUInt8] ++ [0])) len p

/-- What the loop over the items below a parent writes in front of an item. -/
def beforeItem (fmt : Bool) (parent : ItemType) (depth : Nat) (string : Option CString)
    (p : PrintBuffer)
    : Checked PrintBuffer :=
  if parent = .object then beforeMember contents fmt depth string p else .ok p

/-- What the loop over the items below a parent writes behind an item. -/
def behindItem (fmt : Bool) (parent : ItemType) (last : Bool) (p : PrintBuffer)
    : Checked PrintBuffer :=
  if parent = .object then behindMember contents fmt last p else behindElement contents fmt last p

variable {F : Type} [CDouble F]

/-- `print_array` with a buffer, from the loop over the elements. -/
def printArrayBuffered (child : Item F) (elements : PrintBuffer → Checked PrintBuffer)
    (p : PrintBuffer)
    : Checked PrintBuffer :=
  if numentries child = 0 then
    Rendered.buffered contents ⟨3, word "[]"⟩ p
  else do
    let p ← emit contents 1 ['['.toUInt8] 1 p
    let p ← elements p
    emit contents 2 [']'.toUInt8, 0] 0 p

/-- `print_object` with a buffer, from the loop over the members. -/
def printObjectBuffered (fmt : Bool) (depth : Nat) (child : Item F)
    (members : PrintBuffer → Checked PrintBuffer) (p : PrintBuffer)
    : Checked PrintBuffer :=
  if numentries child = 0 then
    Rendered.buffered contents ⟨if fmt then int32 (depth + 4) else 3, objectText fmt depth []⟩ p
  else do
    let len : Nat := if fmt then 2 else 1
    let p ← emit contents (len + 1) ('\x7b'.toUInt8 :: (formatted fmt ['\n'.toUInt8] ++ [0])) len p
    let depth := depth + 1
    let p ← members p
    emit contents (if fmt then depth + 1 else 2)
      (formatted fmt (tabs (depth - 1)) ++ ['\x7d'.toUInt8, 0]) 0 p

/-- `print_value` with a buffer, from the loops over the items below the item. -/
def printFieldsBuffered (fmt : Bool) (depth : Nat) (fields : Fields F) (child : Item F)
    (inside : PrintBuffer → Checked PrintBuffer) (p : PrintBuffer)
    : Checked PrintBuffer :=
  match fields.type with
  | .unset => .ok p
  | .null => Rendered.buffered contents ⟨5, word "null"⟩ p
  | .false => Rendered.buffered contents ⟨6, word "false"⟩ p
  | .true => Rendered.buffered contents ⟨5, word "true"⟩ p
  | .number => (printNumber fields).buffered contents p
  | .string => (printStringPtr fields.valuestring).buffered contents p
  | .array => printArrayBuffered contents child inside p
  | .object => printObjectBuffered contents fmt depth child inside p

/-- The loops over the elements of an array or the members of an object. -/
def printChainBuffered (fmt : Bool)
    : ItemType → Nat → Item F → PrintBuffer → Checked PrintBuffer
  | _, _, .null, p => .ok p
  | parent, depth, .node fields child next, p => do
      let p ← beforeItem contents fmt parent depth fields.string p
      let p ← printFieldsBuffered contents fmt depth fields child
        (printChainBuffered fmt fields.type (depth + 1) child) p
      let p ← update p
      let p ← behindItem contents fmt parent (isLast next) p
      printChainBuffered fmt parent depth next p

/-- `cJSON_PrintBuffered`: the string in the buffer, or a null pointer. -/
def cJSONPrintBuffered (item : Item F) (prebuffer : Int) (fmt : Bool)
    : Checked (Option CString) :=
  match item with
  | .null => .ok none
  | .node fields child _ => do
      let p ← printFieldsBuffered contents fmt 0 fields child
        (printChainBuffered contents fmt fields.type 1 child)
        ⟨(mallocInt prebuffer).map (fresh contents), 0⟩
      .ok (if fields.type = .unset then none else p.mem.map CString.startOf)

end Buffer

end Cvos.LibJson

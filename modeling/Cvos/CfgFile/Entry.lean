import Cvos.Lib.CMemory

/-! The in-memory configuration of `cfgfile.c`: the characters its parser distinguishes, the
entries with the array they are pooled in, and the record behind a `PCONFIG`.
-/

namespace Cvos.CfgFile

open Cvos.Lib

/-- The byte of an ASCII character. -/
def ch (c : Char) : UInt8 := c.toUInt8

/-- The bytes of an ASCII text. -/
def text (s : String) : Bytes := s.toList.map ch

/-- `iseolchar`: `strchr` also finds the terminator of the set. -/
def isEolChar (c : UInt8) : Bool := c == ch '\n' || c == ch '\r' || c == 0x1a || c == 0

/-- `iswhite`: `strchr` also finds the terminator of the set. -/
def isWhite (c : UInt8) : Bool := c == 0x0c || c == ch '\t' || c == ch ' ' || c == 0

/-- `isspace` in the C locale. -/
def isSpace (c : UInt8) : Bool := c == ch ' ' || (0x09 ≤ c && c ≤ 0x0d)

/-- One of the two quotes. -/
def isQuote (c : UInt8) : Bool := c == ch '\'' || c == ch '"'

/-- `COMMENT_MAGIC_01` -/
def commentMagic01 : UInt8 := ch ';'

/-- `COMMENT_MAGIC_02` -/
def commentMagic02 : UInt8 := ch '#'

/-- One of the two characters that start a comment. -/
def isComment (c : UInt8) : Bool := c == commentMagic01 || c == commentMagic02

/-- The comment is empty or starts with a blank or a further comment character, as those of a
comment block do.
-/
def startsBlock (comment : Bytes) : Bool :=
  let first := comment.head?.getD 0
  isWhite first || first == commentMagic01 || first == commentMagic02

/-- A `TCFGENTRY`. Its strings are addresses while the image is parsed and texts afterwards.
-/
structure CfgEntry (Str : Type) where
  sectionName : Option Str
  id : Option Str
  value : Option Str
  comment : Option Str
  deriving DecidableEq, Repr

/-- The entry with each string read through `f`. -/
def CfgEntry.map {Str Str' : Type} (f : Str → Str') (e : CfgEntry Str) : CfgEntry Str' where
  sectionName := e.sectionName.map f
  id := e.id.map f
  value := e.value.map f
  comment := e.comment.map f

/-- The entry of a section header. -/
def CfgEntry.isHeader {Str : Type} (e : CfgEntry Str) : Bool := e.sectionName.isSome

/-- A configuration entry, with its texts. -/
abbrev Entry := CfgEntry Bytes

/-- The array `entries` with its first `numEntries` slots and its capacity `maxEntries`. -/
structure Pool where
  entries : List Entry
  maxEntries : Nat
  room : entries.length ≤ maxEntries
  deriving DecidableEq, Repr

/-- The pool of a configuration whose memory was cleared. -/
def Pool.empty : Pool where
  entries := []
  maxEntries := 0
  room := Nat.le_refl 0

/-- `sizeof (TCFGENTRY)` with 64-bit pointers -/
def sizeofEntry : Nat := 40

/-- The capacity after `_cfg_poolalloc (p, 1)`. -/
def Pool.reserved (p : Pool) : Nat :=
  if p.entries.length + 1 > p.maxEntries then
    if p.maxEntries ≠ 0 then 1 + p.maxEntries + p.maxEntries / 2 else 1 + 4096 / sizeofEntry
  else
    p.maxEntries

/-- A reservation leaves a slot behind the entries. -/
theorem Pool.length_lt_reserved (p : Pool) : p.entries.length < p.reserved := by
  have room := p.room
  unfold reserved sizeofEntry
  split
  · split <;> omega
  · omega

/-- `cfg_storeentry` appends an entry to the pool. -/
def Pool.storeentry (p : Pool) (e : Entry) : Pool where
  entries := p.entries ++ [e]
  maxEntries := p.reserved
  room := by
    rw [List.length_append]
    exact p.length_lt_reserved

/-- The pool after storing the entries one by one. -/
def Pool.storeAll (p : Pool) (es : List Entry) : Pool := es.foldl Pool.storeentry p

@[simp]
theorem Pool.storeentry_entries (p : Pool) (e : Entry)
    : (p.storeentry e).entries = p.entries ++ [e] := rfl

/-- The pool then holds the old entries followed by the stored ones. -/
@[simp]
theorem Pool.storeAll_entries (p : Pool) (es : List Entry)
    : (p.storeAll es).entries = p.entries ++ es := by
  induction es generalizing p with
  | nil => simp [storeAll]
  | cons e es ih => simpa [storeAll] using ih (p.storeentry e)

/-- The entry `entries[i]`; only the first `numEntries` slots hold one. -/
def Pool.entry (p : Pool) (i : Nat) : Checked Entry :=
  match p.entries[i]? with
  | some e => .ok e
  | none => .error .outOfBounds

/-- `CFG_TYPE` of the entry at the cursor -/
inductive CfgType where
  | cfgError
  | cfgSection
  | cfgDefine
  | cfgContinue
  deriving DecidableEq, Repr

/-- A `TCONFIG`, with `flags` split into its validity, end-of-file and type parts. -/
structure Config where
  dirty : Bool
  image : Option Bytes
  size : Nat
  mtime : Nat
  pool : Pool
  cursor : Nat
  sectionName : Option Bytes
  id : Option Bytes
  value : Option Bytes
  valid : Bool
  eof : Bool
  type : CfgType
  deriving DecidableEq, Repr

/-- The configuration that `cfg_freeimage` leaves, all bytes zero. -/
def cfgFreeimage : Config where
  dirty := false
  image := none
  size := 0
  mtime := 0
  pool := .empty
  cursor := 0
  sectionName := none
  id := none
  value := none
  valid := false
  eof := false
  type := .cfgError

end Cvos.CfgFile

import Cvos.CfgFile.Entry

/-! The parser of `cfgfile.c`, which cuts the image into strings in place: every function
takes the image and returns it with the NUL bytes it has written. Addresses are offsets in
the image.
-/

namespace Cvos.CfgFile

open Cvos.Lib

/-- `_cfg_skipwhite` -/
def cfgSkipwhite (mem : Bytes) (s : Nat) : Checked Nat :=
  scanWhile mem (fun c => c != 0 && isWhite c) s

/-- `_cfg_getline (&imgPtr, &lp)`: whether it found a line, the new `imgPtr`, and `lp`. -/
def cfgGetline (mem : Bytes) (imgPtr : Nat) : Checked ((Bool × Nat × Nat) × Bytes) := do
  let start ← scanWhile mem (fun c => c != 0 && isEolChar c) imgPtr
  let cp ← scanWhile mem (fun c => c != 0 && !isEolChar c) start
  let last ← load mem cp
  if last ≠ 0 then
    let mem ← store mem cp 0
    -- The trailing blanks go only here: a last line without terminator keeps its own.
    let stop ← trimBack mem isWhite start (cp + 1 - start)
    let mem ← store mem stop 0
    let first ← load mem start
    .ok ((first != 0, cp + 1, start), mem)
  else
    let first ← load mem start
    .ok ((first != 0, cp, start), mem)

/-- `rtrim`: whether anything remains of the string. -/
def rtrim (mem : Bytes) (str : Nat) : Checked (Bool × Bytes) := do
  let first ← load mem str
  if first = 0 then
    .ok (false, mem)
  else
    let stop ← scanWhile mem (· != 0) str
    let stop ← trimBack mem isSpace str (stop - str)
    let mem ← store mem stop 0
    .ok (stop > str, mem)

/-- The loop over a value from `lp`, where `rest` holds the bytes from there on: where it
stops, and whether it does so at a comment. `inString` is the open quote, or zero.
-/
def scanValue (mem : Bytes) : Bytes → Nat → UInt8 → Checked (Nat × Bool)
  | [], _, _ => .error .outOfBounds
  | c :: rest, lp, inString =>
      if c = 0 then
        .ok (lp, false)
      else if inString ≠ 0 then
        scanValue mem rest (lp + 1) (if c = inString then 0 else inString)
      else if c = ch '"' ∨ c = ch '\'' then
        scanValue mem rest (lp + 1) c
      else if isComment c then do
        let previous ← loadBefore mem lp
        if isWhite previous then .ok (lp, true) else scanValue mem rest (lp + 1) 0
      else
        scanValue mem rest (lp + 1) 0

/-- The part of `_cfg_parse` under `Parse value`: the new `lp` and the comment. -/
def parseValue (mem : Bytes) (value : Nat) : Checked ((Nat × Option Nat) × Bytes) := do
  let (lp, commented) ← scanValue mem (mem.drop value) value 0
  if commented then
    let mem ← store mem lp 0
    let (_, mem) ← rtrim mem value
    .ok ((lp, some (lp + 1)), mem)
  else
    .ok ((lp, none), mem)

/-- The part of `_cfg_parse` under `Parse Comment`. -/
def parseComment (mem : Bytes) (lp : Nat) (comment : Option Nat) : Checked (Option Nat) := do
  let c ← load mem lp
  .ok (if isComment c then some (lp + 1) else comment)

/-- The part of `_cfg_parse` under `Parse section`, from the byte after the `[`: the entry of
the line, if any.
-/
def parseHeaderAt (mem : Bytes) (s : Nat) : Checked (Option (CfgEntry Nat) × Bytes) := do
  let sectionName ← cfgSkipwhite mem s
  match ← strchr mem sectionName (ch ']') with
  | none => .ok (none, mem)
  | some lp =>
      let mem ← store mem lp 0
      let (remains, mem) ← rtrim mem sectionName
      if remains then
        let lp ← cfgSkipwhite mem (lp + 1)
        let comment ← parseComment mem lp none
        .ok (some ⟨some sectionName, none, none, comment⟩, mem)
      else
        .ok (none, mem)

/-- The part of `_cfg_parse` for a line `Key = Value`, from the key. -/
def parseDefineAt (mem : Bytes) (id : Nat) : Checked (Option (CfgEntry Nat) × Bytes) := do
  match ← strchr mem id (ch '=') with
  | none => .ok (none, mem)
  | some lp =>
      let mem ← store mem lp 0
      let (_, mem) ← rtrim mem id
      let value ← cfgSkipwhite mem (lp + 1)
      let ((lp, comment), mem) ← parseValue mem value
      let comment ← parseComment mem lp comment
      .ok (some ⟨none, some id, some value, comment⟩, mem)

/-- The part of `_cfg_parse` for a continuation line, from the value. -/
def parseContinueAt (mem : Bytes) (value : Nat) : Checked (Option (CfgEntry Nat) × Bytes) := do
  let ((lp, comment), mem) ← parseValue mem value
  let comment ← parseComment mem lp comment
  .ok (some ⟨none, none, some value, comment⟩, mem)

/-- The body of the loop of `_cfg_parse` behind `isContinue`: the entry of the line, if any. -/
def parseItemAt (mem : Bytes) (isContinue : Bool) (lp : Nat)
    : Checked (Option (CfgEntry Nat) × Bytes) := do
  let c ← load mem lp
  if c = ch '[' then
    parseHeaderAt mem (lp + 1)
  -- The second test follows from the first one: a line that starts with `#` is no comment.
  else if c ≠ commentMagic01 ∨ c = commentMagic02 then
    if isContinue then parseContinueAt mem lp else parseDefineAt mem lp
  else
    let comment ← parseComment mem lp none
    .ok (some ⟨none, none, none, comment⟩, mem)

/-- The body of the loop of `_cfg_parse` for the line at `lp`: the entry it stores, if any.
-/
def parseLineAt (mem : Bytes) (lp : Nat) : Checked (Option (CfgEntry Nat) × Bytes) := do
  let first ← load mem lp
  if isWhite first then
    let lp ← cfgSkipwhite mem lp
    parseItemAt mem true lp
  else
    parseItemAt mem false lp

/-- One turn of the loop of `_cfg_parse`: the entry it stores, if any, and the new `imgPtr`. -/
def parseTurn (mem : Bytes) (imgPtr : Nat) : Checked ((Option (CfgEntry Nat) × Nat) × Bytes) := do
  let ((found, imgPtr, lp), mem) ← cfgGetline mem imgPtr
  if found then
    let (entry, mem) ← parseLineAt mem lp
    .ok ((entry, imgPtr), mem)
  else
    .ok ((none, imgPtr), mem)

/-- The loop of `_cfg_parse` from `imgPtr` up to `endPtr`, with the entries it stores. An
iteration that leaves `imgPtr` where it is changes nothing and repeats forever, so no more
than one iteration for each byte can make progress, and the bound is never the reason to
stop otherwise.
-/
def parseLoop (endPtr : Nat) : Nat → Nat → Bytes → Checked (List (CfgEntry Nat) × Bytes)
  | bound, imgPtr, mem =>
      if imgPtr < endPtr then
        match bound with
        | 0 => .error .diverges
        | bound + 1 => do
            let ((found, imgPtr, lp), mem) ← cfgGetline mem imgPtr
            if found then
              let (entry, mem) ← parseLineAt mem lp
              let (entries, mem) ← parseLoop endPtr bound imgPtr mem
              .ok (entry.toList ++ entries, mem)
            else
              parseLoop endPtr bound imgPtr mem
      else
        .ok ([], mem)

/-- The loop of `_cfg_parse` takes its turns up to the end of the image. -/
theorem parseLoop_turn {endPtr imgPtr : Nat} (inside : imgPtr < endPtr) (bound : Nat) (mem : Bytes)
    : parseLoop endPtr (bound + 1) imgPtr mem
      = (do
          let ((entry, imgPtr), mem) ← parseTurn mem imgPtr
          let (entries, mem) ← parseLoop endPtr bound imgPtr mem
          .ok (entry.toList ++ entries, mem)) := by
  rw [parseLoop, if_pos inside, parseTurn]
  cases line : cfgGetline mem imgPtr with
  | error fault => rfl
  | ok result =>
      obtain ⟨⟨found, imgPtr, lp⟩, mem⟩ := result
      cases found with
      | false =>
          simp only [Checked.ok_bind, Bool.false_eq_true, if_false]
          cases parseLoop endPtr bound imgPtr mem <;> rfl
      | true =>
          simp only [Checked.ok_bind, if_true]
          cases parseLineAt mem lp <;> rfl

/-- `_cfg_parse`. The entries point into the image, so their texts are those of the image at
the end.
-/
def cfgParse (c : Config) : Checked (Int × Config) := do
  if c.valid then
    .ok (0, c)
  else
    match c.image with
    | none => if c.size = 0 then .ok (0, { c with valid := true }) else .error .nullPointer
    | some mem =>
        let (entries, mem) ← parseLoop c.size c.size 0 mem
        let pool := c.pool.storeAll (entries.map (CfgEntry.map (cstring mem)))
        .ok (0, { c with image := some mem, pool := pool, valid := true })

/-- The configuration that `cfg_refresh` hands to `_cfg_parse` for a file. -/
def readIn (image : Bytes) (mtime : Nat) : Config :=
  { cfgFreeimage with image := some (image ++ [0]), size := image.length, mtime := mtime }

end Cvos.CfgFile

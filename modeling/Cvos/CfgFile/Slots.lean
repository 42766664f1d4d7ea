import Cvos.CfgFile.Write
import Cvos.Lib.CArray

/-! The entry array of a configuration as a block of memory, in which each slot has the four flags
that say which of its strings `strdup` has made. Pointers into the block go stale when
`_cfg_poolalloc` moves it, and slots behind the entries may never have been written.
-/

namespace Cvos.CfgFile

open Cvos.Lib

/-- A string that an entry points to: its text, and the number of the `strdup` that has made it, or
none if it lies in the image.
-/
structure CfgString where
  text : Bytes
  dup : Option Nat
  deriving DecidableEq, Repr

/-- A `TCFGENTRY` with its flags. -/
structure Slot where
  entry : CfgEntry CfgString
  mustFreeSection : Bool
  mustFreeId : Bool
  mustFreeValue : Bool
  mustFreeComment : Bool
  deriving DecidableEq, Repr

/-- The array `entries`: the number of the `malloc` that has made it, its `maxEntries` slots, of
which some may not be initialised, and `numEntries`.
-/
structure EntryArray where
  base : Nat
  slots : List (Option Slot)
  numEntries : Nat
  deriving DecidableEq, Repr

/-- What has become of the strings: how many `strdup` has made, which are numbered in this order,
and those that went to `free`.
-/
structure Strings where
  next : Nat
  freed : List CfgString
  deriving DecidableEq, Repr

/-- An open configuration, of which only what `cfg_write` and `cfg_done` touch is kept. -/
structure SlotConfig where
  valid : Bool
  dirty : Bool
  fileName : CfgString
  array : EntryArray
  strings : Strings
  deriving DecidableEq, Repr

/-- The entry in a slot. -/
def Slot.view (slot : Slot) : Entry := slot.entry.map CfgString.text

/-- The entries of the array. -/
def EntryArray.entries (a : EntryArray) : List Entry :=
  (a.slots.take a.numEntries).filterMap (Option.map Slot.view)

/-- The array as a pool of entries. -/
def EntryArray.pool (a : EntryArray) : Pool where
  entries := a.entries
  maxEntries := a.slots.length
  room :=
    Nat.le_trans (List.length_filterMap_le ..) (by
      rw [List.length_take]
      exact Nat.min_le_right ..)

/-- The configuration that is represented. -/
def SlotConfig.view (c : SlotConfig) : Config :=
  { cfgFreeimage with valid := c.valid, dirty := c.dirty, pool := c.array.pool }

/-- `strdup` -/
def Strings.strdup (strings : Strings) (s : Bytes) : CfgString × Strings :=
  (⟨s, some strings.next⟩, { strings with next := strings.next + 1 })

/-- `strdup` of a string that may be null, which is then left out. -/
def Strings.strdupAny (strings : Strings) : Option Bytes → Option CfgString × Strings
  | none => (none, strings)
  | some s => (some (strings.strdup s).1, (strings.strdup s).2)

/-- `free`, which ignores a null pointer. -/
def Strings.free (strings : Strings) (s : Option CfgString) : Strings :=
  { strings with freed := strings.freed ++ s.toList }

/-- `_cfg_poolalloc` of one slot: its index, and the array. -/
def cfgPoolalloc (a : EntryArray) : Nat × EntryArray :=
  if a.numEntries + 1 > a.slots.length then
    let newMax :=
      if a.slots.length ≠ 0 then 1 + a.slots.length + a.slots.length / 2
      else 1 + 4096 / sizeofEntry
    let newBase := a.slots.take a.numEntries ++ List.replicate (newMax - a.numEntries) none
    (a.numEntries, ⟨a.base + 1, newBase, a.numEntries + 1⟩)
  else
    (a.numEntries, { a with numEntries := a.numEntries + 1 })

/-- `cfg_storeentry` of strings that stay where they are. -/
def cfgStoreentry (c : SlotConfig) (e : CfgEntry CfgString) : SlotConfig :=
  let (data, a) := cfgPoolalloc c.array
  let slot := ⟨e, false, false, false, false⟩
  { c with array := { a with slots := a.slots.set data (some slot) } }

/-- `cfg_storeentry` of strings that it duplicates. For a comment it duplicates the value. -/
def cfgStoreentryDynamic (c : SlotConfig) (sectionName id value comment : Option Bytes)
    : Checked SlotConfig := do
  let (data, a) := cfgPoolalloc c.array
  let (sectionName, strings) := c.strings.strdupAny sectionName
  let (id, strings) := strings.strdupAny id
  let (copy, strings) := strings.strdupAny value
  let (comment, strings) ←
    match comment, value with
    | none, _ => .ok (none, strings)
    | some _, none => .error .nullPointer
    | some _, some value => .ok (strings.strdupAny (some value))
  let slot :=
    ⟨⟨sectionName, id, copy, comment⟩, sectionName.isSome, id.isSome, copy.isSome, comment.isSome⟩
  .ok { c with array := { a with slots := a.slots.set data (some slot) }, strings := strings }

/-- The configuration that `cfg_init` makes of a file with the given entries: `_cfg_parse` stores
them with strings of the image.
-/
def cfgOpen (fileName : Bytes) (es : List Entry) : SlotConfig :=
  let (fileName, strings) := Strings.strdup ⟨0, []⟩ fileName
  let c := { valid := true, dirty := false, fileName, array := ⟨0, [], 0⟩, strings }
  es.foldl (fun c e => cfgStoreentry c (e.map fun s => ⟨s, none⟩)) c

/-- The slot `entries[i]`; only those below `numEntries` hold an entry. -/
def EntryArray.entry (a : EntryArray) (i : Nat) : Checked Slot := do
  let slot ← slotAt a.numEntries a.slots i
  match slot with
  | some slot => .ok slot
  | none => .error .outOfBounds

/-- The update of the value of the entry at `e`. -/
def slotUpdate (c : SlotConfig) (e : Nat) (value : Option Bytes) : Checked (Int × SlotConfig) := do
  let slot ← c.array.entry e
  let strings :=
    if slot.entry.value.isSome && slot.mustFreeValue then c.strings.free slot.entry.value
    else c.strings
  match value with
  | none => .error .nullPointer
  | some value =>
      let (value, strings) := strings.strdup value
      let slot :=
        { slot with entry := { slot.entry with value := some value }, mustFreeValue := true }
      let a := { c.array with slots := c.array.slots.set e (some slot) }
      .ok (0, { c with array := a, strings := strings, dirty := true })

/-- The part of `cfg_write` under `insert new entry before e`. The pointer `e` still points into the
array as it was before `_cfg_poolalloc`.
-/
def slotInsert (c : SlotConfig) (e : Nat) (id value : Bytes) : Checked (Int × SlotConfig) := do
  let (_, a) := cfgPoolalloc c.array
  if a.base ≠ c.array.base then
    .error .useAfterFree
  else do
    let slots ← memmove a.slots.length a.slots (e + 1) e (a.numEntries - e)
    match ← slotAt a.slots.length slots e with
    | none => .error .outOfBounds
    | some slot =>
        let (id, strings) := c.strings.strdup id
        let (value, strings) := strings.strdup value
        -- The flags of the header that stood here remain.
        let slot :=
          { slot with
            entry := ⟨none, some id, some value, none⟩
            mustFreeId := true
            mustFreeValue := true }
        let a := { a with slots := slots.set e (some slot) }
        .ok (0, { c with array := a, strings := strings, dirty := true })

/-- The strings of a slot that its flags give to `free`, in this order. -/
def Slot.release (slot : Slot) : List CfgString :=
  (if slot.mustFreeSection then slot.entry.sectionName.toList else [])
  ++ (if slot.mustFreeId then slot.entry.id.toList else [])
  ++ (if slot.mustFreeValue then slot.entry.value.toList else [])
  ++ if slot.mustFreeComment then slot.entry.comment.toList else []

/-- A loop that frees the strings of some entries from `e` on. -/
def freeEntries (a : EntryArray) : Nat → Nat → Strings → Checked Strings
  | 0, _, strings => .ok strings
  | count + 1, e, strings => do
      let slot ← a.entry e
      freeEntries a count (e + 1) { strings with freed := strings.freed ++ slot.release }

/-- The part of `cfg_write` under `doDelete`. -/
def slotDelete (c : SlotConfig) (eSect e : Nat) : Checked (Int × SlotConfig) := do
  let eSect ← moveUp c.array.pool eSect
  let strings ← freeEntries c.array (e - eSect) eSect c.strings
  let slots ← memmove c.array.numEntries c.array.slots eSect e (c.array.numEntries - e)
  let a := { c.array with slots := slots, numEntries := c.array.numEntries - (e - eSect) }
  .ok (0, { c with array := a, strings := strings, dirty := true })

/-- The part of `cfg_write` under `Found`, where `eSect` is the header of the section and `i`
the number of entries behind it.
-/
def slotFound (c : SlotConfig) (eSect : Nat) (i : Int) (id value : Option Bytes)
    : Checked (Int × SlotConfig) := do
  let stop ← stopFrom id i (eSect + 1) (c.array.entries.drop (eSect + 1))
  match id, value with
  | some id, some value =>
      match stop with
      | .header e => slotInsert c e id value
      | .key e => slotUpdate c e value
      | .last _ => do
          let c ← cfgStoreentryDynamic c none id value none
          .ok (0, { c with dirty := true })
  | some _, none =>
      match stop with
      | .header _ => .ok (0, c)
      | .key e => slotDelete c e (e + 1)
      | .last _ => .ok (0, c)
  | none, _ =>
      match stop with
      | .header e | .key e | .last e => do
          let e ← moveUp c.array.pool e
          slotDelete c eSect e

/-- `cfg_write` -/
def slotWrite (c : SlotConfig) (sectionName id value : Option Bytes)
    : Checked (Int × SlotConfig) := do
  if !c.valid then
    .ok (-1, c)
  else
    let entries := c.array.entries
    let (key, i) ←
      if sectionName.isNone then anyKeyFrom id entries.length 0 entries
      else .ok (none, (entries.length : Int))
    match key with
    | some e => slotUpdate c e value
    | none =>
        let e := if sectionName.isNone then entries.length else 0
        match ← sectionFrom sectionName i e (entries.drop e) with
        | (some eSect, i) => slotFound c eSect i id value
        | (none, _) =>
            match id, value with
            | some id, some value => do
                let c ← cfgStoreentryDynamic c sectionName none none none
                let c ← cfgStoreentryDynamic c none id value none
                .ok (0, { c with dirty := true })
            | _, _ => .ok (0, c)

/-- `cfg_done`: the strings that it leaves, of which those of the entries are freed first. -/
def cfgDone (c : SlotConfig) : Checked Strings := do
  let strings ← freeEntries c.array c.array.numEntries 0 c.strings
  .ok (strings.free (some c.fileName))

end Cvos.CfgFile

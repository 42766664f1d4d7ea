import Cvos.CfgFile.Find

/-! Changing a configuration: the searches of `cfg_write` through the entry array, and its
edits of the array. Addresses of entries are indices, and an access to a slot that holds no
entry, or through a pointer into a freed array, is a fault.
-/

namespace Cvos.CfgFile

open Cvos.Lib

/-- The array after `entries[e].value = strdup (value)`. -/
def Pool.setValue (p : Pool) (e : Nat) (value : Bytes) : Pool where
  entries := p.entries.modify e fun entry => { entry with value := some value }
  maxEntries := p.maxEntries
  room := by
    rw [List.length_modify]
    exact p.room

/-- The entry for a key and its value. -/
def defineEntry (id value : Bytes) : Entry := ⟨none, some id, some value, none⟩

/-- The array after a key is put in front of the entry `e`. The pointer `e` is not updated
when `_cfg_poolalloc` moves the array, and `memmove` is told to move one slot more than there
are entries behind `e`.
-/
def Pool.insertBefore (p : Pool) (e : Nat) (id value : Bytes) : Checked Pool :=
  if p.entries.length + 1 > p.maxEntries then
    .error .useAfterFree
  else if room : p.entries.length + 1 < p.maxEntries then
    .ok
      {
        entries := p.entries.take e ++ defineEntry id value :: p.entries.drop e
        maxEntries := p.maxEntries
        room := by
          simp only [List.length_append, List.length_cons, List.length_take, List.length_drop]
          omega
      }
  else
    .error .outOfBounds

/-- The array without the entries from `eSect` up to `e`. -/
def Pool.remove (p : Pool) (eSect e : Nat) : Pool where
  entries := p.entries.take eSect ++ p.entries.drop (max eSect e)
  maxEntries := p.maxEntries
  room := by
    have room := p.room
    simp only [List.length_append, List.length_take, List.length_drop]
    omega

/-- An entry of a comment block, which is deleted with what follows it. -/
def CfgEntry.isBlockComment (e : Entry) : Bool :=
  match e.sectionName, e.id, e.value, e.comment with
  | none, none, none, some comment => startsBlock comment
  | _, _, _, _ => false

/-- The start of the comment block that ends in front of `e`, found entry by entry from
`e - 1` on.
-/
def moveUp (p : Pool) : Nat → Checked Nat
  | 0 => .error .outOfBounds
  | e + 1 => do
      let entry ← p.entry e
      if entry.isBlockComment then moveUp p e else .ok (e + 1)

/-- The loop of `cfg_write` without a section, at the entry `e` in front of the given ones and
with the counter `i`: the entry with the key, if any, and the counter.
-/
def anyKeyFrom (id : Option Bytes) (i : Int) (e : Nat) : List Entry → Checked (Option Nat × Int)
  | [] => if i = 0 then .ok (none, i - 1) else .error .outOfBounds
  | entry :: rest =>
      if i = 0 then
        .ok (none, i - 1)
      else do
        let found ← if entry.id.isSome then strcmpEq entry.id id else .ok false
        if found then .ok (some e, i - 1) else anyKeyFrom id (i - 1) (e + 1) rest

/-- The loop of `cfg_write` that looks for the section: its header, if any, and the counter.
-/
def sectionFrom (sectionName : Option Bytes) (i : Int) (e : Nat)
    : List Entry → Checked (Option Nat × Int)
  | [] => if i = 0 then .ok (none, i - 1) else .error .outOfBounds
  | entry :: rest =>
      if i = 0 then
        .ok (none, i - 1)
      else do
        let found ←
          if entry.sectionName.isSome then strcmpEq entry.sectionName sectionName else .ok false
        if found then .ok (some e, i - 1) else sectionFrom sectionName (i - 1) (e + 1) rest

/-- Where a search within a section stops. -/
inductive Stop where
  | header (e : Nat)
  | key (e : Nat)
  | last (e : Nat)
  deriving DecidableEq, Repr

/-- The loops of `cfg_write` within a section, which stop at the next header and, when they
look for one, at a key; `e` is the first entry they look at.
-/
def stopFrom (id : Option Bytes) (i : Int) (e : Nat) : List Entry → Checked Stop
  | [] => if i = 0 then .ok (.last e) else .error .outOfBounds
  | entry :: rest =>
      if i = 0 then
        .ok (.last e)
      else if entry.sectionName.isSome then
        .ok (.header e)
      else if id.isSome && entry.id == id then
        .ok (.key e)
      else
        stopFrom id (i - 1) (e + 1) rest

/-- The configuration with another, changed array. -/
def Config.edited (c : Config) (p : Pool) : Config := { c with pool := p, dirty := true }

/-- The update of the value of an entry. -/
def updateEntry (c : Config) (e : Nat) (value : Option Bytes) : Checked (Int × Config) :=
  match value with
  | none => .error .nullPointer
  | some value => .ok (0, c.edited (c.pool.setValue e value))

/-- The part of `cfg_write` under `doDelete`. -/
def doDelete (c : Config) (eSect e : Nat) : Checked (Int × Config) := do
  let eSect ← moveUp c.pool eSect
  .ok (0, c.edited (c.pool.remove eSect e))

/-- The part of `cfg_write` under `Found`, where `eSect` is the header of the section and `i`
the number of entries behind it.
-/
def writeFound (c : Config) (eSect : Nat) (i : Int) (id value : Option Bytes)
    : Checked (Int × Config) := do
  let stop ← stopFrom id i (eSect + 1) (c.pool.entries.drop (eSect + 1))
  match id, value with
  | some id, some value =>
      match stop with
      | .header e => do
          let pool ← c.pool.insertBefore e id value
          .ok (0, c.edited pool)
      | .key e => updateEntry c e value
      | .last _ => .ok (0, c.edited (c.pool.storeentry (defineEntry id value)))
  | some _, none =>
      match stop with
      | .header _ => .ok (0, c)
      | .key e => doDelete c e (e + 1)
      | .last _ => .ok (0, c)
  | none, _ =>
      match stop with
      | .header e | .key e | .last e => do
          let e ← moveUp c.pool e
          doDelete c eSect e

/-- `cfg_write`. Without a section and without an entry for the key, the second loop starts
with the counter at -1 and runs on past the entries.
-/
def cfgWrite (c : Config) (sectionName id value : Option Bytes) : Checked (Int × Config) := do
  if !c.valid then
    .ok (-1, c)
  else
    let entries := c.pool.entries
    let (key, i) ←
      if sectionName.isNone then anyKeyFrom id entries.length 0 entries
      else .ok (none, (entries.length : Int))
    match key with
    | some e => updateEntry c e value
    | none =>
        let e := if sectionName.isNone then entries.length else 0
        match ← sectionFrom sectionName i e (entries.drop e) with
        | (some eSect, i) => writeFound c eSect i id value
        | (none, _) =>
            match id, value with
            | some id, some value =>
                let pool := c.pool.storeentry ⟨sectionName, none, none, none⟩
                .ok (0, c.edited (pool.storeentry (defineEntry id value)))
            | _, _ => .ok (0, c)

end Cvos.CfgFile

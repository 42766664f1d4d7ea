import Cvos.CfgFile.Entry

/-! Reading a configuration: the cursor over its entries and the search for a section or key.
-/

namespace Cvos.CfgFile

open Cvos.Lib

/-- `remove_quotes` -/
def removeQuotes (szString : Bytes) : Option Bytes :=
  let szWork := szString.dropWhile isQuote
  if szWork = [] then
    none
  else
    some ((szWork.takeWhile (· ≠ ch '\'')).takeWhile (· ≠ ch '"'))

/-- Whether `strcmp` finds its arguments equal. -/
def strcmpEq (s t : Option Bytes) : Checked Bool :=
  match s, t with
  | some s, some t => .ok (s = t)
  | _, _ => .error .nullPointer

/-- `cfg_rewind` -/
def cfgRewind (c : Config) : Int × Config :=
  if c.valid then
    (0, { c with eof := false, type := .cfgError, cursor := 0 })
  else
    (-1, c)

/-- The loop of `cfg_nextentry` over the entries from the cursor on. -/
def nextentryFrom (c : Config) : List Entry → Int × Config
  | [] => (-1, { c with eof := true })
  | e :: rest =>
      let c := { c with cursor := c.cursor + 1 }
      match e.sectionName, e.value with
      | some sectionName, _ =>
          (0, { c with sectionName := some sectionName, type := .cfgSection })
      | none, some value =>
          match e.id with
          | some id => (0, { c with value := some value, id := some id, type := .cfgDefine })
          | none => (0, { c with value := some value, type := .cfgContinue })
      | none, none => nextentryFrom c rest

/-- `cfg_nextentry` -/
def cfgNextentry (c : Config) : Int × Config :=
  if !c.valid || c.eof then
    (-1, c)
  else
    nextentryFrom { c with type := .cfgError, id := none, value := none }
      (c.pool.entries.drop c.cursor)

/-- Whether the key at the cursor, without its quotes, is `id`. -/
def sameKey (c : Config) (id : Option Bytes) : Checked Bool :=
  match c.id with
  | none => .error .nullPointer
  | some key =>
      match removeQuotes key with
      | none => .ok false
      | some szId => strcmpEq (some szId) id

/-- The loop of `cfg_find`; each entry but the last lets it go on at most once. -/
def findLoop (sectionName id : Option Bytes) : Nat → Bool → Config → Checked (Int × Config)
  | 0, _, _ => .error .diverges
  | bound + 1, atsection, c =>
      match cfgNextentry c with
      | (0, c) => do
          if atsection then
            if c.type = .cfgSection then
              .ok (-1, c)
            else if c.type = .cfgDefine then
              let bSame ← sameKey c id
              if bSame then .ok (0, c) else findLoop sectionName id bound true c
            else
              findLoop sectionName id bound true c
          else
            let found ←
              if c.type = .cfgSection then strcmpEq c.sectionName sectionName else .ok false
            if found && id.isNone then
              .ok (0, c)
            else
              findLoop sectionName id bound (found || sectionName.isNone) c
      | (_, c) => .ok (-1, c)

/-- `cfg_find` -/
def cfgFind (c : Config) (sectionName id : Option Bytes) : Checked (Int × Config) :=
  match cfgRewind c with
  | (0, c) => findLoop sectionName id (c.pool.entries.length + 1) false c
  | _ => .ok (-1, c)

/-- What a caller learns from `cfg_find`: whether it succeeds, and then the value at the
cursor.
-/
def findValue (c : Config) (sectionName id : Option Bytes) : Checked (Option (Option Bytes)) := do
  let (ret, c) ← cfgFind c sectionName id
  .ok (if ret = 0 then some c.value else none)

end Cvos.CfgFile

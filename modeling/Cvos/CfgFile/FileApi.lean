import Cvos.CfgFile.Find
import Cvos.CfgFile.Output
import Cvos.CfgFile.Parse
import Cvos.CfgFile.Write

/-! The calls of `cfgfile.c` that work on a configuration file by its name: each reads the
whole file, works on the configuration in memory and, to change it, writes the whole file.
-/

namespace Cvos.CfgFile

open Cvos.Lib

/-- A file: its bytes and the time of its last change. -/
structure FileData where
  content : Bytes
  mtime : Nat
  deriving DecidableEq, Repr

/-- Which of the system calls that are made on the file succeed, and the time of a change. -/
structure SysCalls where
  creat : Bool
  openRead : Bool
  readLock : Bool
  fstat : Bool
  read : Bool
  openWrite : Bool
  writeLock : Bool
  fopen : Bool
  time : Nat
  deriving DecidableEq, Repr

/-- All system calls succeed. -/
def SysCalls.succeed (time : Nat) : SysCalls where
  creat := true
  openRead := true
  readLock := true
  fstat := true
  read := true
  openWrite := true
  writeLock := true
  fopen := true
  time := time

/-- The end of `cfg_refresh` with an error. -/
def refreshFailed (ret : Int) (c : Config) : Int × Config :=
  (ret, { c with image := none, size := 0 })

/-- `cfg_refresh` -/
def cfgRefresh (sys : SysCalls) (file : Option FileData) (c : Config) : Checked (Int × Config) :=
  match file with
  | none => .ok (refreshFailed (-2) c)
  | some f =>
      if !sys.openRead then
        .ok (refreshFailed (-2) c)
      else if !sys.readLock then
        .ok (refreshFailed (-100) c)
      else if !sys.fstat then
        .ok (refreshFailed (-3) c)
      else if c.image.isSome && f.content.length == c.size && f.mtime == c.mtime then
        .ok (0, c)
      else
        let c := if c.dirty then cfgFreeimage else c
        if !sys.read then
          .ok (refreshFailed (-4) c)
        else do
          let (ret, c) ← cfgParse (readIn f.content f.mtime)
          .ok (if ret < 0 then refreshFailed (-5) cfgFreeimage else (0, c))

/-- `cfg_init`: its result, the configuration and the file, which it may create. -/
def cfgInit (sys : SysCalls) (file : Option FileData) (doCreate : Bool)
    : Checked ((Int × Option Config) × Option FileData) :=
  if file.isNone && !doCreate then
    .ok ((-2, none), file)
  else do
    let file := if file.isNone && sys.creat then some ⟨[], sys.time⟩ else file
    let (ret, c) ← cfgRefresh sys file cfgFreeimage
    .ok (if ret ≠ 0 then (-11, none) else (0, some c), file)

/-- `cfg_commit`: its result, the configuration and the file. -/
def cfgCommit (sys : SysCalls) (file : Option FileData) (c : Config)
    : (Int × Config) × Option FileData :=
  if !c.valid then
    ((-1, c), file)
  else if !c.dirty then
    ((0, c), file)
  else if file.isNone || !sys.openWrite then
    ((-4, c), file)
  else if !sys.writeLock then
    ((-100, c), file)
  else if !sys.fopen then
    ((-2, c), file)
  else
    ((0, { c with dirty := false }), some ⟨cfgOutput c, sys.time⟩)

/-- `strcpy (valptr, pconfig->value)` -/
def copyValue (c : Config) : Checked Bytes :=
  match c.value with
  | some value => .ok value
  | none => .error .nullPointer

/-- `cfg_getstring` -/
def cfgGetstring (c : Config) (sectionName id : Option Bytes)
    : Checked ((Int × Bytes) × Config) := do
  let (ret, c) ← cfgFind c sectionName id
  if ret < 0 then
    .ok ((-1, []), c)
  else
    let value ← copyValue c
    .ok ((0, value), c)

/-- `cfg_getstring2` -/
def cfgGetstring2 (c : Config) (sectionName id : Option Bytes) (defval : Bytes)
    : Checked ((Int × Bytes) × Config) := do
  let (ret, c) ← cfgFind c sectionName id
  if ret < 0 then
    .ok ((0, defval), c)
  else
    let value ← copyValue c
    .ok ((0, value), c)

/-- Open the file, change a key and commit. What `cfg_write` returns is not looked at. -/
def setStr (sys : SysCalls) (file : Option FileData) (sectionName entry valptr : Option Bytes)
    : Checked (Int × Option FileData) := do
  let ((ret, pCfg), file) ← cfgInit sys file true
  match pCfg with
  | none => .ok (ret, file)
  | some c => do
      let (_, c) ← cfgWrite c sectionName entry valptr
      let ((ret, _), file) := cfgCommit sys file c
      .ok (ret, file)

/-- `Cfg_WriteStr`: its result and the file. -/
def cfgWriteStr (sys : SysCalls) (file : Option FileData) (sectionName entry valptr : Option Bytes)
    : Checked (Int × Option FileData) := setStr sys file sectionName entry valptr

/-- `ini_setstr`: its result and the file. It ignores its argument `bLock`. -/
def iniSetstr (sys : SysCalls) (file : Option FileData) (key val : Option Bytes)
    : Checked (Int × Option FileData) := setStr sys file none key val

/-- `Cfg_ReadStr`: its result and the text that it delivers. -/
def cfgReadStr (sys : SysCalls) (file : Option FileData) (sectionName entry : Option Bytes)
    (defval : Bytes)
    : Checked (Int × Bytes) := do
  let ((ret, pCfg), _) ← cfgInit sys file false
  match pCfg with
  | none => .ok (ret, defval)
  | some c => do
      let (result, _) ← cfgGetstring2 c sectionName entry defval
      .ok result

/-- `ini_getstr`: its result and the text that it delivers, if it delivers one. -/
def iniGetstr (sys : SysCalls) (file : Option FileData) (key : Option Bytes)
    : Checked (Int × Option Bytes) := do
  let ((ret, pCfg), _) ← cfgInit sys file false
  match pCfg with
  | none => .ok (ret, none)
  | some c => do
      let ((ret, val), _) ← cfgGetstring c none key
      .ok (ret, some val)

end Cvos.CfgFile

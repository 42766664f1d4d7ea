import Cvos.Lib.CBuffer
import Cvos.Timer.DateTime
import Mathlib.Logic.Function.Basic

/-! The log of `logfile.c`: a file that lines are appended to, until it is so large that it is
renamed to a name with the time in it.
-/

namespace Cvos.LogFile

open Cvos.Lib
open Cvos.Timer (Tm)

/-- `LOG_LINE_LIMIT` -/
def logLineLimit : Nat := 1000

/-- The files by their names. -/
abbrev Files := Bytes → Option Bytes

/-- `fGetSize` -/
def fGetSize (files : Files) (filename : Bytes) : Nat := (files filename).elim 0 List.length

/-- `rename`, which replaces a file that has the new name. -/
def rename (files : Files) (oldname newname : Bytes) : Files :=
  match files oldname with
  | none => files
  | some contents =>
      Function.update (Function.update files newname (some contents)) oldname none

/-- The modes of `fopen`. -/
inductive OpenMode where
  | truncate
  | append
  deriving DecidableEq, Repr

/-- `fputs` to a file that was opened. -/
def fputs (files : Files) (filename : Bytes) (mode : OpenMode) (line : Bytes) : Files :=
  match mode with
  | .truncate => Function.update files filename (some line)
  | .append => Function.update files filename (some ((files filename).getD [] ++ line))

/-- A string that fits into an array of the given size, with its NUL. -/
def fits (size : Nat) (text : Bytes) : Checked Bytes :=
  if text.length < size then .ok text else .error .outOfBounds

/-- What `sprintf` writes for a decimal number that is padded with zeros. -/
def paddedDecimal (width : Nat) (n : Int) : Bytes :=
  let digits := (Nat.toDigits 10 n.natAbs).map Char.toUInt8
  if n < 0 then
    '-'.toUInt8 :: (List.replicate (width - 1 - digits.length) '0'.toUInt8 ++ digits)
  else
    List.replicate (width - digits.length) '0'.toUInt8 ++ digits

/-- The day, as it stands in lines and in names. -/
def dayStamp (tm : Tm) : Bytes :=
  paddedDecimal 4 (tm.tmYear + 1900) ++ paddedDecimal 2 (tm.tmMon + 1)
    ++ paddedDecimal 2 tm.tmMday

/-- A line with the time before it. -/
def stamped (tm : Tm) (sLine : Bytes) : Bytes :=
  dayStamp tm ++ '-'.toUInt8 :: (paddedDecimal 2 tm.tmHour ++ ':'.toUInt8
    :: (paddedDecimal 2 tm.tmMin ++ ':'.toUInt8 :: (paddedDecimal 2 tm.tmSec
      ++ ' '.toUInt8 :: sLine)))

/-- The name of a file with the time behind it. -/
def rotatedName (fullFileName : Bytes) (tm : Tm) : Bytes :=
  fullFileName ++ '-'.toUInt8 :: (dayStamp tm ++ '-'.toUInt8 :: (paddedDecimal 2 tm.tmHour
    ++ paddedDecimal 2 tm.tmMin ++ paddedDecimal 2 tm.tmSec))

/-- The part of `Log_MsgLine2` before the file is opened: the mode and the files. -/
def rotate (tm : Tm) (fullFileName : Bytes) (fileSizeLimit : Nat) (files : Files)
    : Checked (OpenMode × Files) :=
  let fSize := fGetSize files fullFileName
  if fSize = 0 then
    .ok (.truncate, files)
  else if fSize ≥ fileSizeLimit then do
    let destFilename ← fits 128 (rotatedName fullFileName tm)
    .ok (.truncate, rename files fullFileName destFilename)
  else
    .ok (.append, files)

/-- A call: the time, the line, the limit, and whether the file can be opened. -/
structure Call where
  timep : Int
  sLine : Bytes
  fileSizeLimit : Nat
  opened : Bool
  deriving DecidableEq, Repr

/-- `Log_MsgLine2` for a directory and a name: its result and the files. A line that cannot be
written is still counted.
-/
def logMsgLine2 (localtime : Int → Tm) (dir fileName : Bytes) (c : Call) (files : Files)
    : Checked (Int × Files) :=
  if c.fileSizeLimit = 0 then
    .ok (-1, files)
  else if int32 c.sLine.length > logLineLimit then
    .ok (-2, files)
  else do
    let gsLine ← fits (logLineLimit + 32) (stamped (localtime c.timep) c.sLine)
    let fullFileName ← fits 128 (dir ++ '/'.toUInt8 :: fileName)
    let (mode, files) ← rotate (localtime c.timep) fullFileName c.fileSizeLimit files
    if c.opened then
      .ok (gsLine.length, fputs files fullFileName mode gsLine)
    else
      .ok (int32 c.sLine.length, files)

end Cvos.LogFile

import Cvos.CfgFile.FileApi

/-! Printing a configuration in columns: the text that `cfg_copy` writes to another file. -/

namespace Cvos.CfgFile

open Cvos.Lib

/-- The loop over `j` in `_cfg_outputformatted`: the length of the longest id before the next
header.
-/
def keyWidth : List Entry → Nat
  | [] => 0
  | e :: rest =>
      if e.sectionName.isSome then 0 else max ((e.id.map List.length).getD 0) (keyWidth rest)

/-- What `fprintf` writes for an id of `%-*.*s` with the width `m`, which is not used when it is 0.
-/
def padKey (m : Nat) (id : Bytes) : Bytes :=
  if m = 0 then id else id.take m ++ List.replicate (m - id.length) (ch ' ')

/-- The line that `_cfg_outputformatted` prints for an entry, without its end. -/
def printFormatted (m : Nat) (e : Entry) : Bytes :=
  match e.sectionName, e.id, e.value with
  | some sectionName, _, _ => ch '[' :: (sectionName ++ ch ']' :: printComment e.comment)
  | none, some id, some value => padKey m id ++ text " = " ++ (value ++ printComment e.comment)
  | none, none, some value => text "  " ++ (value ++ printComment e.comment)
  | none, _, none =>
      match e.comment with
      | some comment => ch ';' :: comment
      | none => []

/-- The loop of `_cfg_outputformatted`; `m` is the length of the longest id of the section, and
`skip` says that a header was printed, and that no blank line stands in front of the next one yet.
-/
def outputformattedFrom (m : Nat) (skip : Bool) : List Entry → Bytes
  | [] => []
  | e :: rest =>
      if e.isHeader then
        (if skip then [ch '\n'] else []) ++ printFormatted m e
          ++ ch '\n' :: outputformattedFrom (keyWidth rest) true rest
      else if e.isCommentOnly && skip && startsBlock (e.comment.getD []) && headerAhead rest then
        ch '\n' :: (printFormatted m e ++ ch '\n' :: outputformattedFrom m false rest)
      else
        printFormatted m e ++ ch '\n' :: outputformattedFrom m skip rest

/-- `_cfg_outputformatted` -/
def cfgOutputformatted (c : Config) : Bytes := outputformattedFrom 0 false c.pool.entries

/-- `cfg_copy`: its result and the other file, which it does not create. -/
def cfgCopy (sys : SysCalls) (newfile : Option FileData) (c : Config) : Int × Option FileData :=
  if !c.valid then
    (-1, newfile)
  else if newfile.isNone || !sys.openWrite then
    (-4, newfile)
  else if !sys.writeLock then
    (-100, newfile)
  else if !sys.fopen then
    (-2, newfile)
  else
    (0, some ⟨cfgOutputformatted c, sys.time⟩)

end Cvos.CfgFile

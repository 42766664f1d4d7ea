import Cvos.CfgFile.Entry

/-! Printing a configuration: the text that `cfg_commit` writes to the file. -/

namespace Cvos.CfgFile

open Cvos.Lib

/-- The comment at the end of a line. -/
def printComment : Option Bytes → Bytes
  | none => []
  | some comment => ch '\t' :: ch ';' :: comment

/-- The line that `_cfg_output` prints for an entry, without its end. A continuation is not
indented, unlike in `_cfg_outputformatted`.
-/
def printEntry (e : Entry) : Bytes :=
  match e.sectionName, e.id, e.value with
  | some sectionName, _, _ => ch '[' :: (sectionName ++ ch ']' :: printComment e.comment)
  | none, some id, some value => id ++ ch '=' :: (value ++ printComment e.comment)
  | none, none, some value => value ++ printComment e.comment
  | none, _, none =>
      match e.comment with
      | some comment => ch ';' :: comment
      | none => []

/-- The loop over `j` in `_cfg_output`: a header comes before the next entry with an id or a
value.
-/
def headerAhead : List Entry → Bool
  | [] => false
  | e :: rest =>
      if e.sectionName.isSome then true
      else if e.id.isSome || e.value.isSome then false
      else headerAhead rest

/-- The entry only has a comment. -/
def CfgEntry.isCommentOnly (e : Entry) : Bool :=
  e.sectionName.isNone && e.value.isNone && e.comment.isSome

/-- The loop of `_cfg_output`; `skip` says that a header was printed, and that no blank line
stands in front of the next one yet. The length `m` of the longest key is not used.
-/
def outputFrom (skip : Bool) : List Entry → Bytes
  | [] => []
  | e :: rest =>
      if e.isHeader then
        (if skip then [ch '\n'] else []) ++ printEntry e ++ ch '\n' :: outputFrom true rest
      else if e.isCommentOnly && skip && startsBlock (e.comment.getD []) && headerAhead rest then
        ch '\n' :: (printEntry e ++ ch '\n' :: outputFrom false rest)
      else
        printEntry e ++ ch '\n' :: outputFrom skip rest

/-- `_cfg_output` -/
def cfgOutput (c : Config) : Bytes := outputFrom false c.pool.entries

end Cvos.CfgFile

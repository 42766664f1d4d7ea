import Cvos.Lib.Transition
import Cvos.LogFile.Model

/-! Which lines of the log are still there after the file was renamed any number of times. -/

namespace Cvos.LogFile

open Cvos.Lib
open Cvos.Timer (Tm)

/-- The files, and the lines with their times that calls have reported as written. -/
structure State where
  files : Files
  written : List Bytes

variable (localtime : Int → Tm) (dir fileName : Bytes)

/-- The name of the active file. -/
def activeName : Bytes := dir ++ '/'.toUInt8 :: fileName

/-- What a call makes of the state. A positive result reports the line as written. -/
inductive Step : State → Call → State → Prop
  | call {s c ret files}
    (returned : logMsgLine2 localtime dir fileName c s.files = .ok (ret, files))
    : Step s c ⟨files, if 0 < ret then s.written ++ [stamped (localtime c.timep) c.sLine]
        else s.written⟩

/-- A name of the active file or of one that was rotated. -/
def IsLogName (name : Bytes) : Prop :=
  name = activeName dir fileName
  ∨ ∃ timep, name = rotatedName (activeName dir fileName) (localtime timep)

/-- A line that is in the active file or in a rotated one. -/
def Kept (line : Bytes) (files : Files) : Prop :=
  ∃ name contents,
    IsLogName localtime dir fileName name ∧ files name = some contents ∧ line <:+: contents

/-- Every line that is reported as written is kept. -/
def NoneLost (s : State) : Prop := ∀ line ∈ s.written, Kept localtime dir fileName line s.files

/-- The condition on a call: the file can be opened, and where it is rotated, there is no file of
the new name yet.
-/
structure Harmless (s : State) (c : Call) : Prop where
  opened : c.opened = true
  unused
    : 0 < fGetSize s.files (activeName dir fileName)
      → c.fileSizeLimit ≤ fGetSize s.files (activeName dir fileName)
      → s.files (rotatedName (activeName dir fileName) (localtime c.timep)) = none

variable {localtime dir fileName}

-----------------------------------------------------------------------------------------
-- What the operations on files keep
-----------------------------------------------------------------------------------------

/-- A rotated file has another name. -/
theorem rotatedName_ne (name : Bytes) (tm : Tm) : rotatedName name tm ≠ name := by
  intro same
  have length := congrArg List.length same
  simp [rotatedName] at length

/-- A string that fits is taken as it is. -/
theorem fits_eq_ok {size : Nat} {text text' : Bytes} (fit : fits size text = .ok text')
    : text' = text := by
  unfold fits at fit
  split at fit
  · cases fit
    rfl
  · cases fit

/-- Writing to a file leaves the other ones alone. -/
theorem fputs_of_ne {name filename : Bytes} (other : name ≠ filename) {files : Files}
    {mode : OpenMode} {line : Bytes}
    : fputs files filename mode line name = files name := by
  cases mode <;> exact Function.update_of_ne other _ _

/-- Renaming a file leaves the files of other names alone. -/
theorem rename_of_ne {name oldname newname : Bytes} (old : name ≠ oldname) (new : name ≠ newname)
    {files : Files}
    : rename files oldname newname name = files name := by
  unfold rename
  cases files oldname with
  | none => rfl
  | some contents => exact (Function.update_of_ne old _ _).trans (Function.update_of_ne new _ _)

/-- A line that is written is in the active file. -/
theorem kept_fputs (files : Files) (mode : OpenMode) (line : Bytes)
    : Kept localtime dir fileName line (fputs files (activeName dir fileName) mode line) := by
  cases mode with
  | truncate => exact ⟨_, _, .inl rfl, Function.update_self .., List.infix_rfl⟩
  | append =>
      exact ⟨_, _, .inl rfl, Function.update_self .., (List.suffix_append _ line).isInfix⟩

/-- Appending to the active file keeps every line. -/
theorem Kept.append {line : Bytes} {files : Files} (kept : Kept localtime dir fileName line files)
    (other : Bytes)
    : Kept localtime dir fileName line
        (fputs files (activeName dir fileName) .append other) := by
  obtain ⟨name, contents, isLog, found, within⟩ := kept
  by_cases active : name = activeName dir fileName
  · subst active
    refine ⟨_, _, .inl rfl, Function.update_self .., ?_⟩
    rw [found]
    exact within.trans (List.prefix_append contents other).isInfix
  · exact ⟨name, contents, isLog, by rw [fputs_of_ne active, found], within⟩

/-- Truncating the active file keeps every line if nothing is in it. -/
theorem Kept.truncate {line : Bytes} {files : Files}
    (kept : Kept localtime dir fileName line files)
    (empty : fGetSize files (activeName dir fileName) = 0) (other : Bytes)
    : Kept localtime dir fileName line
        (fputs files (activeName dir fileName) .truncate other) := by
  obtain ⟨name, contents, isLog, found, within⟩ := kept
  by_cases active : name = activeName dir fileName
  · subst active
    have nothing : contents = [] := by simpa [fGetSize, found] using empty
    rw [nothing] at within
    exact ⟨_, _, .inl rfl, Function.update_self ..,
      within.trans (List.nil_prefix).isInfix⟩
  · exact ⟨name, contents, isLog, by rw [fputs_of_ne active, found], within⟩

/-- Renaming the active file keeps every line if the new name is not in use: its lines are then in
the rotated file.
-/
theorem Kept.rename {line : Bytes} {files : Files} (kept : Kept localtime dir fileName line files)
    {timep : Int}
    (unused : files (rotatedName (activeName dir fileName) (localtime timep)) = none)
    : Kept localtime dir fileName line
        (rename files (activeName dir fileName)
          (rotatedName (activeName dir fileName) (localtime timep))) := by
  obtain ⟨name, contents, isLog, found, within⟩ := kept
  by_cases active : name = activeName dir fileName
  · subst active
    refine ⟨_, contents, .inr ⟨timep, rfl⟩, ?_, within⟩
    have apart := rotatedName_ne (activeName dir fileName) (localtime timep)
    rw [LogFile.rename, found]
    dsimp only
    rw [Function.update_of_ne apart, Function.update_self]
  · have other : name ≠ rotatedName (activeName dir fileName) (localtime timep) := by
      rintro rfl
      simp [unused] at found
    exact ⟨name, contents, isLog, by rw [rename_of_ne active other, found], within⟩

/-- After the active file was renamed there is none. -/
theorem fGetSize_rename (files : Files) {oldname newname : Bytes}
    : fGetSize (rename files oldname newname) oldname = 0 := by
  unfold rename fGetSize
  cases old : files oldname with
  | none => simp [old]
  | some contents => simp

/-- Preparing the active file and writing to it keeps every line, if the new name is not in use
where it is rotated.
-/
theorem Kept.written {line : Bytes} {files files' : Files} {timep : Int} {fileSizeLimit : Nat}
    {mode : OpenMode} (kept : Kept localtime dir fileName line files)
    (unused
      : 0 < fGetSize files (activeName dir fileName)
        → fileSizeLimit ≤ fGetSize files (activeName dir fileName)
        → files (rotatedName (activeName dir fileName) (localtime timep)) = none)
    (rotated
      : rotate (localtime timep) (activeName dir fileName) fileSizeLimit files
        = .ok (mode, files'))
    (other : Bytes)
    : Kept localtime dir fileName line
        (fputs files' (activeName dir fileName) mode other) := by
  unfold rotate at rotated
  dsimp only at rotated
  split at rotated
  next empty =>
    cases rotated
    exact kept.truncate empty other
  next filled =>
    split at rotated
    next full =>
      obtain ⟨destFilename, fit, moved⟩ := Checked.bind_eq_ok.mp rotated
      cases fits_eq_ok fit
      cases moved
      exact (kept.rename (unused (Nat.pos_of_ne_zero filled) full)).truncate
        (fGetSize_rename files) other
    next =>
      cases rotated
      exact kept.append other

-----------------------------------------------------------------------------------------
-- Runs
-----------------------------------------------------------------------------------------

/-- A call that meets the condition loses no line. -/
theorem Step.noneLost {s s' : State} {c : Call} (step : Step localtime dir fileName s c s')
    (harmless : Harmless localtime dir fileName s c) (noneLost : NoneLost localtime dir fileName s)
    : NoneLost localtime dir fileName s' := by
  obtain ⟨returned⟩ := step
  unfold logMsgLine2 at returned
  split at returned
  next =>
    cases returned
    exact noneLost
  next =>
    split at returned
    next =>
      cases returned
      exact noneLost
    next =>
      simp only [Checked.bind_eq_ok] at returned
      obtain ⟨gsLine, lineFit, fullFileName, nameFit, ⟨mode, files'⟩, rotated, stored⟩ := returned
      cases fits_eq_ok lineFit
      cases fits_eq_ok nameFit
      rw [if_pos harmless.opened] at stored
      cases stored
      have kept {line} (member : line ∈ s.written) :=
        (noneLost line member).written harmless.unused rotated
          (stamped (localtime c.timep) c.sLine)
      intro line member
      split at member
      · rcases List.mem_append.mp member with earlier | now
        · exact kept earlier
        · rw [List.mem_singleton.mp now]
          exact kept_fputs ..
      · exact kept member

/-- In a run whose calls meet the condition, no line is lost that is reported as written. -/
theorem noLineLost_of_harmless {files : Files} {trace : List (State × Call)} {s : State}
    (run : Run (Step localtime dir fileName) ⟨files, []⟩ trace s)
    (harmless : ∀ taken ∈ trace, Harmless localtime dir fileName taken.1 taken.2)
    : NoneLost localtime dir fileName s := by
  refine run.invariant (NoneLost localtime dir fileName) ?_ ?_
  · intro line member
    cases member
  · intro current c next member step noneLost
    exact step.noneLost (harmless _ member) noneLost

/-- A clock in a minute of the first of January 2024. -/
def firstMinute (timep : Int) : Tm := ⟨124, 0, 1, 0, 0, timep⟩

/-- Witness: a line, a rotation with the next line, and a third line behind it. -/
theorem noneLost_rotated
    : ∃ trace s,
        Run (Step firstMinute ['d'.toUInt8] ['f'.toUInt8]) ⟨fun _ => none, []⟩ trace s
        ∧ trace.map Prod.snd
          = [⟨0, ['a'.toUInt8], 1, true⟩, ⟨1, ['b'.toUInt8], 1, true⟩,
            ⟨1, ['c'.toUInt8], 100, true⟩]
        ∧ NoneLost firstMinute ['d'.toUInt8] ['f'.toUInt8] s := by
  have first := Run.start.extend (@Step.call firstMinute ['d'.toUInt8] ['f'.toUInt8]
    ⟨fun _ => none, []⟩ ⟨0, ['a'.toUInt8], 1, true⟩ _ _ rfl)
  have second := first.extend (@Step.call _ _ _ _ ⟨1, ['b'.toUInt8], 1, true⟩ _ _ rfl)
  have run := second.extend (@Step.call _ _ _ _ ⟨1, ['c'.toUInt8], 100, true⟩ _ _ rfl)
  refine ⟨_, _, run, rfl, noLineLost_of_harmless run ?_⟩
  simp only [List.nil_append, List.cons_append, List.forall_mem_cons, List.not_mem_nil,
    false_implies, implies_true, and_true]
  refine ⟨⟨rfl, fun _ _ => rfl⟩, ⟨rfl, fun _ _ => by decide⟩, ⟨rfl, ?_⟩⟩
  intro _ full
  revert full
  decide

/-- Of three lines in the same second, each of which is too long for the file to be kept, the first
one is lost: the second rotation replaces the file of the first one.
-/
theorem not_noneLost_sameSecond
    : ∃ trace s,
        Run (Step firstMinute ['d'.toUInt8] ['f'.toUInt8]) ⟨fun _ => none, []⟩ trace s
        ∧ trace.map Prod.snd
          = [⟨0, ['a'.toUInt8], 1, true⟩, ⟨0, ['b'.toUInt8], 1, true⟩,
            ⟨0, ['c'.toUInt8], 1, true⟩]
        ∧ ¬NoneLost firstMinute ['d'.toUInt8] ['f'.toUInt8] s := by
  have first := Run.start.extend (@Step.call firstMinute ['d'.toUInt8] ['f'.toUInt8]
    ⟨fun _ => none, []⟩ ⟨0, ['a'.toUInt8], 1, true⟩ _ _ rfl)
  have second := first.extend (@Step.call _ _ _ _ ⟨0, ['b'.toUInt8], 1, true⟩ _ _ rfl)
  have run := second.extend (@Step.call _ _ _ _ ⟨0, ['c'.toUInt8], 1, true⟩ _ _ rfl)
  refine ⟨_, _, run, rfl, ?_⟩
  intro noneLost
  obtain ⟨name, contents, -, found, within⟩ :=
    noneLost (stamped (firstMinute 0) ['a'.toUInt8]) (by decide)
  by_cases active : name = activeName ['d'.toUInt8] ['f'.toUInt8]
  · subst active
    cases found
    revert within
    decide
  · by_cases rotated : name = rotatedName (activeName ['d'.toUInt8] ['f'.toUInt8]) (firstMinute 0)
    · subst rotated
      cases found
      revert within
      decide
    · unfold activeName at active rotated
      dsimp only at found
      rw [fputs_of_ne active, rename_of_ne active rotated, fputs_of_ne active,
        rename_of_ne active rotated, fputs_of_ne active] at found
      cases found

end Cvos.LogFile

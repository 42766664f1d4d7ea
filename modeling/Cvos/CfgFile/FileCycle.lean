import Cvos.CfgFile.FileApi
import Cvos.CfgFile.Lookup
import Cvos.CfgFile.ParseRefinement
import Cvos.CfgFile.WriteEffect

/-! One call on a configuration file: the entries it finds in the file, and the text it leaves
there.
-/

namespace Cvos.CfgFile

open Cvos.Lib

/-- The bytes of a file, of which a file that does not exist yet has none. -/
def contentOf (file : Option FileData) : Bytes := (file.map FileData.content).getD []

/-- The arguments of a `Cfg_WriteStr`. -/
structure Write where
  sectionName : Bytes
  entry : Bytes
  valptr : Bytes
  deriving DecidableEq, Repr

/-- The section and key that are written. -/
def Write.target (w : Write) : Bytes × Bytes := (w.sectionName, w.entry)

/-- The second text is what `Cfg_WriteStr` makes of the first one. -/
def Rewritten (w : Write) (content content' : Bytes) : Prop :=
  ∃ c ret c',
    Parsed content c
    ∧ cfgWrite c (some w.sectionName) (some w.entry) (some w.valptr) = .ok (ret, c')
    ∧ content' = cfgOutput c'

/-- What holds of a configuration and is kept by `cfg_nextentry` holds when a search ends, and the
search returns 0 or -1.
-/
theorem findLoop_rule (holds : Config → Prop)
    (keeps : ∀ c, holds c → holds (cfgNextentry c).2) {sectionName id : Option Bytes} {bound : Nat}
    {atsection : Bool} {c c' : Config} {ret : Int} (initial : holds c)
    (found : findLoop sectionName id bound atsection c = .ok (ret, c'))
    : (ret = 0 ∨ ret = -1) ∧ holds c' := by
  have answer {r : Int} {d : Config} (known : r = 0 ∨ r = -1) (reached : holds d)
      (same : (.ok (r, d) : Checked (Int × Config)) = .ok (ret, c'))
      : (ret = 0 ∨ ret = -1) ∧ holds c' := by
    obtain ⟨rfl, rfl⟩ := Prod.mk.inj (Except.ok.inj same)
    exact ⟨known, reached⟩
  induction bound generalizing atsection c with
  | zero => simp [findLoop] at found
  | succ bound ih =>
      have kept := keeps c initial
      rw [findLoop] at found
      split at found
      next c₁ moved =>
        rw [moved] at kept
        split at found
        next =>
          split at found
          next => exact answer (Or.inr rfl) kept found
          next =>
            split at found
            next =>
              cases same : sameKey c₁ id with
              | error fault => simp [same] at found
              | ok bSame =>
                  rw [same, Checked.ok_bind] at found
                  split at found
                  next => exact answer (Or.inl rfl) kept found
                  next => exact ih kept found
            next => exact ih kept found
        next =>
          have either (opens : Bool)
              (found
                : (if (opens && id.isNone) = true then (.ok (0, c₁) : Checked (Int × Config))
                    else findLoop sectionName id bound (opens || sectionName.isNone) c₁)
                  = .ok (ret, c'))
              : (ret = 0 ∨ ret = -1) ∧ holds c' := by
            split at found
            next => exact answer (Or.inl rfl) kept found
            next => exact ih kept found
          by_cases header : c₁.type = .cfgSection
          · cases same : strcmpEq c₁.sectionName sectionName with
            | error fault => simp [header, same] at found
            | ok opens => exact either opens (by simpa [header, same] using found)
          · exact either false (by simpa [header] using found)
      next _ c₁ _ moved =>
        rw [moved] at kept
        exact answer (Or.inr rfl) kept found

/-- `cfg_find` returns 0 or -1. -/
theorem cfgFind_ret {c c' : Config} {sectionName id : Option Bytes} {ret : Int}
    (found : cfgFind c sectionName id = .ok (ret, c'))
    : ret = 0 ∨ ret = -1 := by
  rw [cfgFind] at found
  split at found
  next => exact (findLoop_rule (fun _ => True) (fun _ _ => trivial) trivial found).1
  next =>
    obtain ⟨rfl, -⟩ := Prod.mk.inj (Except.ok.inj found)
    exact Or.inr rfl

/-- What a search finds is the value at which `cfg_find` stands when it returns 0. -/
theorem findValue_eq_ok {c : Config} {sectionName id : Option Bytes} {value : Option (Option Bytes)}
    (found : findValue c sectionName id = .ok value)
    : ∃ ret c',
        cfgFind c sectionName id = .ok (ret, c')
        ∧ (if ret = 0 then some c'.value else none) = value := by
  obtain ⟨⟨ret, c'⟩, search, same⟩ := Checked.bind_eq_ok.mp found
  exact ⟨ret, c', search, Except.ok.inj same⟩

/-- A search that finds a value returns 0 and stands at the value. -/
theorem cfgFind_some {c : Config} {sectionName id : Option Bytes} {value : Option Bytes}
    (found : findValue c sectionName id = .ok (some value))
    : ∃ c', cfgFind c sectionName id = .ok (0, c') ∧ c'.value = value := by
  obtain ⟨ret, c', search, same⟩ := findValue_eq_ok found
  split at same
  next zero =>
    subst zero
    exact ⟨c', search, Option.some.inj same⟩
  next => contradiction

/-- A search that finds nothing returns -1. -/
theorem cfgFind_none {c : Config} {sectionName id : Option Bytes}
    (found : findValue c sectionName id = .ok none)
    : ∃ c', cfgFind c sectionName id = .ok (-1, c') := by
  obtain ⟨ret, c', search, same⟩ := findValue_eq_ok found
  split at same
  next => contradiction
  next other =>
    obtain rfl := (cfgFind_ret search).resolve_left other
    exact ⟨c', search⟩

/-- `_cfg_parse` returns 0. -/
theorem cfgParse_ret {c c' : Config} {ret : Int} (parsed : cfgParse c = .ok (ret, c'))
    : ret = 0 := by
  rw [cfgParse] at parsed
  split at parsed
  next => exact (Prod.mk.inj (Except.ok.inj parsed)).1.symm
  next =>
    split at parsed
    next =>
      split at parsed
      next => exact (Prod.mk.inj (Except.ok.inj parsed)).1.symm
      next => contradiction
    next mem read =>
      cases loop : parseLoop c.size c.size 0 mem with
      | error fault => simp [loop] at parsed
      | ok result =>
          rw [loop, Checked.ok_bind] at parsed
          exact (Prod.mk.inj (Except.ok.inj parsed)).1.symm

/-- The file looks as it did when it was read: it has the size and the time that are recorded. -/
structure Recorded (f : FileData) (c : Config) : Prop where
  image : c.image.isSome
  size : f.content.length = c.size
  mtime : f.mtime = c.mtime

/-- `cfg_refresh` comes as far as to look at the size and the time. -/
def SysCalls.stats (sys : SysCalls) : Prop :=
  sys.openRead = true ∧ sys.readLock = true ∧ sys.fstat = true

/-- `cfg_refresh` fails and drops the image, takes the file for unchanged, or parses it. -/
theorem cfgRefresh_cases {sys : SysCalls} {f : FileData} {c c' : Config} {ret : Int}
    (returned : cfgRefresh sys (some f) c = .ok (ret, c'))
    : (ret < 0 ∧ c'.image = none)
      ∨ (ret = 0 ∧ sys.stats ∧ Recorded f c ∧ c' = c)
      ∨ (ret = 0 ∧ Parsed f.content c') := by
  have failed {ret' : Int} {d : Config} (negative : ret' < 0)
      (same : (.ok (refreshFailed ret' d) : Checked (Int × Config)) = .ok (ret, c'))
      : ret < 0 ∧ c'.image = none := by
    obtain ⟨rfl, rfl⟩ := Prod.mk.inj (Except.ok.inj same)
    exact ⟨negative, rfl⟩
  rw [cfgRefresh] at returned
  split at returned
  next => exact .inl (failed (by decide) returned)
  next opened =>
    split at returned
    next => exact .inl (failed (by decide) returned)
    next locked =>
      split at returned
      next => exact .inl (failed (by decide) returned)
      next statted =>
        split at returned
        next unchanged =>
          obtain ⟨rfl, rfl⟩ := Prod.mk.inj (Except.ok.inj returned)
          simp only [Bool.and_eq_true, beq_iff_eq] at unchanged
          exact .inr (.inl ⟨rfl, ⟨by simpa using opened, by simpa using locked,
            by simpa using statted⟩, ⟨unchanged.1.1, unchanged.1.2, unchanged.2⟩, rfl⟩)
        next =>
          dsimp only at returned
          split at returned
          next => exact .inl (failed (by decide) returned)
          next =>
            obtain ⟨⟨parseRet, parsed⟩, result, same⟩ := Checked.bind_eq_ok.mp returned
            obtain rfl := cfgParse_ret result
            obtain ⟨rfl, rfl⟩ := Prod.mk.inj (Except.ok.inj same)
            exact .inr (.inr ⟨rfl, f.mtime, result⟩)

/-- A `cfg_refresh` that returns 0 has parsed the file, when nothing was read before. -/
theorem cfgRefresh_ok {sys : SysCalls} {file : Option FileData} {c : Config}
    (refreshed : cfgRefresh sys file cfgFreeimage = .ok (0, c))
    : file.isSome ∧ Parsed (contentOf file) c := by
  cases file with
  | none => simp [cfgRefresh, refreshFailed] at refreshed
  | some f =>
      rcases cfgRefresh_cases refreshed with ⟨negative, -⟩ | ⟨-, -, recorded, -⟩ | ⟨-, parsed⟩
      · exact absurd negative (by decide)
      · cases recorded.image
      · exact ⟨rfl, parsed⟩

/-- `cfg_init` either returns an error or hands out the configuration parsed from the file. -/
theorem cfgInit_cases {sys : SysCalls} {file file' : Option FileData} {doCreate : Bool} {ret : Int}
    {pCfg : Option Config} (opened : cfgInit sys file doCreate = .ok ((ret, pCfg), file'))
    : ret < 0 ∧ pCfg = none
      ∨ ∃ c, ret = 0 ∧ pCfg = some c ∧ file'.isSome ∧ Parsed (contentOf file) c := by
  rw [cfgInit] at opened
  split at opened
  next =>
    simp only [Except.ok.injEq, Prod.mk.injEq] at opened
    obtain ⟨⟨rfl, rfl⟩, -⟩ := opened
    exact Or.inl ⟨by decide, rfl⟩
  next =>
    have created
        : contentOf (if file.isNone && sys.creat then some ⟨[], sys.time⟩ else file)
          = contentOf file := by
      cases file <;> cases sys.creat <;> rfl
    generalize (if file.isNone && sys.creat then some ⟨[], sys.time⟩ else file) = present at *
    cases refreshed : cfgRefresh sys present cfgFreeimage with
    | error fault => simp [refreshed] at opened
    | ok result =>
        obtain ⟨ret', c⟩ := result
        simp only [refreshed, Checked.ok_bind, Except.ok.injEq, Prod.mk.injEq] at opened
        obtain ⟨result, rfl⟩ := opened
        split at result
        next =>
          obtain ⟨rfl, rfl⟩ := Prod.mk.inj result
          exact Or.inl ⟨by decide, rfl⟩
        next zero =>
          obtain rfl := Classical.not_not.mp zero
          obtain ⟨rfl, rfl⟩ := Prod.mk.inj result
          obtain ⟨exists', parsed⟩ := cfgRefresh_ok refreshed
          exact Or.inr ⟨c, rfl, rfl, exists', created ▸ parsed⟩

/-- When no system call fails, `cfg_init` parses a file without NUL bytes. -/
theorem cfgInit_succeed (file : Option FileData) (doCreate : Bool)
    (nulFree : NulFree (contentOf file)) (time : Nat) (present : file.isSome ∨ doCreate)
    : ∃ c file',
        cfgInit (.succeed time) file doCreate = .ok ((0, some c), file')
        ∧ file'.isSome
        ∧ Parsed (contentOf file) c := by
  have opened (f : FileData) (nulFree : NulFree f.content)
      : ∃ c,
          cfgRefresh (.succeed time) (some f) cfgFreeimage = .ok (0, c)
          ∧ Parsed f.content c := by
    obtain ⟨image', -, parsed⟩ :=
      cfgParse_eq (c := readIn f.content f.mtime) rfl rfl rfl nulFree
    exact ⟨_, by simp [cfgRefresh, SysCalls.succeed, cfgFreeimage, parsed], f.mtime, parsed⟩
  cases file with
  | some f =>
      obtain ⟨c, refreshed, parsed⟩ := opened f nulFree
      exact ⟨c, some f, by simp [cfgInit, refreshed], rfl, parsed⟩
  | none =>
      obtain ⟨c, refreshed, parsed⟩ := opened ⟨[], time⟩ nulFree
      have create : doCreate = true := present.resolve_left (by simp)
      refine ⟨c, some ⟨[], time⟩, ?_, rfl, parsed⟩
      rw [cfgInit, create]
      simp only [Option.isNone_none, Bool.not_true, Bool.and_false, Bool.false_eq_true, if_false,
        SysCalls.succeed, Bool.and_true, if_true] at refreshed ⊢
      rw [refreshed]
      simp

/-- A commit that returns 0 leaves the text of a dirty configuration in the file. -/
theorem cfgCommit_ok {sys : SysCalls} {file file' : Option FileData} {c c' : Config}
    (dirty : c.dirty) (committed : cfgCommit sys file c = ((0, c'), file'))
    : file' = some ⟨cfgOutput c, sys.time⟩ := by
  have failed (ret : Int) (negative : ret < 0) (same : ((ret, c), file) = ((0, c'), file'))
      : file' = some ⟨cfgOutput c, sys.time⟩ := by
    have zero : ret = 0 := (Prod.mk.inj (Prod.mk.inj same).1).1
    omega
  rw [cfgCommit] at committed
  split at committed
  next => exact failed _ (by decide) committed
  next =>
    rw [if_neg (by simp [dirty])] at committed
    split at committed
    next => exact failed _ (by decide) committed
    next =>
      split at committed
      next => exact failed _ (by decide) committed
      next =>
        split at committed
        next => exact failed _ (by decide) committed
        next => exact (Prod.mk.inj committed).2.symm

/-- A write that returns 0 has parsed the file and changed the configuration, and leaves the
text of the configuration in the file when it became dirty.
-/
theorem setStr_ok {sys : SysCalls} {file file' : Option FileData}
    {sectionName entry valptr : Option Bytes}
    (returned : setStr sys file sectionName entry valptr = .ok (0, file'))
    : ∃ c ret c',
        Parsed (contentOf file) c
        ∧ cfgWrite c sectionName entry valptr = .ok (ret, c')
        ∧ (c'.dirty → file' = some ⟨cfgOutput c', sys.time⟩) := by
  rw [setStr] at returned
  cases opened : cfgInit sys file true with
  | error fault => simp [opened] at returned
  | ok result =>
      obtain ⟨⟨ret, pCfg⟩, present⟩ := result
      rw [opened, Checked.ok_bind] at returned
      rcases cfgInit_cases opened with ⟨negative, rfl⟩ | ⟨c, rfl, rfl, exists', parsed⟩
      · obtain ⟨rfl, -⟩ := Prod.mk.inj (Except.ok.inj returned)
        contradiction
      · cases written : cfgWrite c sectionName entry valptr with
        | error fault => simp [written] at returned
        | ok result =>
            obtain ⟨ret', c'⟩ := result
            simp only [written, Checked.ok_bind, Except.ok.injEq, Prod.mk.injEq] at returned
            have committed
                : cfgCommit sys present c' = ((0, (cfgCommit sys present c').1.2), file') :=
              Prod.ext (Prod.ext returned.1 rfl) returned.2
            exact ⟨c, ret', c', parsed, written, fun dirty => cfgCommit_ok dirty committed⟩

/-- A `Cfg_WriteStr` that returns 0 has rewritten the file. -/
theorem rewritten_of_cfgWriteStr {sys : SysCalls} {file file' : Option FileData} {w : Write}
    (returned
      : cfgWriteStr sys file (some w.sectionName) (some w.entry) (some w.valptr) = .ok (0, file'))
    : Rewritten w (contentOf file) (contentOf file') := by
  obtain ⟨c, ret, c', parsed, written, committed⟩ := setStr_ok returned
  obtain ⟨valid, -, -⟩ := parsed.entries parsed.nulFree
  obtain ⟨-, -, dirty, -⟩ := cfgWrite_edited valid written
  refine ⟨c, ret, c', parsed, written, ?_⟩
  rw [committed (dirty rfl rfl)]
  rfl

/-- Rewriting a text edits its entries and prints them. -/
theorem Rewritten.edited {w : Write} {content content' : Bytes}
    (rewritten : Rewritten w content content')
    : ∃ es,
        Edited w.sectionName (parseImage content) (some w.entry) (some w.valptr) es
        ∧ content' = outputFrom false es := by
  obtain ⟨c, ret, c', parsed, written, content'⟩ := rewritten
  obtain ⟨valid, -, entries⟩ := parsed.entries parsed.nulFree
  obtain ⟨-, -, -, edited⟩ := cfgWrite_edited valid written
  exact ⟨c'.pool.entries, entries ▸ edited, content'⟩

/-- When no system call fails, a commit of a dirty configuration returns 0. -/
theorem cfgCommit_succeed {file : Option FileData} (present : file.isSome) {c : Config}
    (valid : c.valid) (dirty : c.dirty) (time : Nat)
    : cfgCommit (.succeed time) file c
      = ((0, { c with dirty := false }), some ⟨cfgOutput c, time⟩) := by
  obtain ⟨f, rfl⟩ := Option.isSome_iff_exists.mp present
  simp [cfgCommit, valid, dirty, SysCalls.succeed]

/-- When no system call fails, a write of a file without NUL bytes parses the file, goes wrong
when `cfg_write` does, and otherwise returns 0 and leaves the text of the configuration in the
file when it became dirty.
-/
theorem setStr_succeed {file : Option FileData} (nulFree : NulFree (contentOf file)) (time : Nat)
    (sectionName entry valptr : Option Bytes)
    : ∃ c,
        Parsed (contentOf file) c
        ∧ (∀ fault,
          cfgWrite c sectionName entry valptr = .error fault
          → setStr (.succeed time) file sectionName entry valptr = .error fault)
        ∧ ∀ ret c',
            cfgWrite c sectionName entry valptr = .ok (ret, c')
            → c'.valid
            → c'.dirty
            → setStr (.succeed time) file sectionName entry valptr
              = .ok (0, some ⟨cfgOutput c', time⟩) := by
  obtain ⟨c, file', opened, present, parsed⟩ :=
    cfgInit_succeed file true nulFree time (Or.inr rfl)
  refine ⟨c, parsed, ?_, ?_⟩
  · intro fault written
    simp [setStr, opened, written]
  · intro ret c' written valid dirty
    simp [setStr, opened, written, cfgCommit_succeed present valid dirty]

/-- When no system call fails, `Cfg_ReadStr` delivers the value of the key in the file. -/
theorem cfgReadStr_eq {f : FileData} (nulFree : NulFree f.content) (time : Nat) (s k defval : Bytes)
    : cfgReadStr (.succeed time) (some f) (some s) (some k) defval
      = .ok (0, (valueIn (parseImage f.content) s k).getD defval) := by
  obtain ⟨c, file', opened, -, parsed⟩ :=
    cfgInit_succeed (some f) false nulFree time (Or.inl rfl)
  obtain ⟨valid, -, entries⟩ := parsed.entries nulFree
  have search := findValue_named valid s (some k)
  rw [entries, lookupIn_eq_valueIn] at search
  rw [cfgReadStr, opened, Checked.ok_bind]
  simp only [cfgGetstring2, contentOf, Option.map_some, Option.getD_some] at search ⊢
  cases value : valueIn (parseImage f.content) s k with
  | none =>
      rw [value, Option.map_none] at search
      obtain ⟨c', found⟩ := cfgFind_none search
      simp [found]
  | some v =>
      rw [value, Option.map_some] at search
      obtain ⟨c', found, delivered⟩ := cfgFind_some search
      simp [found, copyValue, delivered]

/-- `Cfg_ReadStr` delivers the default when there is no file. -/
theorem cfgReadStr_absent (sys : SysCalls) (sectionName entry : Option Bytes) (defval : Bytes)
    : cfgReadStr sys none sectionName entry defval = .ok (-2, defval) := rfl

/-- When no system call fails, `ini_getstr` delivers the value that a search without a section
finds in the file.
-/
theorem iniGetstr_some {f : FileData} (nulFree : NulFree f.content) (time : Nat) (k v : Bytes)
    : iniGetstr (.succeed time) (some f) (some k) = .ok (0, some v)
      ↔ lookupFirst (parseImage f.content) k = .ok (some (some v)) := by
  obtain ⟨c, file', opened, -, parsed⟩ :=
    cfgInit_succeed (some f) false nulFree time (Or.inl rfl)
  obtain ⟨valid, -, entries⟩ := parsed.entries nulFree
  have search := findValue_null valid k
  rw [entries] at search
  rw [iniGetstr, opened, Checked.ok_bind]
  simp only [cfgGetstring, contentOf, Option.map_some, Option.getD_some] at search ⊢
  rw [← search]
  cases found : cfgFind c none (some k) with
  | error fault => simp [findValue, found]
  | ok result =>
      obtain ⟨ret, c'⟩ := result
      rcases cfgFind_ret found with rfl | rfl
      · cases value : c'.value <;> simp [findValue, found, copyValue, value]
      · simp [findValue, found]

end Cvos.CfgFile

import Cvos.CfgFile.FileCycle

/-! What a configuration loses when `cfg_refresh` fails before it has read the file. The image is
forgotten at every failure, and the entries too when the configuration was dirty.
-/

namespace Cvos.CfgFile

open Cvos.Lib

/-- The configuration without its image, as a failed `cfg_refresh` leaves it. -/
def Config.forgotten (c : Config) : Config := { c with image := none, size := 0 }

/-- Every search delivers what it delivered before, and the image is still recorded. -/
structure Keeps (c c' : Config) : Prop where
  searches : ∀ sectionName id, findValue c' sectionName id = findValue c sectionName id
  image : ∀ image, c.image = some image → c'.image = some image

/-- A `cfg_refresh` that fails keeps the configuration. -/
def KeepsOnFailure (sys : SysCalls) (file : Option FileData) (c : Config) : Prop :=
  ∀ ret c', cfgRefresh sys file c = .ok (ret, c') → ret < 0 → Keeps c c'

/-- There is a file, and `cfg_refresh` comes as far as to look at its size and time. -/
def Stats (sys : SysCalls) (file : Option FileData) : Prop := file.isSome ∧ sys.stats

/-- `cfg_refresh` finds the file unchanged, or reads it. -/
def Refreshes (sys : SysCalls) (file : Option FileData) (c : Config) : Prop :=
  Stats sys file ∧ ∀ f ∈ file, Recorded f c ∨ sys.read = true

instance (f : FileData) (c : Config) : Decidable (Recorded f c) :=
  decidable_of_iff (c.image.isSome ∧ f.content.length = c.size ∧ f.mtime = c.mtime)
    ⟨fun both => ⟨both.1, both.2.1, both.2.2⟩, fun same => ⟨same.image, same.size, same.mtime⟩⟩

instance (sys : SysCalls) : Decidable sys.stats :=
  inferInstanceAs (Decidable (sys.openRead = true ∧ sys.readLock = true ∧ sys.fstat = true))

instance (sys : SysCalls) (file : Option FileData) : Decidable (Stats sys file) :=
  inferInstanceAs (Decidable (file.isSome = true ∧ sys.stats))

-----------------------------------------------------------------------------------------
-- The searches do not look at the image
-----------------------------------------------------------------------------------------

theorem nextentryFrom_forgotten (rest : List Entry) (c : Config)
    : nextentryFrom c.forgotten rest
      = ((nextentryFrom c rest).1, (nextentryFrom c rest).2.forgotten) := by
  induction rest generalizing c with
  | nil => rfl
  | cons e rest ih =>
      obtain ⟨sectionName, id, value, comment⟩ := e
      cases sectionName with
      | some name => rfl
      | none =>
          cases value with
          | some value => cases id <;> rfl
          | none => exact ih { c with cursor := c.cursor + 1 }

theorem cfgNextentry_forgotten (c : Config)
    : cfgNextentry c.forgotten = ((cfgNextentry c).1, (cfgNextentry c).2.forgotten) := by
  rw [cfgNextentry, cfgNextentry]
  by_cases ended : (!c.valid || c.eof) = true
  · rw [if_pos ended]
    exact if_pos ended
  · rw [if_neg ended]
    exact (if_neg ended).trans
      (nextentryFrom_forgotten _ { c with type := .cfgError, id := none, value := none })

/-- A search goes the same way without the image, by induction on the entries it may pass. -/
theorem findLoop_forgotten (sectionName id : Option Bytes) (bound : Nat) (atsection : Bool)
    (c : Config)
    : findLoop sectionName id bound atsection c.forgotten
      = (findLoop sectionName id bound atsection c).map fun result =>
          (result.1, result.2.forgotten) := by
  induction bound generalizing atsection c with
  | zero => rfl
  | succ bound ih =>
      rw [findLoop, findLoop, cfgNextentry_forgotten]
      obtain ⟨ret, c⟩ := cfgNextentry c
      by_cases zero : ret = 0
      · subst zero
        have type : c.forgotten.type = c.type := rfl
        have name : c.forgotten.sectionName = c.sectionName := rfl
        have key : sameKey c.forgotten id = sameKey c id := rfl
        simp only [type, name, key]
        split
        next =>
          split
          next => rfl
          next =>
            split
            next =>
              cases sameKey c id with
              | error fault => rfl
              | ok bSame =>
                  rw [Checked.ok_bind, Checked.ok_bind]
                  split
                  next => rfl
                  next => exact ih true c
            next => exact ih true c
        next =>
          have onward (found : Bool)
              : (if (found && id.isNone) = true then (.ok (0, c.forgotten) : Checked (Int × Config))
                  else findLoop sectionName id bound (found || sectionName.isNone) c.forgotten)
                = (if (found && id.isNone) = true then (.ok (0, c) : Checked (Int × Config))
                  else findLoop sectionName id bound (found || sectionName.isNone) c).map
                    fun result => (result.1, result.2.forgotten) := by
            split
            next => rfl
            next => exact ih _ c
          split
          next =>
            cases strcmpEq c.sectionName sectionName with
            | error fault => rfl
            | ok found => exact onward found
          next => exact onward false
      · simp only
        rfl

/-- A search without the image delivers what it delivers with it. -/
theorem findValue_forgotten (c : Config) (sectionName id : Option Bytes)
    : findValue c.forgotten sectionName id = findValue c sectionName id := by
  have search : cfgFind c.forgotten sectionName id
      = (cfgFind c sectionName id).map fun result => (result.1, result.2.forgotten) := by
    cases valid : c.valid with
    | true =>
        rw [cfgFind, cfgFind, cfgRewind, cfgRewind, if_pos valid]
        have again : c.forgotten.valid = true := valid
        rw [if_pos again]
        exact findLoop_forgotten sectionName id _ false
          { c with eof := false, type := .cfgError, cursor := 0 }
    | false => simp [cfgFind, cfgRewind, Config.forgotten, valid, Except.map]
  rw [findValue, findValue, search]
  cases cfgFind c sectionName id with
  | error fault => rfl
  | ok result => rfl

/-- No search finds anything in a configuration that was cleared. -/
theorem findValue_cleared (sectionName id : Option Bytes)
    : findValue cfgFreeimage.forgotten sectionName id = .ok none := rfl

-----------------------------------------------------------------------------------------
-- How a refresh fails
-----------------------------------------------------------------------------------------

variable {sys : SysCalls} {file : Option FileData} {c : Config}

/-- Before the size and the time are known, a failure only forgets the image. -/
theorem cfgRefresh_unopened (unknown : ¬Stats sys file)
    : ∃ ret, ret < 0 ∧ cfgRefresh sys file c = .ok (ret, c.forgotten) := by
  cases file with
  | none => exact ⟨-2, by decide, rfl⟩
  | some f =>
      rw [cfgRefresh]
      split
      next => exact ⟨-2, by decide, rfl⟩
      next opened =>
        split
        next => exact ⟨-100, by decide, rfl⟩
        next locked =>
          split
          next => exact ⟨-3, by decide, rfl⟩
          next statted =>
            refine absurd ⟨rfl, ?_⟩ unknown
            exact ⟨by simpa using opened, by simpa using locked, by simpa using statted⟩

/-- A file that has changed and cannot be read clears a dirty configuration. -/
theorem cfgRefresh_unread {f : FileData} (stats : sys.stats) (changed : ¬Recorded f c)
    (unread : sys.read = false)
    : cfgRefresh sys (some f) c
      = .ok (-4, if c.dirty then cfgFreeimage.forgotten else c.forgotten) := by
  obtain ⟨opened, locked, statted⟩ := stats
  have other : ¬(c.image.isSome && f.content.length == c.size && f.mtime == c.mtime) = true := by
    intro same
    simp only [Bool.and_eq_true, beq_iff_eq] at same
    exact changed ⟨same.1.1, same.1.2, same.2⟩
  simp only [cfgRefresh, opened, locked, statted, unread, Bool.not_true, Bool.false_eq_true,
    if_false, Bool.not_false, if_true]
  rw [if_neg other]
  cases c.dirty <;> rfl

/-- A file that is unchanged, or can be read, is not a failure. -/
theorem cfgRefresh_refreshes (refreshes : Refreshes sys file c) {ret : Int} {c' : Config}
    (returned : cfgRefresh sys file c = .ok (ret, c'))
    : ¬ret < 0 := by
  obtain ⟨⟨present, opened, locked, statted⟩, current⟩ := refreshes
  obtain ⟨f, rfl⟩ := Option.isSome_iff_exists.mp present
  simp only [cfgRefresh, opened, locked, statted, Bool.not_true, Bool.false_eq_true, if_false]
    at returned
  split at returned
  next =>
    obtain ⟨rfl, -⟩ := Prod.mk.inj (Except.ok.inj returned)
    decide
  next other =>
    have read : sys.read = true := by
      refine (current f rfl).resolve_left ?_
      intro recorded
      simp [recorded.image, recorded.size, recorded.mtime] at other
    simp only [read, Bool.not_true, Bool.false_eq_true, if_false] at returned
    obtain ⟨⟨parseRet, parsed⟩, result, same⟩ := Checked.bind_eq_ok.mp returned
    obtain rfl := cfgParse_ret result
    obtain ⟨rfl, -⟩ := Prod.mk.inj (Except.ok.inj same)
    decide

-----------------------------------------------------------------------------------------
-- What a failure keeps
-----------------------------------------------------------------------------------------

/-- What a refresh keeps when it fails depends on what it returns. -/
theorem keepsOnFailure_of_failed {ret : Int} {c' : Config}
    (returned : cfgRefresh sys file c = .ok (ret, c')) (negative : ret < 0)
    : KeepsOnFailure sys file c ↔ Keeps c c' := by
  constructor
  · intro keeps
    exact keeps ret c' returned negative
  · intro kept ret' c'' returned' _
    obtain ⟨rfl, rfl⟩ := Prod.mk.inj (Except.ok.inj (returned.symm.trans returned'))
    exact kept

/-- A configuration that is kept although its image is forgotten had none. -/
theorem Keeps.unrecorded {c' : Config} (kept : Keeps c c') (forgotten : c'.image = none)
    : c.image = none := by
  cases recorded : c.image with
  | none => rfl
  | some image => cases forgotten.symm.trans (kept.image image recorded)

/-- What only forgets its image keeps everything exactly when no image was recorded. -/
theorem keeps_forgotten_iff : Keeps c c.forgotten ↔ c.image = none := by
  constructor
  · intro kept
    exact kept.unrecorded rfl
  · intro none
    refine ⟨findValue_forgotten c, ?_⟩
    intro image recorded
    rw [none] at recorded
    cases recorded

/-- What is cleared keeps everything exactly when no image was recorded and nothing was found. -/
theorem keeps_cleared_iff
    : Keeps c cfgFreeimage.forgotten
      ↔ c.image = none ∧ ∀ sectionName id, findValue c sectionName id = .ok none := by
  constructor
  · intro kept
    exact ⟨kept.unrecorded rfl, fun sectionName id => (kept.searches sectionName id).symm⟩
  · rintro ⟨none, nothing⟩
    constructor
    · intro sectionName id
      rw [findValue_cleared, nothing]
    · intro image recorded
      rw [none] at recorded
      cases recorded

/-- A refresh that fails keeps the configuration exactly when it does not fail, or no image was
recorded and nothing could be found in it, if it is one that is cleared.
-/
theorem keepsOnFailure_iff (sys : SysCalls) (file : Option FileData) (c : Config)
    : KeepsOnFailure sys file c
      ↔ Refreshes sys file c
        ∨ (c.image = none
          ∧ (Stats sys file
            → c.dirty = true
            → ∀ sectionName id, findValue c sectionName id = .ok none)) := by
  by_cases refreshes : Refreshes sys file c
  · refine iff_of_true ?_ (.inl refreshes)
    intro ret c' returned negative
    exact absurd negative (cfgRefresh_refreshes refreshes returned)
  rw [or_iff_right refreshes]
  by_cases known : Stats sys file
  case neg =>
    obtain ⟨ret, negative, returned⟩ := @cfgRefresh_unopened sys file c known
    rw [keepsOnFailure_of_failed returned negative, keeps_forgotten_iff]
    exact ⟨fun none => ⟨none, fun stats => absurd stats known⟩, And.left⟩
  obtain ⟨f, rfl⟩ := Option.isSome_iff_exists.mp known.1
  have changed : ¬Recorded f c := by
    intro recorded
    refine refreshes ⟨known, fun g same => .inl ?_⟩
    cases same
    exact recorded
  have unread : sys.read = false := by
    cases read : sys.read with
    | false => rfl
    | true => exact absurd ⟨known, fun _ _ => .inr read⟩ refreshes
  have returned := cfgRefresh_unread known.2 changed unread
  rw [keepsOnFailure_of_failed returned (by decide)]
  cases dirty : c.dirty with
  | true =>
      rw [if_pos rfl, keeps_cleared_iff]
      refine and_congr_right fun _ => ⟨fun nothing _ _ => nothing, fun nothing => ?_⟩
      exact nothing known rfl
  | false =>
      rw [if_neg (by decide), keeps_forgotten_iff]
      exact ⟨fun none => ⟨none, fun _ wrong => by cases wrong⟩, And.left⟩

/-- When the file is gone, a refresh forgets the image that the configuration was read from. -/
theorem not_keepsOnFailure_removed
    : ∃ c,
        cfgInit (.succeed 1) (some ⟨text "[s]\nk=v\n", 1⟩) false
          = .ok ((0, some c), some ⟨text "[s]\nk=v\n", 1⟩)
        ∧ c.valid = true
        ∧ ¬KeepsOnFailure (.succeed 1) none c := by
  refine ⟨_, rfl, rfl, ?_⟩
  intro keeps
  obtain ⟨-, kept⟩ := keeps (-2) _ rfl (by decide)
  cases kept _ rfl

end Cvos.CfgFile

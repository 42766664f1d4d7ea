import Cvos.CfgFile.Searches

/-! The word in which a `TCONFIG` keeps its flags. The calls that move the cursor mask it, or bits
into it and overwrite it; on its parts they act as the calls of the other modules do.
-/

namespace Cvos.CfgFile

open Cvos.Lib

/-- `CFG_VALID` -/
def validFlag : UInt16 := 0x8000

/-- `CFG_EOF` -/
def eofFlag : UInt16 := 0x4000

/-- `CFG_TYPEMASK` -/
def typemask : UInt16 := 0x000F

/-- `CFG_ERROR`, `CFG_SECTION`, `CFG_DEFINE` and `CFG_CONTINUE` -/
def CfgType.flag : CfgType → UInt16
  | cfgError => 0x0000
  | cfgSection => 0x0001
  | cfgDefine => 0x0002
  | cfgContinue => 0x0003

/-- The type that `cfg_section`, `cfg_define` and `cfg_cont` find in a word. -/
def typeOf (flags : UInt16) : CfgType :=
  if flags &&& typemask = CfgType.cfgSection.flag then .cfgSection
  else if flags &&& typemask = CfgType.cfgDefine.flag then .cfgDefine
  else if flags &&& typemask = CfgType.cfgContinue.flag then .cfgContinue
  else .cfgError

/-- A `TCONFIG`, with `flags` as the word that it is. -/
structure FlaggedConfig where
  dirty : Bool
  image : Option Bytes
  size : Nat
  mtime : Nat
  pool : Pool
  cursor : Nat
  sectionName : Option Bytes
  id : Option Bytes
  value : Option Bytes
  flags : UInt16
  deriving DecidableEq, Repr

namespace FlaggedConfig

/-- `cfg_valid`, for a pointer that is not null -/
def cfgValid (w : FlaggedConfig) : Bool := w.flags &&& validFlag ≠ 0

/-- `cfg_eof` -/
def cfgEof (w : FlaggedConfig) : Bool := w.flags &&& eofFlag ≠ 0

/-- `cfg_section` -/
def cfgSection (w : FlaggedConfig) : Bool := w.flags &&& typemask = CfgType.cfgSection.flag

/-- `cfg_rewind` -/
def cfgRewind (w : FlaggedConfig) : Int × FlaggedConfig :=
  if !w.cfgValid then
    (-1, w)
  else
    (0, { w with flags := validFlag, cursor := 0 })

/-- The loop of `cfg_nextentry` over the entries from the cursor on. -/
def nextentryFrom (w : FlaggedConfig) : List Entry → Int × FlaggedConfig
  | [] => (-1, { w with flags := w.flags ||| eofFlag })
  | e :: rest =>
      let w := { w with cursor := w.cursor + 1 }
      match e.sectionName, e.value with
      | some sectionName, _ =>
          (0,
            { w with
              sectionName := some sectionName
              flags := w.flags ||| CfgType.cfgSection.flag })
      | none, some value =>
          let w := { w with value := some value }
          match e.id with
          | some id => (0, { w with id := some id, flags := w.flags ||| CfgType.cfgDefine.flag })
          | none => (0, { w with flags := w.flags ||| CfgType.cfgContinue.flag })
      | none, none => nextentryFrom w rest

/-- `cfg_nextentry` -/
def cfgNextentry (w : FlaggedConfig) : Int × FlaggedConfig :=
  if !w.cfgValid || w.cfgEof then
    (-1, w)
  else
    nextentryFrom { w with flags := w.flags &&& ~~~typemask, id := none, value := none }
      (w.pool.entries.drop w.cursor)

/-- The loop of `cfg_next_section`; each entry lets it go on at most once. -/
def nextSectionLoop : Nat → FlaggedConfig → Checked (Int × FlaggedConfig)
  | 0, _ => .error .diverges
  | bound + 1, w =>
      match w.cfgNextentry with
      | (0, w) => if w.cfgSection then .ok (0, w) else nextSectionLoop bound w
      | (_, w) => .ok (-1, w)

/-- `cfg_next_section` -/
def cfgNextSection (w : FlaggedConfig) : Checked (Int × FlaggedConfig) :=
  nextSectionLoop (w.pool.entries.length + 1) w

/-- The configuration with the parts of its word. -/
def split (w : FlaggedConfig) : Config where
  dirty := w.dirty
  image := w.image
  size := w.size
  mtime := w.mtime
  pool := w.pool
  cursor := w.cursor
  sectionName := w.sectionName
  id := w.id
  value := w.value
  valid := w.cfgValid
  eof := w.cfgEof
  type := typeOf w.flags

/-- The result of a call, with the parts of the word that it leaves. -/
def splitResult (result : Int × FlaggedConfig) : Int × Config := (result.1, result.2.split)

end FlaggedConfig

/-- A mask sees what is set in either of two words. -/
theorem or_and (flags flag mask : UInt16)
    : (flags ||| flag) &&& mask = (flags &&& mask) ||| (flag &&& mask) :=
  UInt16.toBitVec_inj.mp BitVec.and_or_distrib_right

/-- A flag that lies outside a mask is not seen through it. -/
theorem or_and_of_apart {flag mask : UInt16} (apart : flag &&& mask = 0) (flags : UInt16)
    : (flags ||| flag) &&& mask = flags &&& mask := by
  rw [or_and, apart, UInt16.or_zero]

/-- Behind a mask that was cleared, only the flag is seen. -/
theorem or_and_of_cleared {flags mask : UInt16} (cleared : flags &&& mask = 0) (flag : UInt16)
    : (flags ||| flag) &&& mask = flag &&& mask := by
  rw [UInt16.or_comm, or_and_of_apart cleared]

/-- Clearing the type keeps the other flags. -/
theorem clear_and {flag : UInt16} (outside : ~~~typemask &&& flag = flag) (flags : UInt16)
    : flags &&& ~~~typemask &&& flag = flags &&& flag := by
  rw [UInt16.and_assoc, outside]

/-- The type is cleared. -/
theorem clear_typemask (flags : UInt16) : flags &&& ~~~typemask &&& typemask = 0 := by
  have none : ~~~typemask &&& typemask = 0 := by decide
  rw [UInt16.and_assoc, none, UInt16.and_zero]

/-- A word whose type was cleared has the type that is set. -/
theorem typeOf_or {flags : UInt16} (cleared : flags &&& typemask = 0) (type : CfgType)
    : typeOf (flags ||| type.flag) = type := by
  rw [typeOf, or_and_of_cleared cleared]
  cases type <;> rfl

/-- The type is not one of the other flags. -/
theorem flag_apart (type : CfgType) : type.flag &&& validFlag = 0 ∧ type.flag &&& eofFlag = 0 := by
  cases type <;> decide

namespace FlaggedConfig

/-- Setting the type of a word whose type was cleared sets the type. -/
theorem split_type {w : FlaggedConfig} (cleared : w.flags &&& typemask = 0) (type : CfgType)
    : split { w with flags := w.flags ||| type.flag } = { w.split with type := type } := by
  have apart := flag_apart type
  simp only [split, cfgValid, cfgEof, or_and_of_apart apart.1, or_and_of_apart apart.2,
    typeOf_or cleared]

/-- Setting the end of the file sets it. -/
theorem split_eof (w : FlaggedConfig)
    : split { w with flags := w.flags ||| eofFlag } = { w.split with eof := true } := by
  have set : (w.flags ||| eofFlag) &&& eofFlag ≠ 0 := by
    rw [or_and]
    exact fun none => absurd (UInt16.or_eq_zero_iff.mp none).2 (by decide)
  have valid : eofFlag &&& validFlag = 0 := by decide
  have type : eofFlag &&& typemask = 0 := by decide
  simp only [split, cfgValid, cfgEof, typeOf, or_and_of_apart valid, or_and_of_apart type, set,
    decide_true, ne_eq, not_false_eq_true]

/-- Clearing the type clears it. -/
theorem split_clear (w : FlaggedConfig)
    : split { w with flags := w.flags &&& ~~~typemask } = { w.split with type := .cfgError } := by
  have valid : ~~~typemask &&& validFlag = validFlag := by decide
  have eof : ~~~typemask &&& eofFlag = eofFlag := by decide
  simp only [split, cfgValid, cfgEof, clear_and valid, clear_and eof, typeOf, clear_typemask]
  rfl

/-- `cfg_rewind` on the parts of the word. -/
theorem split_cfgRewind (w : FlaggedConfig)
    : splitResult w.cfgRewind = CfgFile.cfgRewind w.split := by
  have same : w.split.valid = w.cfgValid := rfl
  rw [cfgRewind, CfgFile.cfgRewind, same]
  cases valid : w.cfgValid with
  | false => rfl
  | true =>
      have set : validFlag ≠ 0 := by decide
      have eof : validFlag &&& eofFlag = 0 := by decide
      have type : typeOf validFlag = .cfgError := by decide
      rw [if_neg (by decide), if_pos rfl]
      simp [splitResult, split, cfgValid, cfgEof, set, eof, type]

/-- The loop of `cfg_nextentry` on the parts of the word. -/
theorem split_nextentryFrom (rest : List Entry) {w : FlaggedConfig}
    (cleared : w.flags &&& typemask = 0)
    : splitResult (w.nextentryFrom rest) = CfgFile.nextentryFrom w.split rest := by
  induction rest generalizing w with
  | nil => exact congrArg (Prod.mk (-1)) (split_eof w)
  | cons e rest ih =>
      obtain ⟨sectionName, id, value, comment⟩ := e
      cases sectionName with
      | some name =>
          exact congrArg (Prod.mk 0)
            (@split_type { w with cursor := w.cursor + 1, sectionName := some name } cleared _)
      | none =>
          cases value with
          | none => exact @ih { w with cursor := w.cursor + 1 } cleared
          | some value =>
              cases id with
              | some id =>
                  exact congrArg (Prod.mk 0)
                    (@split_type
                      { w with cursor := w.cursor + 1, value := some value, id := some id }
                      cleared _)
              | none =>
                  exact congrArg (Prod.mk 0)
                    (@split_type { w with cursor := w.cursor + 1, value := some value } cleared _)

/-- `cfg_nextentry` on the parts of the word. -/
theorem split_cfgNextentry (w : FlaggedConfig)
    : splitResult w.cfgNextentry = CfgFile.cfgNextentry w.split := by
  have valid : w.split.valid = w.cfgValid := rfl
  have eof : w.split.eof = w.cfgEof := rfl
  rw [cfgNextentry, CfgFile.cfgNextentry, valid, eof]
  split
  next => rfl
  next =>
    rw [split_nextentryFrom _ (clear_typemask w.flags)]
    exact congrArg (CfgFile.nextentryFrom · _)
      (split_clear { w with id := none, value := none })

/-- `cfg_section` is about the type. -/
theorem cfgSection_iff (w : FlaggedConfig) : w.cfgSection = true ↔ w.split.type = .cfgSection := by
  have type : w.split.type = typeOf w.flags := rfl
  rw [cfgSection, decide_eq_true_iff, type, typeOf]
  split
  next section' => exact iff_of_true section' rfl
  next other =>
    refine iff_of_false other ?_
    split
    next => nofun
    next => split <;> nofun

/-- `cfg_next_section` on the parts of the word. -/
theorem split_cfgNextSection (w : FlaggedConfig)
    : w.cfgNextSection.map splitResult = CfgFile.cfgNextSection w.split := by
  have loop (bound : Nat) (w : FlaggedConfig)
      : (w.nextSectionLoop bound).map splitResult = CfgFile.nextSectionLoop bound w.split := by
    induction bound generalizing w with
    | zero => rfl
    | succ bound ih =>
        rw [nextSectionLoop, CfgFile.nextSectionLoop, ← split_cfgNextentry]
        cases next : w.cfgNextentry with
        | mk ret w' =>
            by_cases found : ret = 0
            · subst found
              simp only [splitResult]
              by_cases stops : w'.cfgSection = true
              · rw [if_pos stops, if_pos ((cfgSection_iff w').mp stops)]
                rfl
              · rw [if_neg stops, if_neg fun type => stops ((cfgSection_iff w').mpr type)]
                exact ih w'
            · simp only [splitResult]
              rfl
  exact loop _ w

end FlaggedConfig

end Cvos.CfgFile

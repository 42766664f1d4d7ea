import Cvos.CfgFile.Reread
import Cvos.CfgFile.WriteLookup

/-! Texts of visible characters without quotes, and what is read back of an entry whose value
is such a text: all of it, unless it starts like a comment.
-/

namespace Cvos.CfgFile

open Cvos.Lib

/-- The text has no space characters, ends of lines or quotes. -/
def Visible (t : Bytes) : Prop :=
  ∀ c ∈ t, isSpace c = false ∧ isEolChar c = false ∧ isQuote c = false

instance (t : Bytes) : Decidable (Visible t) :=
  inferInstanceAs
    (Decidable (∀ c ∈ t, isSpace c = false ∧ isEolChar c = false ∧ isQuote c = false))

/-- The text starts with a comment character. -/
def startsComment (t : Bytes) : Bool := (t.head?.map isComment).getD false

/-- What is read back of a visible value, of which a comment leaves nothing. -/
def asRead (value : Bytes) : Bytes := if startsComment value then [] else value

/-- A visible text lies in one line. -/
theorem Visible.oneLine {t : Bytes} (visible : Visible t) : OneLine t :=
  fun c member => (visible c member).2.1

/-- A visible text has no blanks. -/
theorem Visible.isWhite_eq {t : Bytes} (visible : Visible t) {c : UInt8} (member : c ∈ t)
    : isWhite c = false := by
  obtain ⟨noSpace, noEol, -⟩ := visible c member
  cases blank : isWhite c with
  | false => rfl
  | true =>
      rcases isSpace_of_isWhite blank with space | rfl
      · rw [noSpace] at space
        contradiction
      · contradiction

/-- A visible text does not start with a blank. -/
theorem Visible.first {t : Bytes} (visible : Visible t) {c : UInt8} (first : t.head? = some c)
    : isWhite c = false := visible.isWhite_eq (List.mem_of_head? first)

/-- There is nothing to trim from a visible text. -/
theorem Visible.rtrimText_eq {t : Bytes} (visible : Visible t) : rtrimText t = t := by
  rw [rtrimText, List.rdropWhile_eq_self_iff]
  intro filled
  simp [(visible _ (List.getLast_mem filled)).1]

/-- There are no blanks to cut from a visible text. -/
theorem Visible.trimBlank_eq {t : Bytes} (visible : Visible t) : trimBlank t = t :=
  trimBlank_of_rtrimText visible.oneLine.nulFree visible.rtrimText_eq

/-- A visible text that is not empty is a plain id. -/
theorem Visible.plainId {t : Bytes} (visible : Visible t) (filled : t ≠ []) : PlainId t where
  filled := filled
  unquoted := fun c member => (visible c member).2.2

/-- No quote is open behind a visible text. -/
theorem Visible.openQuote_eq {t : Bytes} (visible : Visible t) : openQuote 0 t = 0 :=
  openQuote_plain (Or.inl rfl) fun c member => (visible c member).2.2

/-- No comment starts in a visible text, unless it starts with one behind a blank. -/
theorem Visible.cutValue_eq {t : Bytes} (visible : Visible t) {previous : UInt8}
    (first : isWhite previous → startsComment t = false)
    : cutValue previous 0 t = (t, none) := by
  induction t generalizing previous with
  | nil => rfl
  | cons c t ih =>
      have unquoted := (visible c List.mem_cons_self).2.2
      have blank := visible.isWhite_eq (c := c) List.mem_cons_self
      have inner : ¬ ((0 : UInt8) = 0 ∧ isComment c ∧ isWhite previous) := by
        rintro ⟨-, comment, white⟩
        have none : isComment c = false := first white
        rw [none] at comment
        contradiction
      have later : isWhite c → startsComment t = false := by simp [blank]
      have further := ih (fun d member => visible d (List.mem_cons_of_mem c member)) later
      rw [cutValue_cons, if_neg inner, nextQuote_plain (Or.inl rfl) unquoted, further]
      rfl

/-- A visible value that does not start like a comment can be read back. -/
theorem Visible.readableValue {t : Bytes} (visible : Visible t) (first : startsComment t = false)
    (comment : Option Bytes)
    : ReadableValue t comment where
  first := fun _ => visible.first
  uncut := visible.cutValue_eq fun _ => first
  closed := fun _ => ⟨visible.openQuote_eq, visible.rtrimText_eq⟩

/-- What is read back is visible again. -/
theorem Visible.asRead {t : Bytes} (visible : Visible t) : Visible (asRead t) := by
  rw [CfgFile.asRead]
  split
  next => simp [Visible]
  next => exact visible

/-- A value is read back as it is exactly when it does not start like a comment. -/
theorem asRead_eq_self {t : Bytes} : asRead t = t ↔ startsComment t = false := by
  cases starts : startsComment t with
  | false => simp [asRead, starts]
  | true =>
      have filled : t ≠ [] := by
        rintro rfl
        contradiction
      simp [asRead, starts, Ne.symm filled]

/-- A printed entry with a visible value is read back with what is read of the value. -/
theorem reread_visible {id value : Bytes} (key : ReadableId id) (visible : Visible value)
    (comment : Option Bytes)
    : ∃ comment',
        reread ⟨none, some id, some value, comment⟩
          = some ⟨none, some id, some (asRead value), comment'⟩ := by
  cases starts : startsComment value with
  | false =>
      obtain ⟨comment', read⟩ :=
        reread_define key (visible.readableValue starts comment) visible.oneLine
      exact ⟨comment', by rw [read, visible.trimBlank_eq, asRead_eq_self.mpr starts]⟩
  | true =>
      -- The byte in front of the value counts as a blank, so the value is all comment.
      cases value with
      | nil => contradiction
      | cons c value =>
          have visible' := visible.isWhite_eq (c := c) List.mem_cons_self
          have printed
              : trimBlank (c :: value ++ printComment comment)
                = c :: trimBlank (value ++ printComment comment) := trimBlank_cons visible' _
          have cut (rest : Bytes) : splitValue (c :: rest) = ([], some rest) := by
            have starts : isComment c = true := starts
            rw [splitValue, cutValue_cons, if_pos ⟨rfl, starts, rfl⟩]
            rfl
          refine ⟨some (trimBlank (value ++ printComment comment)), ?_⟩
          rw [reread_key key, printed, skipwhite_eq_self (by simpa using visible'), cut, asRead,
            if_pos starts]

end Cvos.CfgFile

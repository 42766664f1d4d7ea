import Cvos.CfgFile.Reread
import Cvos.CfgFile.WriteLookup

/-! Whether a configuration means the same after it was committed and read again: which
sections survive `_cfg_output`, which prints continuation lines without their indentation.
-/

namespace Cvos.CfgFile

open Cvos.Lib

/-- The value that a continuation gives the key when its text is read as a line of its own, as
it is printed.
-/
def CfgEntry.unindentedValue (k : Bytes) (e : Entry) : Option Bytes :=
  match e.sectionName, e.id, e.value with
  | none, none, some value =>
      if value = [] then none
      else (parseDefine (trimBlank (value ++ printComment e.comment))).bind (CfgEntry.valueOf k)
  | _, _, _ => none

/-- The section keeps its meaning when it is printed: a continuation that becomes a binding
repeats the one that follows it, unless its key was bound before; and the first value of each
key does not end in a blank, as the value on an unterminated last line can.
-/
structure Survives (body : List Entry) : Prop where
  continuations
    : ∀ pre e post k w,
        body = pre ++ e :: post
        → e.unindentedValue k = some w
        → (∀ p ∈ pre, p.valueOf k = none ∧ p.unindentedValue k = none)
        → lookup post k = some w
  trimmed
    : ∀ pre e post k v,
        body = pre ++ e :: post
        → e.valueOf k = some v
        → (∀ p ∈ pre, p.valueOf k = none)
        → trimBlank v = v

/-- The value that an entry gives the key after it was printed. -/
def rereadValue (k : Bytes) (e : Entry) : Option Bytes := (reread e).bind (CfgEntry.valueOf k)

/-- After printing, an entry inside a section gives the values it gave, without trailing
blanks, and a continuation gives those of its text.
-/
theorem rereadValue_eq {e : Entry} (readable : Readable e) (oneLine : EntryOneLine e)
    (inside : e.sectionName = none) (k : Bytes)
    : rereadValue k e = ((e.valueOf k).map trimBlank).or (e.unindentedValue k) := by
  cases readable with
  | header readable => contradiction
  | comment =>
      rw [rereadValue, reread_comment]
      rfl
  | @define id value comment key readable =>
      obtain ⟨comment', read⟩ := reread_define key readable (oneLine.value _ rfl)
      rw [rereadValue, read, Option.bind_some, valueOf_define rfl rfl rfl,
        valueOf_define rfl rfl rfl]
      split <;> rfl
  | @continued value comment readable first =>
      rw [valueOf_eq_none (Or.inl rfl), Option.map_none, Option.none_or, rereadValue]
      cases value with
      | nil =>
          rw [reread_emptyValue]
          cases comment <;> rfl
      | cons c value =>
          rw [reread_unindented readable first, CfgEntry.unindentedValue]
          exact (if_neg (by simp)).symm

/-- Inside a section, the lookup after printing takes the first value an entry then gives. -/
theorem lookup_filterMap_reread (body : List Entry) (k : Bytes)
    : lookup (body.filterMap reread) k = body.findSome? (rereadValue k) := by
  induction body with
  | nil => rfl
  | cons e body ih =>
      rw [List.filterMap_cons, List.findSome?_cons, rereadValue]
      cases read : reread e with
      | none => simpa using ih
      | some e' =>
          rw [Option.bind_some]
          simp only [lookup_cons, ih]
          cases e'.valueOf k <;> rfl

section Bodies

variable {body : List Entry} (readable : ∀ e ∈ body, Readable e ∧ EntryOneLine e)
  (inside : NoHeader body)

include readable inside in
/-- Entries that give no value after printing gave none before, and neither do their texts. -/
theorem values_of_rereadValue_none {pre : List Entry} (within : pre ⊆ body) {k : Bytes}
    (nowhere : ∀ p ∈ pre, rereadValue k p = none)
    : ∀ p ∈ pre, p.valueOf k = none ∧ p.unindentedValue k = none := by
  intro p member
  obtain ⟨readable, oneLine⟩ := readable p (within member)
  have none := nowhere p member
  rw [rereadValue_eq readable oneLine (inside p (within member)), Option.or_eq_none_iff,
    Option.map_eq_none_iff] at none
  exact none

include readable inside in
/-- A section that keeps all its lookups when printed survives. -/
theorem Survives.of_lookup (same : ∀ k, lookup (body.filterMap reread) k = lookup body k)
    : Survives body where
  continuations := by
    rintro pre e post k w rfl reads nowhere
    have noValue {p : Entry} (member : p ∈ pre) : rereadValue k p = none := by
      obtain ⟨readable, oneLine⟩ := readable p (by simp [member])
      rw [rereadValue_eq readable oneLine (inside p (by simp [member])), (nowhere p member).1,
        (nowhere p member).2]
      rfl
    have own : e.valueOf k = none := by
      refine valueOf_eq_none ?_ k
      obtain ⟨sectionName, id, value, comment⟩ := e
      cases id with
      | none => exact Or.inl rfl
      | some id => cases sectionName <;> simp [CfgEntry.unindentedValue] at reads
    obtain ⟨readable, oneLine⟩ := readable e (by simp)
    have gives : rereadValue k e = some w := by
      rw [rereadValue_eq readable oneLine (inside e (by simp)), own, reads]
      rfl
    have agrees := same k
    rw [lookup_filterMap_reread, List.findSome?_append, List.findSome?_cons, gives,
      List.findSome?_eq_none_iff.mpr fun p member => noValue member, Option.none_or, lookup_append,
      lookup_eq_none fun p member => (nowhere p member).1, Option.none_or, lookup_cons, own,
      Option.none_or] at agrees
    exact agrees.symm
  trimmed := by
    rintro pre e post k v rfl gives nowhere
    have agrees := same k
    rw [lookup_filterMap_reread, lookup_append,
      lookup_eq_none fun p member => nowhere p member, Option.none_or, lookup_cons, gives,
      Option.some_or] at agrees
    obtain ⟨x, member, value⟩ := List.exists_of_findSome?_eq_some agrees
    obtain ⟨x', read, gives'⟩ := Option.bind_eq_some_iff.mp value
    exact trimBlank_reread (readable x member).2.printEntry.nulFree read (value_of_valueOf gives')

include readable inside in
/-- A section that survives keeps all its lookups when printed. -/
theorem Survives.lookup_eq (survives : Survives body) (k : Bytes)
    : lookup (body.filterMap reread) k = lookup body k := by
  rw [lookup_filterMap_reread]
  cases found : body.findSome? (rereadValue k) with
  | none =>
      have nowhere := values_of_rereadValue_none readable inside (List.Subset.refl body)
        (List.findSome?_eq_none_iff.mp found)
      exact (lookup_eq_none fun p member => (nowhere p member).1).symm
  | some w =>
      obtain ⟨pre, e, post, rfl, gives, nowhere⟩ := List.findSome?_eq_some_iff.mp found
      have nowhere :=
        values_of_rereadValue_none readable inside (List.subset_append_left ..) nowhere
      obtain ⟨readable, oneLine⟩ := readable e (by simp)
      rw [lookup_append, lookup_eq_none fun p member => (nowhere p member).1, Option.none_or,
        lookup_cons]
      rw [rereadValue_eq readable oneLine (inside e (by simp))] at gives
      cases value : e.valueOf k with
      | none =>
          rw [value, Option.map_none, Option.none_or] at gives
          exact (survives.continuations pre e post k w rfl gives nowhere).symm
      | some v =>
          rw [value, Option.map_some, Option.some_or, Option.some.injEq] at gives
          have trimmed := survives.trimmed pre e post k v rfl value fun p member =>
            (nowhere p member).1
          rw [Option.some_or, ← gives, trimmed]

end Bodies

/-- A printed entry is read back as a header exactly when it is one, of the same name. -/
theorem reread_sectionName {e : Entry} (readable : Readable e) (oneLine : EntryOneLine e)
    : (reread e).bind CfgEntry.sectionName = e.sectionName := by
  cases readable with
  | @header name comment readable =>
      obtain ⟨comment', read⟩ := reread_header readable comment
      rw [read]
      rfl
  | @define id value comment key readable =>
      obtain ⟨comment', read⟩ := reread_define key readable (oneLine.value _ rfl)
      rw [read]
      rfl
  | comment =>
      rw [reread_comment]
      rfl
  | @continued value comment readable first =>
      cases read : reread ⟨none, none, some value, comment⟩ with
      | none => rfl
      | some e => exact reread_continued readable first read

/-- Printing keeps where the entries of a section end. -/
theorem untilHeader_filterMap_reread {es : List Entry}
    (readable : ∀ e ∈ es, Readable e ∧ EntryOneLine e)
    : untilHeader (es.filterMap reread) = (untilHeader es).filterMap reread := by
  induction es with
  | nil => rfl
  | cons e es ih =>
      have further := ih fun x member => readable x (List.mem_cons_of_mem e member)
      have name := reread_sectionName (readable e List.mem_cons_self).1
        (readable e List.mem_cons_self).2
      rw [untilHeader_cons, List.filterMap_cons]
      cases read : reread e with
      | none =>
          rw [read, Option.bind_none] at name
          simp [CfgEntry.isHeader, ← name, read, further]
      | some e' =>
          rw [read, Option.bind_some] at name
          rw [untilHeader_cons, CfgEntry.isHeader, name, CfgEntry.isHeader]
          split
          next => rfl
          next => simp [read, further]

/-- Printing keeps which sections there are, and prints each of them by itself. -/
theorem sectionBody_filterMap_reread {es : List Entry}
    (readable : ∀ e ∈ es, Readable e ∧ EntryOneLine e) (s : Bytes)
    : sectionBody (es.filterMap reread) s
      = (sectionBody es s).map (fun body => body.filterMap reread) := by
  induction es with
  | nil => rfl
  | cons e es ih =>
      have others : ∀ x ∈ es, Readable x ∧ EntryOneLine x :=
        fun x member => readable x (List.mem_cons_of_mem e member)
      have name := reread_sectionName (readable e List.mem_cons_self).1
        (readable e List.mem_cons_self).2
      rw [sectionBody, List.filterMap_cons]
      cases read : reread e with
      | none =>
          rw [read, Option.bind_none] at name
          simp [← name, ih others]
      | some e' =>
          rw [read, Option.bind_some] at name
          rw [sectionBody, name]
          split
          next => simp [untilHeader_filterMap_reread others]
          next => exact ih others

/-- Committing a configuration and reading it again keeps every search in a named section
exactly when the first section of each name survives.
-/
theorem cfgOutput_preserves_iff (image : Bytes) (nulFree : NulFree image) (c c' : Config)
    (parsed : Parsed image c) (reparsed : Parsed (cfgOutput c) c')
    : (∀ s id, findValue c' (some s) id = findValue c (some s) id)
      ↔ ∀ s body, sectionBody c.pool.entries s = some body → Survives body := by
  obtain ⟨valid, -, entries⟩ := parsed.entries nulFree
  have readable : ∀ e ∈ c.pool.entries, Readable e ∧ EntryOneLine e := by
    rw [entries]
    exact fun e member => readable_of_parseImage member
  have oneLine := fun e member => (readable e member).2
  obtain ⟨valid', -, entries'⟩ := reparsed.entries (nulFree_outputFrom false oneLine)
  rw [cfgOutput, parseImage_outputFrom false oneLine] at entries'
  constructor
  · intro same s body found
    obtain ⟨within, inside⟩ := mem_of_sectionBody found
    refine .of_lookup (fun e member => readable e (within member)) inside ?_
    intro k
    have agrees := same s (some k)
    rw [findValue_named valid, findValue_named valid', entries', lookupIn, lookupIn,
      sectionBody_filterMap_reread readable, found] at agrees
    exact Option.map_injective (fun _ _ => Option.some.inj) (Except.ok.inj agrees)
  · intro survives s id
    rw [findValue_named valid, findValue_named valid', entries', lookupIn, lookupIn,
      sectionBody_filterMap_reread readable]
    cases found : sectionBody c.pool.entries s with
    | none => rfl
    | some body =>
        obtain ⟨within, inside⟩ := mem_of_sectionBody found
        cases id with
        | none => rfl
        | some k =>
            have agrees := (survives s body found).lookup_eq
              (fun e member => readable e (within member)) inside k
            simp [agrees]

/-- Witness: the binding of a section without continuations is found again. -/
theorem cfgOutput_preserves_iff_define
    : findValue (parseOf (cfgOutput (parseOf (text "[s]\nk=1\n")))) (some (text "s"))
        (some (text "k"))
      = .ok (some (some (text "1"))) := by
  have nulFree : NulFree (text "[s]\nk=1\n") := by decide
  have nulFree' : NulFree (cfgOutput (parseOf (text "[s]\nk=1\n"))) := by decide
  have preserved := (cfgOutput_preserves_iff _ nulFree _ _ (parsed_parseOf nulFree)
    (parsed_parseOf nulFree')).mpr ?_
  · exact (preserved (text "s") (some (text "k"))).trans rfl
  intro s body found
  have only : body = [defineEntry (text "k") (text "1")] := by
    have named : text "s" = s := by
      by_contra other
      have entries
          : (parseOf (text "[s]\nk=1\n")).pool.entries
            = [⟨some (text "s"), none, none, none⟩, defineEntry (text "k") (text "1")] := rfl
      simp [entries, sectionBody, other, defineEntry] at found
    subst named
    exact (Option.some.inj found).symm
  subst only
  constructor
  · intro pre e post k w parts reads _
    rcases List.append_eq_singleton_iff.mp parts.symm with ⟨rfl, last⟩ | ⟨-, none⟩
    · obtain ⟨rfl, -⟩ := List.cons.inj last
      contradiction
    · contradiction
  · intro pre e post k v parts gives _
    rcases List.append_eq_singleton_iff.mp parts.symm with ⟨rfl, last⟩ | ⟨-, none⟩
    · obtain ⟨rfl, -⟩ := List.cons.inj last
      obtain rfl := Option.some.inj (value_of_valueOf gives)
      rfl
    · contradiction

/-- A continuation line with a `=` becomes a binding when it is printed at the first column.
-/
theorem cfgOutput_continuation
    : ¬ ∀ image c c',
        NulFree image
        → Parsed image c
        → Parsed (cfgOutput c) c'
        → ∀ s id, findValue c' (some s) id = findValue c (some s) id := by
  intro always
  have nulFree : NulFree (text "[s]\n  a=b\n") := by decide
  have nulFree' : NulFree (cfgOutput (parseOf (text "[s]\n  a=b\n"))) := by decide
  have same := always _ _ _ nulFree (parsed_parseOf nulFree) (parsed_parseOf nulFree') (text "s")
    (some (text "a"))
  have other
      : (.ok (some (some (text "b"))) : Checked (Option (Option Bytes))) = .ok none := same
  contradiction

end Cvos.CfgFile

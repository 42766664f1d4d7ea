import Cvos.CfgFile.FileCycle
import Cvos.CfgFile.OutputFormatted
import Cvos.CfgFile.OutputMeaning

/-! A copied configuration means what the original does: each line that is printed in columns is
read back as an entry of the same section name and the same binding, if the entry has one.
-/

namespace Cvos.CfgFile

open Cvos.Lib

-----------------------------------------------------------------------------------------
-- Entries that a search does not tell apart
-----------------------------------------------------------------------------------------

/-- The entry neither opens a section nor gives a value to a key. -/
structure CfgEntry.Unseen (e : Entry) : Prop where
  noHeader : e.sectionName = none
  noValue : ∀ k, e.valueOf k = none

/-- Entries that open the same section and give the same values. -/
structure CfgEntry.Alike (e e' : Entry) : Prop where
  sectionName : e'.sectionName = e.sectionName
  values : ∀ k, e'.valueOf k = e.valueOf k

/-- The second entries are like the first ones, without some that no search sees. -/
inductive AlikeEntries : List Entry → List Entry → Prop
  | nil : AlikeEntries [] []
  | drop {e es es'} (unseen : e.Unseen) (rest : AlikeEntries es es') : AlikeEntries (e :: es) es'
  | keep {e e' es es'} (alike : e.Alike e') (rest : AlikeEntries es es')
    : AlikeEntries (e :: es) (e' :: es')

/-- Up to the next header, like entries give the same values. -/
theorem AlikeEntries.lookup_eq {es es' : List Entry} (alike : AlikeEntries es es') (k : Bytes)
    : lookup (untilHeader es') k = lookup (untilHeader es) k := by
  induction alike with
  | nil => rfl
  | drop unseen rest ih =>
      rw [untilHeader_cons, CfgEntry.isHeader, unseen.noHeader, if_neg (by simp), lookup_cons,
        unseen.noValue, Option.none_or, ih]
  | @keep e e' es es' alike rest ih =>
      rw [untilHeader_cons, untilHeader_cons, CfgEntry.isHeader, CfgEntry.isHeader,
        alike.sectionName]
      split
      · rfl
      · rw [lookup_cons, lookup_cons, alike.values, ih]

/-- A search finds the same in like entries. -/
theorem AlikeEntries.lookupIn_eq {es es' : List Entry} (alike : AlikeEntries es es') (s : Bytes)
    (id : Option Bytes)
    : lookupIn es' s id = lookupIn es s id := by
  unfold lookupIn
  induction alike with
  | nil => rfl
  | @drop e es es' unseen rest ih =>
      rw [ih, sectionBody.eq_2, unseen.noHeader, if_neg (by simp)]
  | @keep e e' es es' alike rest ih =>
      rw [sectionBody, sectionBody, alike.sectionName]
      split
      · cases id with
        | none => rfl
        | some k => simp [rest.lookup_eq k]
      · exact ih

/-- An entry without a header gives no value when its id has nothing but quotes in it. -/
theorem unseen_of_removeQuotes {id value : Bytes} {comment : Option Bytes}
    (nothing : removeQuotes id = none)
    : CfgEntry.Unseen ⟨none, some id, some value, comment⟩ where
  noHeader := rfl
  noValue k := by
    rw [valueOf_define rfl rfl rfl, nothing]
    rfl

/-- An entry without an id is not seen unless it is a header. -/
theorem unseen_of_noId {value comment : Option Bytes}
    : CfgEntry.Unseen ⟨none, none, value, comment⟩ where
  noHeader := rfl
  noValue := valueOf_eq_none (Or.inl rfl)

/-- What no search sees is alike. -/
theorem CfgEntry.Unseen.alike {e e' : Entry} (unseen : e.Unseen) (unseen' : e'.Unseen)
    : e.Alike e' where
  sectionName := unseen'.noHeader.trans unseen.noHeader.symm
  values k := (unseen'.noValue k).trans (unseen.noValue k).symm

-----------------------------------------------------------------------------------------
-- Reading a printed line
-----------------------------------------------------------------------------------------

/-- Blanks in front of a text do not matter where blanks are skipped. -/
theorem skipwhite_trimBlank_append {blanks : Bytes} (blank : ∀ c ∈ blanks, isWhite c) (s : Bytes)
    : skipwhite (trimBlank (blanks ++ s)) = skipwhite (trimBlank s) := by
  by_cases filled : ∃ c ∈ s, isWhite c = false
  · obtain ⟨c, member, visible⟩ := filled
    obtain ⟨front, tail, rfl⟩ := List.append_of_mem member
    rw [← List.append_assoc, trimBlank_append_cons visible, trimBlank_append_cons visible,
      List.append_assoc, skipwhite, skipwhite, List.dropWhile_append_of_pos (by simpa using blank)]
  · have hidden : ∀ c ∈ s, isWhite c := by
      intro c member
      by_contra visible
      exact filled ⟨c, member, by simpa using visible⟩
    have none : trimBlank s = [] := List.rdropWhile_eq_nil_iff.mpr hidden
    have none' : trimBlank (blanks ++ s) = [] := by
      refine List.rdropWhile_eq_nil_iff.mpr ?_
      intro c member
      rcases List.mem_append.mp member with before | behind
      · exact blank c before
      · exact hidden c behind
    rw [none, none']

/-- A line that starts with a blank is no header, unless its first other character is `[`, and
gives no value.
-/
theorem unseen_of_indented {line : Bytes} {e : Entry}
    (indented : ∀ c, line.head? = some c → isWhite c)
    (noHeader : ∀ c, (skipwhite (trimBlank line)).head? = some c → c ≠ ch '[')
    (read : lineEntry line = some e)
    : e.Unseen := by
  rw [lineEntry] at read
  split at read
  next => contradiction
  next filled =>
    obtain ⟨c, rest, trimmed⟩ := List.exists_cons_of_ne_nil filled
    have blank : isWhite c = true :=
      indented c (head?_of_isPrefix (List.rdropWhile_prefix ..) (by rw [← trimBlank, trimmed]; rfl))
    have continues : ((trimBlank line).head?.map isWhite).getD false = true := by
      simp [trimmed, blank]
    rw [parseLine, continues] at read
    cases text : skipwhite (trimBlank line) with
    | nil =>
        rw [text] at read
        cases read
        exact unseen_of_noId
    | cons d rest =>
        have other : d ≠ ch '[' := noHeader d (by rw [text]; rfl)
        rw [text, parseItem, if_neg other] at read
        split at read
        · cases read
          exact unseen_of_noId
        · cases read
          exact unseen_of_noId

/-- What a line is read as is like the entry it was printed for, or it is not read and the entry is
not seen.
-/
def ReadAlike (e : Entry) (line : Bytes) : Prop :=
  (lineEntry line = none ∧ e.Unseen) ∨ ∃ e', lineEntry line = some e' ∧ e.Alike e'

/-- An indented line for an entry that is not seen. -/
theorem ReadAlike.indented {e : Entry} (unseen : e.Unseen) {line : Bytes}
    (indented : ∀ c, line.head? = some c → isWhite c)
    (noHeader : ∀ c, (skipwhite (trimBlank line)).head? = some c → c ≠ ch '[')
    : ReadAlike e line := by
  cases read : lineEntry line with
  | none => exact .inl ⟨read, unseen⟩
  | some e' => exact .inr ⟨e', read, unseen.alike (unseen_of_indented indented noHeader read)⟩

-----------------------------------------------------------------------------------------
-- Reading a line in columns
-----------------------------------------------------------------------------------------

/-- A key that fits into its column is followed by blanks. -/
theorem padKey_eq {m : Nat} {id : Bytes} (fits : m ≠ 0 → id.length ≤ m)
    : padKey m id = id ++ List.replicate (m - id.length) (ch ' ') := by
  rw [padKey]
  split
  next zero => simp [zero]
  next wide => rw [List.take_of_length_le (fits wide)]

/-- The blanks between a key and the `=`. -/
def keyBlanks (m : Nat) (id : Bytes) : Bytes := List.replicate (m - id.length + 1) (ch ' ')

theorem isWhite_keyBlanks (m : Nat) (id : Bytes) : ∀ c ∈ keyBlanks m id, isWhite c := by
  intro c member
  rw [List.eq_of_mem_replicate member]
  rfl

/-- The blanks behind a key are cut off, by induction on their number. -/
theorem rtrimText_keyBlanks (s : Bytes) (m : Nat) (id : Bytes)
    : rtrimText (s ++ keyBlanks m id) = rtrimText s := by
  rw [keyBlanks, rtrimText, rtrimText]
  generalize m - id.length + 1 = count
  induction count with
  | zero => rw [List.replicate_zero, List.append_nil]
  | succ count ih =>
      rw [List.replicate_succ', ← List.append_assoc, List.rdropWhile_concat_pos _ _ _ rfl, ih]

/-- The line of an entry with a key, with its blanks around the `=`. -/
theorem printFormatted_define {m : Nat} {id : Bytes} (fits : m ≠ 0 → id.length ≤ m)
    (value : Bytes) (comment : Option Bytes)
    : printFormatted m ⟨none, some id, some value, comment⟩
      = id ++ keyBlanks m id ++ ch '=' :: ([ch ' '] ++ (value ++ printComment comment)) := by
  have equals : text " = " = [ch ' '] ++ [ch '=', ch ' '] := rfl
  simp only [printFormatted, padKey_eq fits, keyBlanks, equals, List.replicate_succ',
    List.append_assoc, List.cons_append, List.nil_append]

/-- A key in its column is read back, and so is the value behind it. -/
theorem lineEntry_define {m : Nat} {id value : Bytes} {comment : Option Bytes} (named : id ≠ [])
    (key : ReadableId id) (readable : ReadableValue value comment) (oneLine : OneLine value)
    (fits : m ≠ 0 → id.length ≤ m)
    : ∃ comment',
        lineEntry (printFormatted m ⟨none, some id, some value, comment⟩)
        = some ⟨none, some id, some (trimBlank value), comment'⟩ := by
  have printed
      : trimBlank (printFormatted m ⟨none, some id, some value, comment⟩)
        = id ++ keyBlanks m id
          ++ ch '=' :: trimBlank ([ch ' '] ++ (value ++ printComment comment)) := by
    rw [printFormatted_define fits, trimBlank_append_cons rfl]
  have behind
      : skipwhite (trimBlank ([ch ' '] ++ (value ++ printComment comment)))
        = skipwhite (trimBlank (value ++ printComment comment)) :=
    skipwhite_trimBlank_append (by decide) _
  generalize trimBlank ([ch ' '] ++ (value ++ printComment comment)) = rest at *
  obtain ⟨c, tail, rfl⟩ := List.exists_cons_of_ne_nil named
  have noEquals : ch '=' ∉ c :: tail ++ keyBlanks m (c :: tail) := by
    intro member
    rcases List.mem_append.mp member with inKey | blank
    · exact key.noEquals inKey
    · exact absurd (isWhite_keyBlanks m _ _ blank) (by decide)
  have trimmed : rtrimText (c :: tail ++ keyBlanks m (c :: tail)) = c :: tail := by
    rw [rtrimText_keyBlanks, key.trimmed]
  refine ⟨(splitValue (skipwhite rest)).2, ?_⟩
  rw [lineEntry, printed, if_neg (by simp), parseLine_define (by simp), parseDefine,
    splitAtChar_eq_some.mpr ⟨rfl, noEquals⟩]
  · simp only [Option.bind_eq_bind, Option.bind_some, trimmed, behind,
      splitValue_printed readable oneLine]
  · intro d first
    exact key.first d first

/-- A printed value, with its comment, does not start with a `[` if the value does not. -/
theorem ReadableValue.noHeader {value : Bytes} {comment : Option Bytes}
    (readable : ReadableValue value comment) (first : ∀ c, value.head? = some c → c ≠ ch '[')
    : ∀ c,
        (skipwhite (trimBlank (value ++ printComment comment))).head? = some c → c ≠ ch '[' := by
  cases value with
  | cons d value =>
      have visible := readable.first d rfl
      rw [List.cons_append, trimBlank_cons visible,
        skipwhite_eq_self (by rintro c ⟨⟩; exact visible)]
      rintro c ⟨⟩
      exact first d rfl
  | nil =>
      cases comment with
      | none =>
          intro c head
          cases head
      | some comment =>
          have printed
              : trimBlank ([] ++ printComment (some comment))
                = ch '\t' :: ch ';' :: trimBlank comment :=
            trimBlank_append_cons (c := ch ';') rfl [ch '\t'] comment
          rw [printed]
          rintro c ⟨⟩
          decide

/-- An entry that is printed in columns is read back as one that is alike. -/
theorem readAlike_printFormatted {m : Nat} {e : Entry} (readable : Readable e)
    (oneLine : EntryOneLine e) (trimmed : ∀ v, e.value = some v → trimBlank v = v)
    (fits : ∀ id, e.id = some id → m ≠ 0 → id.length ≤ m)
    : ReadAlike e (printFormatted m e) := by
  cases readable with
  | @header name comment readable =>
      obtain ⟨comment', read⟩ := reread_header readable comment
      refine .inr ⟨_, read, rfl, ?_⟩
      intro k
      rw [valueOf_eq_none (Or.inl rfl), valueOf_eq_none (Or.inl rfl)]
  | @comment comment => exact .inr ⟨_, reread_comment comment, unseen_of_noId.alike unseen_of_noId⟩
  | @define id value comment key readable =>
      by_cases named : id = []
      · subst named
        rw [printFormatted_define (fits [] rfl)]
        refine .indented (unseen_of_removeQuotes rfl) ?_ ?_
        · rw [keyBlanks, List.replicate_succ]
          rintro c ⟨⟩
          rfl
        · rw [List.nil_append, skipwhite_trimBlank_append (isWhite_keyBlanks m []),
            trimBlank_cons rfl]
          rintro c ⟨⟩
          decide
      · obtain ⟨comment', read⟩ :=
          lineEntry_define named key readable (oneLine.value _ rfl) (fits id rfl)
        rw [trimmed value rfl] at read
        refine .inr ⟨_, read, rfl, ?_⟩
        intro k
        rw [valueOf_define rfl rfl rfl, valueOf_define rfl rfl rfl]
  | @continued value comment readable first =>
      refine .indented unseen_of_noId ?_ ?_
      · rintro c ⟨⟩
        rfl
      · simp only [printFormatted]
        rw [skipwhite_trimBlank_append (by decide)]
        exact readable.noHeader first

-----------------------------------------------------------------------------------------
-- Reading all lines
-----------------------------------------------------------------------------------------

/-- A printed line is one line when its texts are. -/
theorem EntryOneLine.printFormatted {e : Entry} (oneLine : EntryOneLine e) (m : Nat)
    : OneLine (printFormatted m e) := by
  obtain ⟨sectionName, id, value, comment⟩ := e
  cases sectionName with
  | some name => exact oneLine.printEntry
  | none =>
      cases value with
      | none => cases id <;> exact oneLine.printEntry
      | some value =>
          have shown : EntryOneLine ⟨none, none, some value, comment⟩ :=
            ⟨oneLine.sectionName, by simp, oneLine.value, oneLine.comment⟩
          have behind : OneLine (value ++ printComment comment) := shown.printEntry
          cases id with
          | none => exact List.forall_mem_append.mpr ⟨by decide, behind⟩
          | some id =>
              have key : OneLine (padKey m id) := by
                rw [padKey]
                split
                · exact oneLine.id id rfl
                · refine List.forall_mem_append.mpr ⟨?_, ?_⟩
                  · exact fun c member => oneLine.id id rfl c (List.mem_of_mem_take member)
                  · intro c member
                    rw [List.eq_of_mem_replicate member]
                    rfl
              exact List.forall_mem_append.mpr
                ⟨List.forall_mem_append.mpr ⟨key, by decide⟩, behind⟩

/-- The ids before the next header fit into the column. -/
theorem length_le_keyWidth {es : List Entry} {e : Entry} (member : e ∈ untilHeader es) {id : Bytes}
    (key : e.id = some id)
    : id.length ≤ keyWidth es := by
  induction es with
  | nil => cases member
  | cons first es ih =>
      rw [untilHeader_cons, CfgEntry.isHeader] at member
      split at member
      next => cases member
      next inside =>
        rw [keyWidth, if_neg inside]
        rcases List.mem_cons.mp member with rfl | later
        · rw [key]
          exact Nat.le_max_left ..
        · exact Nat.le_trans (ih later) (Nat.le_max_right ..)

/-- Reading a configuration that was printed in columns reads like entries, line by line. -/
theorem alikeEntries_outputformattedFrom {es : List Entry}
    (readable : ∀ e ∈ es, Readable e ∧ EntryOneLine e)
    (trimmed : ∀ e ∈ es, ∀ v, e.value = some v → trimBlank v = v) (m : Nat) (skip : Bool)
    (fits : ∀ e ∈ untilHeader es, ∀ id, e.id = some id → m ≠ 0 → id.length ≤ m)
    : AlikeEntries es (parseImage (outputformattedFrom m skip es)) := by
  induction es generalizing m skip with
  | nil => exact .nil
  | cons e es ih =>
      simp only [List.forall_mem_cons] at readable trimmed
      have line {rest : Bytes}
          (fits : ∀ id, e.id = some id → m ≠ 0 → id.length ≤ m)
          (behind : AlikeEntries es (parseImage rest))
          : AlikeEntries (e :: es) (parseImage (printFormatted m e ++ ch '\n' :: rest)) := by
        rw [parseImage_line (readable.1.2.printFormatted m)]
        rcases readAlike_printFormatted readable.1.1 readable.1.2 trimmed.1 fits with
          ⟨read, unseen⟩ | ⟨e', read, alike⟩
        · rw [read]
          exact .drop unseen behind
        · rw [read]
          exact .keep alike behind
      rw [outputformattedFrom]
      split
      next header =>
        have noId : ∀ id, e.id = some id → m ≠ 0 → id.length ≤ m := by
          intro id key
          cases readable.1.1 with
          | header => cases key
          | define | continued | comment => cases header
        have behind := ih readable.2 trimmed.2 (keyWidth es) true
          fun x member id key _ => length_le_keyWidth member key
        cases skip with
        | false => exact line noId behind
        | true =>
            rw [if_pos rfl, List.append_assoc, List.cons_append, List.nil_append,
              parseImage_blank]
            exact line noId behind
      next inside =>
        rw [untilHeader_cons, if_neg inside] at fits
        simp only [List.forall_mem_cons] at fits
        split
        next =>
          rw [parseImage_blank]
          exact line fits.1 (ih readable.2 trimmed.2 m false fits.2)
        next => exact line fits.1 (ih readable.2 trimmed.2 m skip fits.2)

/-- A configuration that is printed in columns has no NUL when its entries lie in one line each. -/
theorem nulFree_outputformattedFrom {es : List Entry} (oneLine : ∀ e ∈ es, EntryOneLine e)
    (m : Nat) (skip : Bool)
    : NulFree (outputformattedFrom m skip es) := by
  induction es generalizing m skip with
  | nil => simp [outputformattedFrom, NulFree]
  | cons e es ih =>
      simp only [List.forall_mem_cons] at oneLine
      have line {rest : Bytes} (behind : NulFree rest)
          : NulFree (printFormatted m e ++ ch '\n' :: rest) :=
        nulFree_append.mpr
          ⟨(oneLine.1.printFormatted m).nulFree, List.forall_mem_cons.mpr ⟨by decide, behind⟩⟩
      rw [outputformattedFrom]
      split
      next =>
        have behind := line (ih oneLine.2 (keyWidth es) true)
        cases skip with
        | false => exact behind
        | true => exact List.forall_mem_cons.mpr ⟨by decide, behind⟩
      next =>
        split
        next => exact List.forall_mem_cons.mpr ⟨by decide, line (ih oneLine.2 m false)⟩
        next => exact line (ih oneLine.2 m skip)

-----------------------------------------------------------------------------------------
-- The meaning of a copy
-----------------------------------------------------------------------------------------

/-- The image ends in an end of line, if it is not empty. -/
def Ended (image : Bytes) : Prop := ∀ c, image.getLast? = some c → isEolChar c

/-- The lines of an image behind which there is an end of line do not end in blanks. -/
theorem trimBlank_of_linesFrom {read front line : Bytes} {c : UInt8} (ends : isEolChar c)
    (member : line ∈ linesFrom read (front ++ [c]))
    : trimBlank line = line := by
  have cut {text : Bytes} (member : line ∈ nonempty (trimBlank text)) : trimBlank line = line := by
    rw [nonempty] at member
    split at member
    next => cases member
    next =>
      rw [List.mem_singleton.mp member]
      exact List.rdropWhile_idempotent ..
  induction front generalizing read with
  | nil =>
      rw [List.nil_append, linesFrom, if_pos ends] at member
      rcases List.mem_append.mp member with here | later
      · exact cut here
      · cases later
  | cons d front ih =>
      rw [List.cons_append, linesFrom] at member
      split at member
      next =>
        rcases List.mem_append.mp member with here | later
        · exact cut here
        · exact ih later
      next => exact ih member

/-- No value of an image that ends in an end of line ends in a blank. -/
theorem Ended.trimmed {image : Bytes} (ended : Ended image) (nulFree : NulFree image) {e : Entry}
    (member : e ∈ parseImage image) {v : Bytes} (shown : e.value = some v)
    : trimBlank v = v := by
  obtain ⟨line, found, parsed⟩ := List.mem_filterMap.mp member
  have oneLine := oneLine_of_imageLines found
  refine trimBlank_value oneLine.nulFree ?_ parsed shown
  cases last : image.getLast? with
  | none =>
      rw [List.getLast?_eq_none_iff.mp last] at found
      cases found
  | some c =>
      obtain ⟨front, rfl⟩ := List.getLast?_eq_some_iff.mp last
      exact trimBlank_of_linesFrom (ended c last) found

/-- The text in columns of a parsed configuration is parsed to entries like its own. -/
theorem alikeEntries_of_parsed {image : Bytes} {c c' : Config} (ended : Ended image)
    (parsed : Parsed image c) (reparsed : Parsed (cfgOutputformatted c) c')
    : c.valid ∧ c'.valid ∧ AlikeEntries c.pool.entries c'.pool.entries := by
  obtain ⟨valid, -, entries⟩ := parsed.entries parsed.nulFree
  obtain ⟨valid', -, entries'⟩ := reparsed.entries reparsed.nulFree
  refine ⟨valid, valid', ?_⟩
  rw [entries', cfgOutputformatted, entries]
  exact alikeEntries_outputformattedFrom (fun e member => readable_of_parseImage member)
    (fun e member v => ended.trimmed parsed.nulFree member) 0 false
    (fun e member id key wide => absurd rfl wide)

/-- A copied configuration is found again by every search in a named section: the text in columns
is read back, and however it is, each search delivers what it delivers in the original.
-/
theorem cfgOutputformatted_preserves {image : Bytes} {c : Config} (ended : Ended image)
    (parsed : Parsed image c)
    : (∃ c', Parsed (cfgOutputformatted c) c')
      ∧ ∀ c',
          Parsed (cfgOutputformatted c) c'
          → ∀ s id, findValue c' (some s) id = findValue c (some s) id := by
  constructor
  · obtain ⟨-, -, entries⟩ := parsed.entries parsed.nulFree
    refine ⟨_, parsed_parseOf ?_⟩
    rw [cfgOutputformatted, entries]
    exact nulFree_outputformattedFrom (fun e member => (readable_of_parseImage member).2) 0 false
  · intro c' reparsed s id
    obtain ⟨valid, valid', alike⟩ := alikeEntries_of_parsed ended parsed reparsed
    rw [findValue_named valid, findValue_named valid', alike.lookupIn_eq]

/-- Witness: two keys of different lengths in a column, with a continuation line between them. -/
theorem cfgOutputformatted_preserves_column
    : findValue (parseOf (cfgOutputformatted (parseOf (text "[s]\nlong=1\n  x=y\nk=2\n"))))
        (some (text "s")) (some (text "k"))
      = .ok (some (some (text "2"))) := by
  have nulFree : NulFree (text "[s]\nlong=1\n  x=y\nk=2\n") := by decide
  have parsed := parsed_parseOf nulFree
  have preserved := (cfgOutputformatted_preserves (by rintro c ⟨⟩; rfl) parsed).2
  exact (preserved _ (parsed_parseOf (by decide)) (text "s") (some (text "k"))).trans rfl

/-- A copy that returns 0 leaves the text in columns in the other file. -/
theorem cfgCopy_ok {sys : SysCalls} {newfile newfile' : Option FileData} {c : Config}
    (copied : cfgCopy sys newfile c = (0, newfile'))
    : newfile' = some ⟨cfgOutputformatted c, sys.time⟩ := by
  rw [cfgCopy] at copied
  split at copied
  next => cases copied
  next =>
    split at copied
    next => cases copied
    next =>
      split at copied
      next => cases copied
      next =>
        split at copied
        next => cases copied
        next => exact (Prod.mk.inj copied).2.symm

/-- The file that `cfg_copy` leaves has the values of the original in every named section. -/
theorem findValue_cfgCopy {image : Bytes} {c c' : Config} {sys : SysCalls}
    {newfile newfile' : Option FileData} (ended : Ended image) (parsed : Parsed image c)
    (copied : cfgCopy sys newfile c = (0, newfile')) (reparsed : Parsed (contentOf newfile') c')
    (s : Bytes) (id : Option Bytes)
    : findValue c' (some s) id = findValue c (some s) id := by
  rw [cfgCopy_ok copied] at reparsed
  obtain ⟨valid, valid', alike⟩ := alikeEntries_of_parsed ended parsed reparsed
  rw [findValue_named valid, findValue_named valid', alike.lookupIn_eq]

end Cvos.CfgFile

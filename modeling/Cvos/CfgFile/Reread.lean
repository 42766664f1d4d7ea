import Cvos.CfgFile.LineGrammar
import Cvos.CfgFile.Output

/-! Reading a printed configuration: the entry that each printed line stands for, and which
entries are read back as they were.
-/

namespace Cvos.CfgFile

open Cvos.Lib

/-- Trimming stops at a character that stays. -/
theorem rdropWhile_append_cons {p : UInt8 → Bool} {c : UInt8} (stays : p c = false)
    (front tail : Bytes)
    : (front ++ c :: tail).rdropWhile p = front ++ c :: tail.rdropWhile p := by
  induction tail using List.reverseRecOn with
  | nil => exact List.rdropWhile_concat_neg _ _ _ (by simp [stays])
  | append_singleton tail d ih =>
      rw [← List.cons_append, ← List.append_assoc]
      by_cases drops : p d
      · rw [List.rdropWhile_concat_pos _ _ _ drops, List.rdropWhile_concat_pos _ _ _ drops, ih]
      · rw [List.rdropWhile_concat_neg _ _ _ drops, List.rdropWhile_concat_neg _ _ _ drops]
        simp

/-- Blanks behind a character that is none are cut off behind it. -/
theorem trimBlank_append_cons {c : UInt8} (filled : isWhite c = false) (front tail : Bytes)
    : trimBlank (front ++ c :: tail) = front ++ c :: trimBlank tail :=
  rdropWhile_append_cons filled front tail

/-- Blanks behind a first character that is none are cut off behind it. -/
theorem trimBlank_cons {c : UInt8} (filled : isWhite c = false) (tail : Bytes)
    : trimBlank (c :: tail) = c :: trimBlank tail := trimBlank_append_cons filled [] tail

/-- A blank is a space character, or the NUL that `strchr` finds. -/
theorem isSpace_of_isWhite {c : UInt8} (blank : isWhite c) : isSpace c ∨ c = 0 := by
  simp only [isWhite, Bool.or_eq_true, beq_iff_eq] at blank
  rcases blank with ((rfl | rfl) | rfl) | rfl
  · exact Or.inl rfl
  · exact Or.inl rfl
  · exact Or.inl rfl
  · exact Or.inr rfl

/-- A text without NUL that does not end in a space character does not end in a blank. -/
theorem trimBlank_of_rtrimText {s : Bytes} (nulFree : NulFree s) (trimmed : rtrimText s = s)
    : trimBlank s = s := by
  rw [trimBlank, List.rdropWhile_eq_self_iff]
  intro filled blank
  rcases isSpace_of_isWhite blank with space | zero
  · exact List.rdropWhile_eq_self_iff.mp trimmed filled space
  · exact nulFree _ (List.getLast_mem filled) zero

/-- A text that does not start with a blank has none to skip. -/
theorem skipwhite_eq_self {s : Bytes} (first : ∀ c, s.head? = some c → isWhite c = false)
    : skipwhite s = s := by
  cases s with
  | nil => rfl
  | cons c s => simp [skipwhite, first c rfl]

/-- The quote that is open behind the text, when `inString` is the one open before it. -/
def openQuote : UInt8 → Bytes → UInt8
  | inString, [] => inString
  | inString, c :: rest =>
      if inString ≠ 0 then openQuote (if c = inString then 0 else inString) rest
      else if c = ch '"' ∨ c = ch '\'' then openQuote c rest
      else openQuote 0 rest

/-- The byte before the rest of a value. -/
def lastOr (previous : UInt8) (s : Bytes) : UInt8 := s.getLast?.getD previous

/-- The quotes that are open behind a byte and a text. -/
theorem openQuote_cons (inString c : UInt8) (s : Bytes)
    : openQuote inString (c :: s) = openQuote (nextQuote inString c) s := by
  rw [openQuote, nextQuote]
  by_cases outside : inString = 0
  · have either : (c = ch '"' ∨ c = ch '\'') ↔ isQuote c := by simp [isQuote, or_comm]
    by_cases quote : isQuote c <;> simp [outside, either, quote]
  · simp [outside]

/-- The quotes that are open behind two texts. -/
theorem openQuote_append (inString : UInt8) (s t : Bytes)
    : openQuote inString (s ++ t) = openQuote (openQuote inString s) t := by
  induction s generalizing inString with
  | nil => rfl
  | cons c s ih => rw [List.cons_append, openQuote_cons, openQuote_cons, ih]

/-- Behind a value without a comment, the search for a comment goes on. -/
theorem cutValue_append {previous inString : UInt8} {s : Bytes}
    (uncut : cutValue previous inString s = (s, none)) (t : Bytes)
    : cutValue previous inString (s ++ t)
      = (cutValue (lastOr previous s) (openQuote inString s) t).map (s ++ ·) id := by
  induction s generalizing previous inString with
  | nil => rfl
  | cons c s ih =>
      have last : lastOr previous (c :: s) = lastOr c s := by
        cases s with
        | nil => rfl
        | cons d s => simp [lastOr, List.getLast?_cons]
      rw [cutValue_cons] at uncut
      rw [List.cons_append, cutValue_cons, openQuote_cons, last]
      split at uncut
      next starts => simp at uncut
      next inner =>
        obtain ⟨value, none⟩ := Prod.mk.inj uncut
        rw [if_neg inner, ih (Prod.ext (List.cons.inj value).2 none)]
        rfl

/-- A comment is cut off where no quote is open, and the value before it has no comment. -/
theorem cutValue_some {previous inString : UInt8} {s value comment : Bytes}
    (cut : cutValue previous inString s = (value, some comment))
    : cutValue previous inString value = (value, none) ∧ openQuote inString value = 0 := by
  induction s generalizing previous inString value with
  | nil => simp [cutValue] at cut
  | cons c s ih =>
      rw [cutValue_cons] at cut
      split at cut
      next starts =>
        obtain ⟨rfl, -⟩ := Prod.mk.inj cut
        exact ⟨rfl, starts.1⟩
      next inner =>
        obtain ⟨rfl, some⟩ := Prod.mk.inj cut
        obtain ⟨uncut, closed⟩ := ih (Prod.ext rfl some)
        rw [cutValue_cons, openQuote_cons, if_neg inner, uncut]
        exact ⟨rfl, closed⟩

/-- The start of a value without a comment has none either. -/
theorem cutValue_front {previous inString : UInt8} {s t : Bytes}
    (uncut : (cutValue previous inString (s ++ t)).2 = none)
    : cutValue previous inString s = (s, none) := by
  induction s generalizing previous inString with
  | nil => rfl
  | cons c s ih =>
      rw [List.cons_append, cutValue_cons] at uncut
      split at uncut
      next starts => simp at uncut
      next inner =>
        rw [cutValue_cons, if_neg inner, ih uncut]
        rfl

/-- A space character is no quote. -/
theorem isQuote_of_isSpace {c : UInt8} (space : isSpace c) : isQuote c = false := by
  cases quote : isQuote c with
  | false => rfl
  | true =>
      simp only [isQuote, Bool.or_eq_true, beq_iff_eq] at quote
      rcases quote with rfl | rfl <;> contradiction

/-- Behind a byte no quote is open, or one of the two. -/
theorem nextQuote_state {inString : UInt8} (state : inString = 0 ∨ isQuote inString) (c : UInt8)
    : nextQuote inString c = 0 ∨ isQuote (nextQuote inString c) := by
  rw [nextQuote]
  split
  next =>
    split
    next => exact Or.inl rfl
    next => exact state
  next =>
    split
    next quote => exact Or.inr quote
    next => exact Or.inl rfl

/-- A byte that is no quote neither opens nor closes one. -/
theorem nextQuote_plain {inString : UInt8} (state : inString = 0 ∨ isQuote inString) {c : UInt8}
    (unquoted : isQuote c = false)
    : nextQuote inString c = inString := by
  by_cases outside : inString = 0
  · simp [nextQuote, outside, unquoted]
  · have other : c ≠ inString := by
      rintro rfl
      rw [state.resolve_left outside] at unquoted
      contradiction
    simp [nextQuote, outside, other]

/-- Behind any text no quote is open, or one of the two. -/
theorem openQuote_state {inString : UInt8} (state : inString = 0 ∨ isQuote inString) (s : Bytes)
    : openQuote inString s = 0 ∨ isQuote (openQuote inString s) := by
  induction s generalizing inString with
  | nil => exact state
  | cons c s ih =>
      rw [openQuote_cons]
      exact ih (nextQuote_state state c)

/-- A text without quotes neither opens nor closes one. -/
theorem openQuote_plain {inString : UInt8} (state : inString = 0 ∨ isQuote inString) {s : Bytes}
    (unquoted : ∀ c ∈ s, isQuote c = false)
    : openQuote inString s = inString := by
  induction s with
  | nil => rfl
  | cons c s ih =>
      obtain ⟨here, behind⟩ := List.forall_mem_cons.mp unquoted
      rw [openQuote_cons, nextQuote_plain state here, ih behind]

/-- The quotes that are open behind a text are those open behind its trimmed text. -/
theorem openQuote_rtrimText (s : Bytes) : openQuote 0 (rtrimText s) = openQuote 0 s := by
  have unquoted : ∀ c ∈ s.rtakeWhile isSpace, isQuote c = false :=
    fun c member => isQuote_of_isSpace (List.mem_rtakeWhile_imp member)
  conv => rhs; rw [← List.rdropWhile_append_rtakeWhile (p := isSpace) (l := s)]
  rw [openQuote_append, openQuote_plain (openQuote_state (Or.inl rfl) _) unquoted, rtrimText]

/-- A section name that a header line can carry. -/
structure ReadableName (name : Bytes) : Prop where
  filled : name ≠ []
  first : ∀ c, name.head? = some c → isWhite c = false
  closed : ch ']' ∉ name
  trimmed : rtrimText name = name

/-- An id that a line can start with. -/
structure ReadableId (id : Bytes) : Prop where
  first : ∀ c, id.head? = some c → isWhite c = false ∧ c ≠ ch '[' ∧ c ≠ commentMagic01
  noEquals : ch '=' ∉ id
  trimmed : rtrimText id = id

/-- A value in which no comment starts and, when a comment follows it, no quote is open. -/
structure ReadableValue (value : Bytes) (comment : Option Bytes) : Prop where
  first : ∀ c, value.head? = some c → isWhite c = false
  uncut : cutValue 0 0 value = (value, none)
  closed : comment.isSome → openQuote 0 value = 0 ∧ rtrimText value = value

/-- An entry that the parser can have stored. -/
inductive Readable : Entry → Prop
  | header {name : Bytes} {comment : Option Bytes} (readable : ReadableName name)
    : Readable ⟨some name, none, none, comment⟩
  | define {id value : Bytes} {comment : Option Bytes} (key : ReadableId id)
    (readable : ReadableValue value comment)
    : Readable ⟨none, some id, some value, comment⟩
  | continued {value : Bytes} {comment : Option Bytes} (readable : ReadableValue value comment)
    (first : ∀ c, value.head? = some c → c ≠ ch '[')
    : Readable ⟨none, none, some value, comment⟩
  | comment {comment : Bytes} : Readable ⟨none, none, none, some comment⟩

/-- The texts of the entry lie in one line each. -/
structure EntryOneLine (e : Entry) : Prop where
  sectionName : ∀ s, e.sectionName = some s → OneLine s
  id : ∀ s, e.id = some s → OneLine s
  value : ∀ s, e.value = some s → OneLine s
  comment : ∀ s, e.comment = some s → OneLine s

/-- The first character of a text is that of what it starts. -/
theorem head?_of_isPrefix {s t : Bytes} (starts : s <+: t) {c : UInt8} (first : s.head? = some c)
    : t.head? = some c := by
  obtain ⟨rest, rfl⟩ := starts
  rw [List.head?_append, first, Option.some_or]

/-- A text starts with its trimmed text. -/
theorem rtrimText_isPrefix (s : Bytes) : rtrimText s <+: s := List.rdropWhile_prefix ..

/-- A text starts with its value. -/
theorem splitValue_isPrefix (s : Bytes) : (splitValue s).1 <+: s := by
  rw [splitValue]
  match cut : cutValue 0 0 s with
  | (value, none) => exact ⟨[], by rw [List.append_nil, ← eq_of_cutValue_none cut]⟩
  | (value, some comment) =>
      obtain ⟨c, rfl⟩ := eq_of_cutValue_some cut
      exact (rtrimText_isPrefix value).trans (List.prefix_append ..)

/-- What is left after skipping blanks starts with none. -/
theorem head?_skipwhite {s : Bytes} {c : UInt8} (first : (skipwhite s).head? = some c)
    : isWhite c = false := by
  cases rest : skipwhite s with
  | nil => simp [rest] at first
  | cons d t =>
      rw [rest, List.head?_cons, Option.some.injEq] at first
      subst first
      exact skipwhite_eq_cons rest

/-- The value behind a key or at the start of a continuation can be read back. -/
theorem readableValue_splitValue (s : Bytes)
    : ReadableValue (splitValue (skipwhite s)).1 (splitValue (skipwhite s)).2 := by
  have first : ∀ c, (splitValue (skipwhite s)).1.head? = some c → isWhite c = false :=
    fun c first => head?_skipwhite (head?_of_isPrefix (splitValue_isPrefix _) first)
  generalize skipwhite s = t at *
  revert first
  rw [splitValue]
  match cut : cutValue 0 0 t with
  | (value, none) =>
      intro first
      have same := eq_of_cutValue_none cut
      exact ⟨first, same ▸ cut, by simp⟩
  | (value, some comment) =>
      intro first
      obtain ⟨uncut, closed⟩ := cutValue_some cut
      refine ⟨first, ?_, fun _ => ⟨?_, List.rdropWhile_idempotent ..⟩⟩
      · have parts : rtrimText value ++ value.rtakeWhile isSpace = value :=
          List.rdropWhile_append_rtakeWhile ..
        exact cutValue_front (t := value.rtakeWhile isSpace) (by rw [parts, uncut])
      · rw [openQuote_rtrimText, closed]

/-- Every stored entry can be read back. -/
theorem LineShape.readable {line : Bytes} {e : Entry} (shape : LineShape line e)
    : Readable e := by
  cases shape with
  | @header rest name tail starts split named =>
      obtain ⟨same, closed⟩ := splitAtChar_eq_some.mp split
      have begins : rtrimText name <+: skipwhite rest :=
        (rtrimText_isPrefix name).trans (same ▸ List.prefix_append ..)
      exact .header ⟨named, fun c first => head?_skipwhite (head?_of_isPrefix begins first),
        fun member => closed (rtrimText_subset name member), List.rdropWhile_idempotent ..⟩
  | comment starts => exact .comment
  | continued first =>
      refine .continued (readableValue_splitValue line) ?_
      intro c head
      exact (first c (head?_of_isPrefix (splitValue_isPrefix _) head)).1
  | @define id rest first split =>
      obtain ⟨same, absent⟩ := splitAtChar_eq_some.mp split
      have begins : rtrimText id <+: line :=
        (rtrimText_isPrefix id).trans (same ▸ List.prefix_append ..)
      exact .define ⟨fun c head => first c (head?_of_isPrefix begins head),
        fun member => absent (rtrimText_subset id member), List.rdropWhile_idempotent ..⟩
        (readableValue_splitValue rest)

/-- The entry that a printed entry is read back as, if any. -/
def reread (e : Entry) : Option Entry :=
  if trimBlank (printEntry e) = [] then none else parseLine (trimBlank (printEntry e))

/-- A line that starts with neither a blank nor a special character is one with a key. -/
theorem parseLine_define {line : Bytes} (filled : line ≠ [])
    (first : ∀ c, line.head? = some c → isWhite c = false ∧ c ≠ ch '[' ∧ c ≠ commentMagic01)
    : parseLine line = parseDefine line := by
  obtain ⟨c, rest, rfl⟩ := List.exists_cons_of_ne_nil filled
  obtain ⟨visible, header, comment⟩ := first c rfl
  simp [parseLine, skipwhite, visible, parseItem, header, comment]

/-- A printed value, with its comment, is read back as it was, without trailing blanks. -/
theorem splitValue_printed {value : Bytes} {comment : Option Bytes}
    (readable : ReadableValue value comment) (oneLine : OneLine value)
    : (splitValue (skipwhite (trimBlank (value ++ printComment comment)))).1
      = trimBlank value := by
  have nulFree : NulFree value := by
    rintro c member rfl
    exact absurd (oneLine 0 member) (by decide)
  cases comment with
  | none =>
      have begins : trimBlank value <+: value := List.rdropWhile_prefix ..
      obtain ⟨blanks, parts⟩ := begins
      have uncut : cutValue 0 0 (trimBlank value) = (trimBlank value, none) :=
        cutValue_front (t := blanks) (by rw [parts, readable.uncut])
      rw [printComment, List.append_nil,
        skipwhite_eq_self fun c first => readable.first c (head?_of_isPrefix ⟨blanks, parts⟩ first),
        splitValue, uncut]
  | some comment =>
      obtain ⟨closed, trimmed⟩ := readable.closed rfl
      have printed
          : trimBlank (value ++ printComment (some comment))
            = value ++ ch '\t' :: ch ';' :: trimBlank comment := by
        have cut := trimBlank_append_cons (c := ch ';') rfl (value ++ [ch '\t']) comment
        simpa [printComment] using cut
      rw [printed, trimBlank_of_rtrimText nulFree trimmed]
      cases value with
      | nil => rfl
      | cons c value =>
          rw [skipwhite_eq_self (s := c :: value ++ _) fun d first => readable.first d first,
            splitValue, cutValue_append readable.uncut, closed]
          have tab (previous : UInt8)
              : cutValue previous 0 (ch '\t' :: ch ';' :: trimBlank comment)
                = ([ch '\t'], some (trimBlank comment)) := rfl
          rw [tab]
          simp only [Prod.map_apply, id_eq]
          rw [rtrimText, List.rdropWhile_concat_pos _ _ _ rfl]
          exact trimmed

/-- A printed header is read back as a header of its name. -/
theorem reread_header {name : Bytes} (readable : ReadableName name) (comment : Option Bytes)
    : ∃ comment',
        reread ⟨some name, none, none, comment⟩ = some ⟨some name, none, none, comment'⟩ := by
  have printed
      : trimBlank (printEntry ⟨some name, none, none, comment⟩)
        = ch '[' :: (name ++ ch ']' :: trimBlank (printComment comment)) :=
    trimBlank_append_cons (c := ch ']') rfl (ch '[' :: name) _
  obtain ⟨c, rest, same⟩ := List.exists_cons_of_ne_nil readable.filled
  have start
      : skipwhite (name ++ ch ']' :: trimBlank (printComment comment))
        = name ++ ch ']' :: trimBlank (printComment comment) := by
    refine skipwhite_eq_self ?_
    intro d first
    refine readable.first d ?_
    simpa [same] using first
  have split
      : splitAtChar (ch ']') (name ++ ch ']' :: trimBlank (printComment comment))
        = some (name, trimBlank (printComment comment)) :=
    splitAtChar_eq_some.mpr ⟨rfl, readable.closed⟩
  refine ⟨commentOf (skipwhite (trimBlank (printComment comment))), ?_⟩
  rw [reread, printed, if_neg (by simp), parseLine, skipwhite_eq_self (by simp; rfl)]
  simp [parseItem, parseHeader, start, split, readable.trimmed, readable.filled]

/-- A printed entry with a key is read back with the key, and the value and comment that stand
behind the `=`.
-/
theorem reread_key {id : Bytes} (key : ReadableId id) (value : Bytes) (comment : Option Bytes)
    : reread ⟨none, some id, some value, comment⟩
      = some
          ⟨none, some id,
            some (splitValue (skipwhite (trimBlank (value ++ printComment comment)))).1,
            (splitValue (skipwhite (trimBlank (value ++ printComment comment)))).2⟩ := by
  have printed
      : trimBlank (printEntry ⟨none, some id, some value, comment⟩)
        = id ++ ch '=' :: trimBlank (value ++ printComment comment) :=
    trimBlank_append_cons rfl id _
  have filled : id ++ ch '=' :: trimBlank (value ++ printComment comment) ≠ [] := by simp
  have first
      : ∀ c,
          (id ++ ch '=' :: trimBlank (value ++ printComment comment)).head? = some c
          → isWhite c = false ∧ c ≠ ch '[' ∧ c ≠ commentMagic01 := by
    intro c head
    cases id with
    | nil =>
        obtain rfl := Option.some.inj head
        decide
    | cons d id => exact key.first c head
  have split
      : splitAtChar (ch '=') (id ++ ch '=' :: trimBlank (value ++ printComment comment))
        = some (id, trimBlank (value ++ printComment comment)) :=
    splitAtChar_eq_some.mpr ⟨rfl, key.noEquals⟩
  rw [reread, printed, if_neg filled, parseLine_define filled first]
  simp [parseDefine, split, key.trimmed]

/-- A printed entry with a key is read back with the value without trailing blanks. -/
theorem reread_define {id value : Bytes} (key : ReadableId id) {comment : Option Bytes}
    (readable : ReadableValue value comment) (oneLine : OneLine value)
    : ∃ comment',
        reread ⟨none, some id, some value, comment⟩
          = some ⟨none, some id, some (trimBlank value), comment'⟩ :=
  ⟨_, by rw [reread_key key, splitValue_printed readable oneLine]⟩

/-- A printed comment is read back as a comment. -/
theorem reread_comment (comment : Bytes)
    : reread ⟨none, none, none, some comment⟩
      = some ⟨none, none, none, some (trimBlank comment)⟩ := by
  have printed
      : trimBlank (printEntry ⟨none, none, none, some comment⟩) = ch ';' :: trimBlank comment :=
    trimBlank_cons rfl comment
  rw [reread, printed, if_neg (by simp), parseLine, skipwhite_eq_self (by simp; rfl)]
  rfl

/-- A value that can be read back does not start with a comment character. -/
theorem ReadableValue.first_no_comment {value : Bytes} {comment : Option Bytes}
    (readable : ReadableValue value comment) {c : UInt8} (first : value.head? = some c)
    : isComment c = false := by
  cases value with
  | nil => contradiction
  | cons d value =>
      obtain rfl := Option.some.inj first
      have uncut := readable.uncut
      rw [cutValue_cons] at uncut
      split at uncut
      next starts => simp at uncut
      next inner => simpa [show isWhite 0 from rfl] using inner

/-- A printed continuation without a value is read back as its comment. -/
theorem reread_emptyValue (comment : Option Bytes)
    : reread ⟨none, none, some [], comment⟩
      = comment.map fun comment => ⟨none, none, none, some (trimBlank comment)⟩ := by
  cases comment with
  | none => rfl
  | some comment =>
      have printed
          : trimBlank (printEntry ⟨none, none, some [], some comment⟩)
            = ch '\t' :: ch ';' :: trimBlank comment :=
        trimBlank_append_cons (c := ch ';') rfl [ch '\t'] comment
      rw [reread, printed]
      rfl

/-- A printed continuation is read back as a line with a key. -/
theorem reread_unindented {c : UInt8} {value : Bytes} {comment : Option Bytes}
    (readable : ReadableValue (c :: value) comment)
    (first : ∀ d, (c :: value).head? = some d → d ≠ ch '[')
    : reread ⟨none, none, some (c :: value), comment⟩
      = parseDefine (trimBlank (c :: value ++ printComment comment)) := by
  have visible := readable.first c rfl
  have printed
      : trimBlank (printEntry ⟨none, none, some (c :: value), comment⟩)
        = c :: trimBlank (value ++ printComment comment) := trimBlank_cons visible _
  have noComment : c ≠ commentMagic01 := by
    rintro rfl
    exact absurd (readable.first_no_comment rfl) (by decide)
  rw [reread, printed, if_neg (by simp), parseLine_define (by simp), List.cons_append,
    trimBlank_cons visible]
  intro d head
  obtain rfl := Option.some.inj head
  exact ⟨visible, first c rfl, noComment⟩

/-- A printed continuation is not read back as a header. -/
theorem reread_continued {value : Bytes} {comment : Option Bytes}
    (readable : ReadableValue value comment) (first : ∀ c, value.head? = some c → c ≠ ch '[')
    {e : Entry} (read : reread ⟨none, none, some value, comment⟩ = some e)
    : e.sectionName = none := by
  cases value with
  | nil =>
      rw [reread_emptyValue, Option.map_eq_some_iff] at read
      obtain ⟨comment, -, rfl⟩ := read
      rfl
  | cons c value =>
      rw [reread_unindented readable first] at read
      obtain ⟨id, rest, -, rfl⟩ := parseDefine_eq_some read
      rfl

/-- The end of a text that does not end in a blank does not end in one. -/
theorem trimBlank_suffix {s t : Bytes} (ends : t <:+ s) (trimmed : trimBlank s = s)
    : trimBlank t = t := by
  obtain ⟨front, rfl⟩ := ends
  rw [trimBlank, List.rdropWhile_eq_self_iff] at trimmed ⊢
  intro filled
  have last := trimmed (by simp [filled])
  rwa [List.getLast_append_of_right_ne_nil _ _ filled] at last

/-- The value in a text that does not end in a blank does not end in one. -/
theorem trimBlank_splitValue {s : Bytes} (nulFree : NulFree s) (trimmed : trimBlank s = s)
    : trimBlank (splitValue s).1 = (splitValue s).1 := by
  rw [splitValue]
  match cut : cutValue 0 0 s with
  | (value, none) => exact eq_of_cutValue_none cut ▸ trimmed
  | (value, some comment) =>
      obtain ⟨c, rfl⟩ := eq_of_cutValue_some cut
      obtain ⟨nulFree, -⟩ := nulFree_append.mp nulFree
      exact trimBlank_of_rtrimText (fun c member => nulFree c (rtrimText_subset value member))
        (List.rdropWhile_idempotent ..)

/-- A value read from a line without trailing blanks does not end in a blank. -/
theorem trimBlank_value {line : Bytes} (nulFree : NulFree line) (trimmed : trimBlank line = line)
    {e : Entry} (parsed : parseLine line = some e) {value : Bytes} (shown : e.value = some value)
    : trimBlank value = value := by
  have ends (s : Bytes) : skipwhite s <:+ s := List.dropWhile_suffix _
  cases parseLine_shape parsed with
  | header | comment => contradiction
  | continued first =>
      obtain rfl := Option.some.inj shown
      exact trimBlank_splitValue (fun c member => nulFree c (skipwhite_subset line member))
        (trimBlank_suffix (ends line) trimmed)
  | @define id rest first split =>
      obtain rfl := Option.some.inj shown
      obtain ⟨rfl, -⟩ := splitAtChar_eq_some.mp split
      have suffix : skipwhite rest <:+ id ++ ch '=' :: rest :=
        (ends rest).trans ((List.suffix_cons _ _).trans (List.suffix_append ..))
      exact trimBlank_splitValue (fun c member => nulFree c (suffix.subset member))
        (trimBlank_suffix suffix trimmed)

/-- A value that is read back does not end in a blank. -/
theorem trimBlank_reread {e e' : Entry} (nulFree : NulFree (printEntry e))
    (read : reread e = some e') {value : Bytes} (shown : e'.value = some value)
    : trimBlank value = value := by
  rw [reread] at read
  split at read
  next => contradiction
  next =>
    exact trimBlank_value (fun c member => nulFree c (trimBlank_subset _ member))
      (List.rdropWhile_idempotent ..) read shown

/-- A text of one line has no NUL. -/
theorem OneLine.nulFree {s : Bytes} (oneLine : OneLine s) : NulFree s := by
  rintro c member rfl
  exact absurd (oneLine 0 member) (by decide)

/-- A printed entry is one line when its texts are. -/
theorem EntryOneLine.printEntry {e : Entry} (oneLine : EntryOneLine e)
    : OneLine (printEntry e) := by
  have comment : OneLine (printComment e.comment) := by
    cases shown : e.comment with
    | none => simp [printComment, OneLine]
    | some comment =>
        exact List.forall_mem_cons.mpr
          ⟨rfl, List.forall_mem_cons.mpr ⟨rfl, oneLine.comment _ shown⟩⟩
  obtain ⟨sectionName, id, value, text⟩ := e
  cases sectionName with
  | some name =>
      have name := oneLine.sectionName _ rfl
      exact List.forall_mem_cons.mpr
        ⟨rfl, List.forall_mem_append.mpr ⟨name, List.forall_mem_cons.mpr ⟨rfl, comment⟩⟩⟩
  | none =>
      cases value with
      | some value =>
          have value := List.forall_mem_append.mpr ⟨oneLine.value _ rfl, comment⟩
          cases id with
          | none => exact value
          | some id =>
              exact List.forall_mem_append.mpr
                ⟨oneLine.id _ rfl, List.forall_mem_cons.mpr ⟨rfl, value⟩⟩
      | none =>
          cases text with
          | none => cases id <;> simp [CfgFile.printEntry, OneLine]
          | some text =>
              have alone : OneLine (ch ';' :: text) :=
                List.forall_mem_cons.mpr ⟨rfl, oneLine.comment _ rfl⟩
              cases id <;> exact alone

/-- The entry that a line with its end is read as, if any. -/
def lineEntry (line : Bytes) : Option Entry :=
  if trimBlank line = [] then none else parseLine (trimBlank line)

/-- A line in front of an image is read in front of its entries. -/
theorem parseImage_line {line : Bytes} (oneLine : OneLine line) (rest : Bytes)
    : parseImage (line ++ ch '\n' :: rest) = (lineEntry line).toList ++ parseImage rest := by
  rw [parseImage, imageLines_line oneLine rfl, List.filterMap_append, ← parseImage, lineEntry]
  by_cases empty : trimBlank line = []
  · simp [nonempty, empty]
  · cases read : parseLine (trimBlank line) <;> simp [nonempty, empty, read]

/-- A blank line in front of an image is not read. -/
theorem parseImage_blank (rest : Bytes) : parseImage (ch '\n' :: rest) = parseImage rest := by
  rw [parseImage, parseImage]
  exact congrArg _ (@imageLines_eols [ch '\n'] (by decide) rest)

/-- Reading a printed configuration reads its entries back one by one. -/
theorem parseImage_outputFrom (skip : Bool) {es : List Entry} (oneLine : ∀ e ∈ es, EntryOneLine e)
    : parseImage (outputFrom skip es) = es.filterMap reread := by
  induction es generalizing skip with
  | nil => rfl
  | cons e es ih =>
      have line : OneLine (printEntry e) := (oneLine e List.mem_cons_self).printEntry
      have further (skip : Bool) :=
        ih skip fun x member => oneLine x (List.mem_cons_of_mem e member)
      have entry (skip : Bool)
          : parseImage (printEntry e ++ ch '\n' :: outputFrom skip es)
            = (e :: es).filterMap reread := by
        rw [parseImage_line line, further, List.filterMap_cons, lineEntry, ← reread]
        cases reread e <;> rfl
      rw [outputFrom]
      split
      next =>
        cases skip
        · simpa using entry true
        · simpa [parseImage_blank] using entry true
      next =>
        split
        next => rw [parseImage_blank, entry]
        next => exact entry skip

/-- A comment is a part of the text it is found in. -/
theorem commentOf_subset {s comment : Bytes} (found : commentOf s = some comment)
    : comment ⊆ s := by
  cases s with
  | nil => simp [commentOf] at found
  | cons c s =>
      rw [commentOf] at found
      split at found
      next =>
        obtain rfl := Option.some.inj found
        exact List.subset_cons_self c s
      next => contradiction

/-- The comment behind a value is a part of the text. -/
theorem splitValue_comment_subset {s comment : Bytes} (found : (splitValue s).2 = some comment)
    : comment ⊆ s := by
  revert found
  rw [splitValue]
  match cut : cutValue 0 0 s with
  | (value, none) => simp
  | (value, some text) =>
      intro found
      obtain rfl := Option.some.inj found
      obtain ⟨c, rfl⟩ := eq_of_cutValue_some cut
      exact fun d member => List.mem_append_right _ (List.mem_cons_of_mem c member)

/-- The texts of an entry are parts of its line. -/
theorem LineShape.oneLine {line : Bytes} {e : Entry} (shape : LineShape line e)
    (oneLine : OneLine line)
    : EntryOneLine e := by
  have within {part : Bytes} (inside : part ⊆ line) : OneLine part :=
    fun c member => oneLine c (inside member)
  have none (s : Bytes) (found : (none : Option Bytes) = some s) : OneLine s := by contradiction
  cases shape with
  | @header rest name tail starts split named =>
      obtain ⟨same, -⟩ := splitAtChar_eq_some.mp split
      have inside : name ++ ch ']' :: tail ⊆ line := by
        rw [← same]
        refine List.Subset.trans (skipwhite_subset rest) ?_
        exact fun c member => skipwhite_subset line (starts ▸ List.mem_cons_of_mem _ member)
      refine ⟨?_, none, none, ?_⟩
      · rintro s ⟨⟩
        exact within fun c member =>
          inside (List.mem_append_left _ (rtrimText_subset name member))
      · intro s found
        exact within fun c member =>
          inside (List.mem_append_right _
            (List.mem_cons_of_mem _ (skipwhite_subset tail (commentOf_subset found member))))
  | @comment rest starts =>
      refine ⟨none, none, none, ?_⟩
      rintro s ⟨⟩
      exact within fun c member => skipwhite_subset line (starts ▸ List.mem_cons_of_mem _ member)
  | continued first =>
      refine ⟨none, none, ?_, ?_⟩
      · rintro s ⟨⟩
        exact within fun c member => skipwhite_subset line ((splitValue_isPrefix _).subset member)
      · intro s found
        exact within fun c member => skipwhite_subset line (splitValue_comment_subset found member)
  | @define id rest first split =>
      obtain ⟨rfl, -⟩ := splitAtChar_eq_some.mp split
      have inside : skipwhite rest ⊆ id ++ ch '=' :: rest := fun c member =>
        List.mem_append_right _ (List.mem_cons_of_mem _ (skipwhite_subset rest member))
      refine ⟨none, ?_, ?_, ?_⟩
      · rintro s ⟨⟩
        exact within fun c member => List.mem_append_left _ (rtrimText_subset id member)
      · rintro s ⟨⟩
        exact within fun c member => inside ((splitValue_isPrefix _).subset member)
      · intro s found
        exact within fun c member => inside (splitValue_comment_subset found member)

/-- Every entry of an image can be read back, and lies in one line. -/
theorem readable_of_parseImage {image : Bytes} {e : Entry} (member : e ∈ parseImage image)
    : Readable e ∧ EntryOneLine e := by
  obtain ⟨line, found, parsed⟩ := List.mem_filterMap.mp member
  have shape := parseLine_shape parsed
  exact ⟨shape.readable, shape.oneLine (oneLine_of_imageLines found)⟩

/-- A printed configuration has no NUL when its entries lie in one line each. -/
theorem nulFree_outputFrom (skip : Bool) {es : List Entry} (oneLine : ∀ e ∈ es, EntryOneLine e)
    : NulFree (outputFrom skip es) := by
  induction es generalizing skip with
  | nil => simp [outputFrom, NulFree]
  | cons e es ih =>
      have line := (oneLine e List.mem_cons_self).printEntry.nulFree
      have further (skip : Bool) :=
        ih skip fun x member => oneLine x (List.mem_cons_of_mem e member)
      have entry (skip : Bool) : NulFree (printEntry e ++ ch '\n' :: outputFrom skip es) :=
        nulFree_append.mpr ⟨line, List.forall_mem_cons.mpr ⟨by decide, further skip⟩⟩
      have blank {rest : Bytes} (nulFree : NulFree rest) : NulFree (ch '\n' :: rest) :=
        List.forall_mem_cons.mpr ⟨by decide, nulFree⟩
      rw [outputFrom]
      split
      next =>
        cases skip
        · simpa using entry true
        · simpa using blank (entry true)
      next =>
        split
        next => exact blank (entry false)
        next => exact entry skip

end Cvos.CfgFile

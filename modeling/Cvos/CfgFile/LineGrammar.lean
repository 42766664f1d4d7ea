import Cvos.CfgFile.Entry

/-! What an image means, without the in-place cutting: the lines of the image, and the entry
that each line stands for.
-/

namespace Cvos.CfgFile

open Cvos.Lib

/-- The text with its trailing blanks cut off, as `_cfg_getline` does. -/
def trimBlank (line : Bytes) : Bytes := line.rdropWhile isWhite

/-- The text with its trailing space characters cut off, as `rtrim` does. -/
def rtrimText (s : Bytes) : Bytes := s.rdropWhile isSpace

/-- The text without its leading blanks. -/
def skipwhite (s : Bytes) : Bytes := s.dropWhile isWhite

/-- The line, unless it is empty. -/
def nonempty (line : Bytes) : List Bytes := if line = [] then [] else [line]

/-- The lines of the image when `line` has already been read of the first one. -/
def linesFrom : Bytes → Bytes → List Bytes
  | line, [] => nonempty line
  | line, c :: rest =>
      if isEolChar c then
        nonempty (trimBlank line) ++ linesFrom [] rest
      else
        linesFrom (line ++ [c]) rest

/-- The lines that `_cfg_getline` finds in an image. -/
def imageLines (image : Bytes) : List Bytes := linesFrom [] image

/-- The value before a comment and the comment, when `previous` stands before the text and
`inString` is the open quote, or zero.
-/
def cutValue : UInt8 → UInt8 → Bytes → Bytes × Option Bytes
  | _, _, [] => ([], none)
  | previous, inString, c :: rest =>
      if inString ≠ 0 then
        (cutValue c (if c = inString then 0 else inString) rest).map (c :: ·) id
      else if c = ch '"' ∨ c = ch '\'' then
        (cutValue c c rest).map (c :: ·) id
      else if isComment c ∧ isWhite previous then
        ([], some rest)
      else
        (cutValue c 0 rest).map (c :: ·) id

/-- The value and the comment of the text after a key or at the start of a continuation
line, where the byte before the text counts as a blank.
-/
def splitValue (s : Bytes) : Bytes × Option Bytes :=
  match cutValue 0 0 s with
  | (value, none) => (value, none)
  | (value, some comment) => (rtrimText value, some comment)

/-- The comment that starts the text, if one does. -/
def commentOf : Bytes → Option Bytes
  | [] => none
  | c :: rest => if isComment c then some rest else none

/-- The text before and after the first `c`. -/
def splitAtChar (c : UInt8) : Bytes → Option (Bytes × Bytes)
  | [] => none
  | b :: rest =>
      if b = c then some ([], rest) else (splitAtChar c rest).map (Prod.map (b :: ·) id)

/-- The header entry of the text after a `[`. -/
def parseHeader (s : Bytes) : Option Entry := do
  let (name, rest) ← splitAtChar (ch ']') (skipwhite s)
  if rtrimText name = [] then
    none
  else
    some ⟨some (rtrimText name), none, none, commentOf (skipwhite rest)⟩

/-- The entry of a line `key = value`. -/
def parseDefine (line : Bytes) : Option Entry := do
  let (id, rest) ← splitAtChar (ch '=') line
  let (value, comment) := splitValue (skipwhite rest)
  some ⟨none, some (rtrimText id), some value, comment⟩

/-- The entry of a continuation line without its leading blanks. -/
def parseContinue (s : Bytes) : Entry :=
  let (value, comment) := splitValue s
  ⟨none, none, some value, comment⟩

/-- The entry that the text of a line behind its leading blanks stands for, if any. Only a
last line without terminator can consist of blanks, and it is a continuation with an empty
value.
-/
def parseItem (isContinue : Bool) : Bytes → Option Entry
  | [] => if isContinue then some (parseContinue []) else none
  | c :: rest =>
      if c = ch '[' then
        parseHeader rest
      else if c = commentMagic01 then
        some ⟨none, none, none, some rest⟩
      else if isContinue then
        some (parseContinue (c :: rest))
      else
        parseDefine (c :: rest)

/-- The entry that a line stands for, if any. -/
def parseLine (line : Bytes) : Option Entry :=
  parseItem ((line.head?.map isWhite).getD false) (skipwhite line)

/-- The entries of an image. -/
def parseImage (image : Bytes) : List Entry := (imageLines image).filterMap parseLine

/-- The text has no NUL. -/
def NulFree (s : Bytes) : Prop := ∀ c ∈ s, c ≠ 0

instance (s : Bytes) : Decidable (NulFree s) := inferInstanceAs (Decidable (∀ c ∈ s, c ≠ 0))

/-- The text is part of one line. -/
def OneLine (s : Bytes) : Prop := ∀ c ∈ s, isEolChar c = false

instance (s : Bytes) : Decidable (OneLine s) :=
  inferInstanceAs (Decidable (∀ c ∈ s, isEolChar c = false))

/-- A text without NUL is no terminator. -/
theorem NulFree.bne {s : Bytes} (h : NulFree s) : ∀ c ∈ s, (c != 0) = true := by
  intro c member
  simpa using h c member

/-- Both parts of a text without NUL are without NUL. -/
theorem nulFree_append {s t : Bytes} : NulFree (s ++ t) ↔ NulFree s ∧ NulFree t :=
  List.forall_mem_append

/-- The quote that is open behind the byte `c`, or zero, when `inString` is open before it. -/
def nextQuote (inString c : UInt8) : UInt8 :=
  if inString ≠ 0 then
    if c = inString then 0 else inString
  else if isQuote c then c
  else 0

/-- The quotes are no comment characters. -/
theorem isComment_of_isQuote {c : UInt8} (quote : isQuote c) : isComment c = false := by
  simp only [isQuote, Bool.or_eq_true, beq_iff_eq] at quote
  rcases quote with rfl | rfl <;> rfl

/-- A comment starts at a byte, outside of quotes and behind a blank, or it belongs to the value. -/
theorem cutValue_cons (previous inString c : UInt8) (s : Bytes)
    : cutValue previous inString (c :: s)
      = if inString = 0 ∧ isComment c ∧ isWhite previous then ([], some s)
        else (cutValue c (nextQuote inString c) s).map (c :: ·) id := by
  rw [cutValue, nextQuote]
  by_cases outside : inString = 0
  · have either : (c = ch '"' ∨ c = ch '\'') ↔ isQuote c := by simp [isQuote, or_comm]
    by_cases quote : isQuote c
    · simp [outside, either, quote, isComment_of_isQuote quote]
    · simp [outside, either, quote]
  · simp [outside]

/-- A value without a comment is the whole text. -/
theorem eq_of_cutValue_none {previous inString : UInt8} {s value : Bytes}
    (h : cutValue previous inString s = (value, none))
    : s = value := by
  induction s generalizing previous inString value with
  | nil => simpa [cutValue, eq_comm] using h
  | cons c s ih =>
      rw [cutValue_cons] at h
      split at h
      next starts => simp at h
      next inner =>
        obtain ⟨rfl, none⟩ := Prod.mk.inj h
        exact congrArg (c :: ·) (ih (Prod.ext rfl none))

/-- A value with a comment ends before the comment's first character. -/
theorem eq_of_cutValue_some {previous inString : UInt8} {s value comment : Bytes}
    (h : cutValue previous inString s = (value, some comment))
    : ∃ c, s = value ++ c :: comment := by
  induction s generalizing previous inString value with
  | nil => simp [cutValue] at h
  | cons c s ih =>
      rw [cutValue_cons] at h
      split at h
      next starts =>
        obtain ⟨rfl, rest⟩ := Prod.mk.inj h
        exact ⟨c, congrArg (c :: ·) (Option.some.inj rest)⟩
      next inner =>
        obtain ⟨rfl, some⟩ := Prod.mk.inj h
        obtain ⟨d, parts⟩ := ih (Prod.ext rfl some)
        exact ⟨d, congrArg (c :: ·) parts⟩

/-- A character that is found splits the text at its first occurrence. -/
theorem splitAtChar_eq_some {c : UInt8} {s l r : Bytes}
    : splitAtChar c s = some (l, r) ↔ s = l ++ c :: r ∧ c ∉ l := by
  induction s generalizing l with
  | nil => simp [splitAtChar]
  | cons b s ih =>
      rw [splitAtChar]
      split
      next same =>
        subst same
        cases l with
        | nil => simp [eq_comm]
        | cons d l =>
            simp only [Option.some.injEq, Prod.mk.injEq, reduceCtorEq, false_and, List.cons_append,
              List.cons.injEq, List.mem_cons, not_or, false_iff, not_and, Classical.not_not]
            rintro ⟨rfl, -⟩ other
            exact absurd rfl other
      next other =>
        cases l with
        | nil => simp [other]
        | cons d l =>
            simp only [Option.map_eq_some_iff, Prod.exists, Prod.map_apply, id_eq, Prod.mk.injEq,
              List.cons.injEq, List.cons_append, List.mem_cons, not_or]
            constructor
            · rintro ⟨l', r', split, ⟨rfl, rfl⟩, rfl⟩
              obtain ⟨rfl, absent⟩ := ih.mp split
              exact ⟨⟨rfl, rfl⟩, Ne.symm other, absent⟩
            · rintro ⟨⟨rfl, rfl⟩, -, absent⟩
              exact ⟨l, r, ih.mpr ⟨rfl, absent⟩, ⟨rfl, rfl⟩, rfl⟩

/-- A character that is not found does not occur. -/
theorem splitAtChar_eq_none {c : UInt8} {s : Bytes} : splitAtChar c s = none ↔ c ∉ s := by
  induction s with
  | nil => simp [splitAtChar]
  | cons b s ih =>
      rw [splitAtChar]
      split
      next same => simp [same]
      next other => simp [ih, Ne.symm other]

/-- What is left after skipping blanks does not start with one. -/
theorem skipwhite_eq_cons {s rest : Bytes} {c : UInt8} (h : skipwhite s = c :: rest)
    : isWhite c = false := by
  rw [skipwhite] at h
  have first := List.head_dropWhile_not isWhite (l := s) (by simp only [h, ne_eq, reduceCtorEq,
    not_false_eq_true])
  simpa only [h, List.head_cons] using first

/-- Skipping blanks leaves a part of the text. -/
theorem skipwhite_subset (s : Bytes) : skipwhite s ⊆ s := (List.dropWhile_sublist _).subset

/-- Trimming leaves a part of the text. -/
theorem rtrimText_subset (s : Bytes) : rtrimText s ⊆ s := (List.rdropWhile_prefix ..).subset

/-- Cutting trailing blanks leaves a part of the text. -/
theorem trimBlank_subset (s : Bytes) : trimBlank s ⊆ s := (List.rdropWhile_prefix ..).subset

/-- Reading on within a line. -/
theorem linesFrom_line {line : Bytes} (oneLine : OneLine line) (read rest : Bytes)
    : linesFrom read (line ++ rest) = linesFrom (read ++ line) rest := by
  induction line generalizing read with
  | nil => simp
  | cons c line ih =>
      have inner : isEolChar c = false := oneLine c List.mem_cons_self
      rw [List.cons_append, linesFrom, if_neg (by simp [inner]),
        ih (fun d member => oneLine d (List.mem_cons_of_mem c member))]
      simp

/-- End-of-line characters in front of an image add no lines. -/
theorem imageLines_eols {eols : Bytes} (all : ∀ c ∈ eols, isEolChar c) (rest : Bytes)
    : imageLines (eols ++ rest) = imageLines rest := by
  induction eols with
  | nil => rfl
  | cons c eols ih =>
      have ends : isEolChar c = true := all c List.mem_cons_self
      rw [List.cons_append, imageLines, linesFrom, if_pos ends]
      exact ih fun d member => all d (List.mem_cons_of_mem c member)

/-- The last line of an image keeps its trailing blanks. -/
theorem imageLines_last {line : Bytes} (oneLine : OneLine line)
    : imageLines line = nonempty line := by
  simpa [imageLines, linesFrom] using linesFrom_line oneLine [] []

/-- A terminated line loses its trailing blanks, and vanishes when it is blank. -/
theorem imageLines_line {line : Bytes} (oneLine : OneLine line) {c : UInt8}
    (ends : isEolChar c) (rest : Bytes)
    : imageLines (line ++ c :: rest) = nonempty (trimBlank line) ++ imageLines rest := by
  rw [imageLines, linesFrom_line oneLine, List.nil_append, linesFrom, if_pos ends, imageLines]

/-- Every image is some ends of lines and then either a last line, which may be empty, or a
line with its end.
-/
theorem exists_line (image : Bytes)
    : ∃ eols line,
        (∀ c ∈ eols, isEolChar c)
        ∧ OneLine line
        ∧ (image = eols ++ line
          ∨ line ≠ [] ∧ ∃ c rest, isEolChar c ∧ image = eols ++ (line ++ c :: rest)) := by
  have parts := List.takeWhile_append_dropWhile (p := isEolChar) (l := image)
  have all : ∀ c ∈ image.takeWhile isEolChar, isEolChar c :=
    fun c member => List.mem_takeWhile_imp member
  have first := List.head_dropWhile_not isEolChar (l := image)
  generalize image.dropWhile isEolChar = text at *
  have parts' := List.takeWhile_append_dropWhile (p := fun c => !isEolChar c) (l := text)
  have oneLine : OneLine (text.takeWhile fun c => !isEolChar c) := by
    intro c member
    simpa using List.mem_takeWhile_imp member
  refine ⟨image.takeWhile isEolChar, text.takeWhile (fun c => !isEolChar c), all, oneLine, ?_⟩
  cases remaining : text.dropWhile (fun c => !isEolChar c) with
  | nil =>
      left
      rw [remaining, List.append_nil] at parts'
      rw [parts', parts]
  | cons c rest =>
      right
      have ends :=
        List.head_dropWhile_not (fun c => !isEolChar c) (l := text)
          (by simp only [remaining, ne_eq, reduceCtorEq, not_false_eq_true])
      simp only [remaining, List.head_cons, Bool.not_eq_false'] at ends
      refine ⟨?_, c, rest, ends, by rw [← remaining, parts', parts]⟩
      intro empty
      rw [empty, List.nil_append, remaining] at parts'
      subst parts'
      simp [ends] at first

/-- The four kinds of lines that stand for an entry. -/
inductive LineShape (line : Bytes) : Entry → Prop
  | header {rest name tail : Bytes} (starts : skipwhite line = ch '[' :: rest)
    (split : splitAtChar (ch ']') (skipwhite rest) = some (name, tail))
    (named : rtrimText name ≠ [])
    : LineShape line ⟨some (rtrimText name), none, none, commentOf (skipwhite tail)⟩
  | comment {rest : Bytes} (starts : skipwhite line = commentMagic01 :: rest)
    : LineShape line ⟨none, none, none, some rest⟩
  | continued
    (first : ∀ c, (skipwhite line).head? = some c → c ≠ ch '[' ∧ c ≠ commentMagic01)
    : LineShape line
        ⟨none, none, some (splitValue (skipwhite line)).1, (splitValue (skipwhite line)).2⟩
  | define {id rest : Bytes}
    (first : ∀ c, line.head? = some c → isWhite c = false ∧ c ≠ ch '[' ∧ c ≠ commentMagic01)
    (split : splitAtChar (ch '=') line = some (id, rest))
    : LineShape line
        ⟨none, some (rtrimText id), some (splitValue (skipwhite rest)).1,
          (splitValue (skipwhite rest)).2⟩

/-- A header entry comes from a closed, named header. -/
theorem parseHeader_eq_some {s : Bytes} {e : Entry} (parsed : parseHeader s = some e)
    : ∃ name tail,
        splitAtChar (ch ']') (skipwhite s) = some (name, tail)
        ∧ rtrimText name ≠ []
        ∧ e = ⟨some (rtrimText name), none, none, commentOf (skipwhite tail)⟩ := by
  simp only [parseHeader, Option.bind_eq_bind, Option.bind_eq_some_iff, Prod.exists] at parsed
  obtain ⟨name, tail, split, named⟩ := parsed
  by_cases empty : rtrimText name = []
  · simp [empty] at named
  · rw [if_neg empty, Option.some.injEq] at named
    exact ⟨name, tail, split, empty, named.symm⟩

/-- An entry with a key comes from a line with a `=`. -/
theorem parseDefine_eq_some {line : Bytes} {e : Entry} (parsed : parseDefine line = some e)
    : ∃ id rest,
        splitAtChar (ch '=') line = some (id, rest)
        ∧ e
          = ⟨none, some (rtrimText id), some (splitValue (skipwhite rest)).1,
              (splitValue (skipwhite rest)).2⟩ := by
  simp only [parseDefine, Option.bind_eq_bind, Option.bind_eq_some_iff, Prod.exists,
    Option.some.injEq] at parsed
  obtain ⟨id, rest, split, same⟩ := parsed
  exact ⟨id, rest, split, same.symm⟩

/-- Every parsed line has one of the four kinds. -/
theorem parseLine_shape {line : Bytes} {e : Entry} (parsed : parseLine line = some e)
    : LineShape line e := by
  rw [parseLine] at parsed
  cases text : skipwhite line with
  | nil =>
      rw [text, parseItem] at parsed
      split at parsed
      next =>
        rw [Option.some.injEq] at parsed
        subst parsed
        have shape : LineShape line _ := .continued (by simp [text])
        rwa [text] at shape
      next => contradiction
  | cons c rest =>
      rw [text, parseItem] at parsed
      by_cases header : c = ch '['
      · rw [if_pos header] at parsed
        obtain ⟨name, tail, split, named, rfl⟩ := parseHeader_eq_some parsed
        exact .header (header ▸ text) split named
      rw [if_neg header] at parsed
      by_cases comment : c = commentMagic01
      · rw [if_pos comment, Option.some.injEq] at parsed
        subst parsed
        exact .comment (comment ▸ text)
      rw [if_neg comment] at parsed
      split at parsed
      next =>
        rw [Option.some.injEq] at parsed
        subst parsed
        have shape : LineShape line _ := .continued (by simp [text, header, comment])
        rwa [text] at shape
      next visible =>
        obtain ⟨id, tail, split, rfl⟩ := parseDefine_eq_some parsed
        have whole : line = c :: rest := by
          cases line with
          | nil => simp [skipwhite] at text
          | cons d line =>
              have first : isWhite d = false := by simpa using visible
              simpa [skipwhite, first] using text
        subst whole
        refine .define ?_ split
        intro d first
        obtain rfl := Option.some.inj first
        exact ⟨skipwhite_eq_cons text, header, comment⟩

/-- A line with a key gives the key a value. -/
theorem parseLine_value {line : Bytes} {e : Entry} (parsed : parseLine line = some e)
    (key : e.id.isSome)
    : e.value.isSome := by
  cases parseLine_shape parsed with
  | header | comment => contradiction
  | continued | define => rfl

/-- A line that was read is one line when what was read of it before is part of one. -/
theorem oneLine_of_linesFrom {read image line : Bytes} (oneLine : OneLine read)
    (member : line ∈ linesFrom read image)
    : OneLine line := by
  have filled {read : Bytes} (member : line ∈ nonempty read) (oneLine : OneLine read)
      : OneLine line := by
    rw [nonempty] at member
    split at member
    next => contradiction
    next => exact List.mem_singleton.mp member ▸ oneLine
  induction image generalizing read with
  | nil => exact filled member oneLine
  | cons c rest ih =>
      rw [linesFrom] at member
      split at member
      next =>
        rcases List.mem_append.mp member with here | later
        · exact filled here fun d member => oneLine d (trimBlank_subset read member)
        · exact ih (by simp [OneLine]) later
      next inner =>
        refine ih ?_ member
        intro d member
        rcases List.mem_append.mp member with earlier | last
        · exact oneLine d earlier
        · rw [List.mem_singleton.mp last]
          simpa using inner

/-- Every line of an image is one line. -/
theorem oneLine_of_imageLines {image line : Bytes} (member : line ∈ imageLines image)
    : OneLine line := oneLine_of_linesFrom (by simp [OneLine]) member

end Cvos.CfgFile

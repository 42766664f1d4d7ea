import Cvos.CfgFile.CommentLines

/-! The last line of an image, which may have no end. Blanks at its end are kept then, and are part
of the value or the comment that the line ends with.
-/

namespace Cvos.CfgFile

open Cvos.Lib

/-- The text behind the last end of line. -/
def lastLine (image : Bytes) : Bytes := image.rtakeWhile fun c => !isEolChar c

/-- The text behind the leading blanks of a line ends in a value or a comment, or it would if blanks
were put behind it.
-/
def endsInText (isContinue : Bool) : Bytes → Bool
  | [] => isContinue
  | c :: rest =>
      if c = ch '[' then
        match splitAtChar (ch ']') (skipwhite rest) with
        | some (name, tail) => rtrimText name ≠ [] && (commentOf (skipwhite tail)).isSome
        | none => false
      else if c = commentMagic01 || isContinue then
        true
      else
        match splitAtChar (ch '=') (c :: rest) with
        | some (_, rest) => skipwhite rest ≠ []
        | none => false

/-- Blanks at the end of a line without an end are part of a value or a comment. -/
def keepsBlanks (line : Bytes) : Bool :=
  endsInText ((line.head?.map isWhite).getD false) (skipwhite line)

/-- The image has the entries that it has with an end of line behind it. -/
def SameEnded (image : Bytes) : Prop :=
  ∀ c c',
    Parsed image c → Parsed (image ++ [ch '\n']) c' → c'.pool.entries = c.pool.entries

-----------------------------------------------------------------------------------------
-- Blanks behind a text
-----------------------------------------------------------------------------------------

section Blanks

variable {blanks : Bytes} (blank : ∀ c ∈ blanks, isWhite c)

include blank

/-- No comment starts in blanks. -/
theorem cutValue_blanks (previous inString : UInt8)
    : cutValue previous inString blanks = (blanks, none) := by
  induction blanks generalizing previous inString with
  | nil => rfl
  | cons c blanks ih =>
      have noComment : isComment c = false := by
        cases comment : isComment c with
        | false => rfl
        | true =>
            have white := blank c List.mem_cons_self
            simp only [isComment, Bool.or_eq_true, beq_iff_eq] at comment
            rcases comment with rfl | rfl <;> cases white
      rw [cutValue_cons, if_neg (by simp [noComment]),
        ih fun d member => blank d (List.mem_cons_of_mem c member)]
      rfl

omit blank in
/-- What stands behind a comment is part of the comment. -/
theorem cutValue_append_some {previous inString : UInt8} {s value comment : Bytes}
    (cut : cutValue previous inString s = (value, some comment)) (t : Bytes)
    : cutValue previous inString (s ++ t) = (value, some (comment ++ t)) := by
  induction s generalizing previous inString value with
  | nil => simp [cutValue] at cut
  | cons c s ih =>
      rw [cutValue_cons] at cut
      rw [List.cons_append, cutValue_cons]
      split at cut
      next starts =>
        obtain ⟨rfl, same⟩ := Prod.mk.inj cut
        rw [if_pos starts, Option.some.inj same]
      next inner =>
        obtain ⟨rfl, some⟩ := Prod.mk.inj cut
        rw [if_neg inner, ih (Prod.ext rfl some)]
        rfl

/-- Blanks behind a value are part of its comment, or of the value if it has none. -/
theorem splitValue_append_ne (filled : blanks ≠ []) (s : Bytes)
    : splitValue (s ++ blanks) ≠ splitValue s := by
  intro same
  rw [splitValue, splitValue] at same
  cases cut : cutValue 0 0 s with
  | mk value comment =>
      cases comment with
      | some comment =>
          rw [cut, cutValue_append_some cut] at same
          have comments := Option.some.inj (Prod.mk.inj same).2
          exact filled (List.append_right_eq_self.mp comments)
      | none =>
          obtain rfl := eq_of_cutValue_none cut
          rw [cut, cutValue_append cut, cutValue_blanks blank] at same
          exact filled (List.append_right_eq_self.mp (Prod.mk.inj same).1)

/-- Blanks behind a text stay where blanks are skipped, if the text is not all blank. -/
theorem skipwhite_append (s : Bytes)
    : skipwhite (s ++ blanks) = if skipwhite s = [] then [] else skipwhite s ++ blanks := by
  rw [skipwhite, skipwhite, List.dropWhile_append]
  split
  next empty =>
    rw [if_pos (List.isEmpty_iff.mp empty)]
    exact List.dropWhile_eq_nil_iff.mpr blank
  next filled => rw [if_neg (by simpa using filled)]

/-- A character that is no blank is found in front of blanks, if at all. -/
theorem splitAtChar_append {c : UInt8} (visible : isWhite c = false) (s : Bytes)
    : splitAtChar c (s ++ blanks) = (splitAtChar c s).map (Prod.map id (· ++ blanks)) := by
  cases found : splitAtChar c s with
  | none =>
      refine splitAtChar_eq_none.mpr fun member => ?_
      rcases List.mem_append.mp member with here | behind
      · exact splitAtChar_eq_none.mp found here
      · rw [blank c behind] at visible
        cases visible
  | some parts =>
      obtain ⟨l, r⟩ := parts
      obtain ⟨rfl, absent⟩ := splitAtChar_eq_some.mp found
      exact splitAtChar_eq_some.mpr ⟨List.append_assoc .., absent⟩

/-- Blanks behind a text are part of the comment that it starts with behind its leading blanks. -/
theorem commentOf_append (s : Bytes)
    : commentOf (skipwhite (s ++ blanks)) = (commentOf (skipwhite s)).map (· ++ blanks) := by
  rw [skipwhite_append blank]
  cases skipwhite s with
  | nil => rfl
  | cons c rest =>
      rw [if_neg (List.cons_ne_nil c rest), List.cons_append, commentOf, commentOf]
      split <;> rfl

/-- Blanks behind a header change its entry exactly when it ends in a comment. -/
theorem parseHeader_append_iff (filled : blanks ≠ []) (isContinue : Bool) (s : Bytes)
    : parseHeader (s ++ blanks) = parseHeader s
      ↔ endsInText isContinue (ch '[' :: (s ++ blanks)) = false := by
  rw [parseHeader, parseHeader, endsInText, if_pos rfl, skipwhite_append blank]
  by_cases hidden : skipwhite s = []
  · simp [hidden, splitAtChar]
  rw [if_neg hidden, splitAtChar_append blank rfl]
  cases splitAtChar (ch ']') (skipwhite s) with
  | none => simp
  | some parts =>
      obtain ⟨name, tail⟩ := parts
      by_cases unnamed : rtrimText name = []
      · simp [unnamed]
      · cases commented : commentOf (skipwhite tail) with
        | none => simp [unnamed, commentOf_append blank, commented]
        | some comment => simp [unnamed, commentOf_append blank, commented, filled]

/-- Blanks behind a line change the value or the comment of its key exactly when there is anything
behind the equals sign.
-/
theorem parseDefine_append_iff (filled : blanks ≠ []) {c : UInt8} {rest : Bytes}
    (noHeader : c ≠ ch '[') (noComment : c ≠ commentMagic01)
    : parseDefine (c :: (rest ++ blanks)) = parseDefine (c :: rest)
      ↔ endsInText false (c :: (rest ++ blanks)) = false := by
  rw [parseDefine, parseDefine, endsInText, if_neg noHeader, if_neg (by simpa using noComment),
    ← List.cons_append, splitAtChar_append blank rfl]
  cases splitAtChar (ch '=') (c :: rest) with
  | none => simp
  | some parts =>
      obtain ⟨id, value⟩ := parts
      by_cases hidden : skipwhite value = []
      · simp [skipwhite_append blank, hidden]
      · have changed := splitValue_append_ne blank filled (skipwhite value)
        simpa [skipwhite_append blank, hidden, Prod.ext_iff] using changed

/-- Blanks behind the text of a line change its entry exactly when the text ends in a value or a
comment.
-/
theorem parseItem_append_iff (filled : blanks ≠ []) (isContinue : Bool) (c : UInt8) (rest : Bytes)
    : parseItem isContinue (c :: (rest ++ blanks)) = parseItem isContinue (c :: rest)
      ↔ endsInText isContinue (c :: (rest ++ blanks)) = false := by
  rw [parseItem, parseItem]
  by_cases header : c = ch '['
  · subst header
    exact parseHeader_append_iff blank filled isContinue rest
  rw [if_neg header, if_neg header]
  by_cases comment : c = commentMagic01
  · subst comment
    simp [endsInText, header, filled]
  rw [if_neg comment, if_neg comment]
  cases isContinue with
  | false => exact parseDefine_append_iff blank filled header comment
  | true =>
      have changed := splitValue_append_ne blank filled (c :: rest)
      simpa [endsInText, header, parseContinue, Prod.ext_iff] using changed

/-- Blanks behind a line that is not all blank change its entry exactly when they belong to a value
or a comment.
-/
theorem parseLine_append_iff (filled : blanks ≠ []) {line : Bytes} (visible : skipwhite line ≠ [])
    : parseLine (line ++ blanks) = parseLine line ↔ keepsBlanks (line ++ blanks) = false := by
  have behind := skipwhite_append blank line
  rw [if_neg visible] at behind
  have first : (line ++ blanks).head? = line.head? := by
    cases line with
    | nil => exact absurd rfl visible
    | cons => rfl
  rw [parseLine, parseLine, keepsBlanks, behind, first]
  cases starts : skipwhite line with
  | nil => exact absurd starts visible
  | cons c rest => exact parseItem_append_iff blank filled _ c rest

end Blanks

-----------------------------------------------------------------------------------------
-- A line with and without its end
-----------------------------------------------------------------------------------------

/-- A line that is read without the blanks at its end is not all blank, unless nothing is read. -/
theorem skipwhite_trimBlank {line : Bytes} (filled : trimBlank line ≠ [])
    : skipwhite (trimBlank line) ≠ [] := by
  intro hidden
  have none : trimBlank (trimBlank line) = [] :=
    List.rdropWhile_eq_nil_iff.mpr (List.dropWhile_eq_nil_iff.mp hidden)
  rw [trimBlank, trimBlank, List.rdropWhile_idempotent] at none
  exact filled none

/-- A line of blanks without an end has an entry. -/
theorem parseLine_blanks {line : Bytes} (blank : ∀ c ∈ line, isWhite c) (filled : line ≠ [])
    : parseLine line = some (parseContinue []) ∧ keepsBlanks line = true := by
  have hidden : skipwhite line = [] := List.dropWhile_eq_nil_iff.mpr blank
  have continues : (line.head?.map isWhite).getD false = true := by
    cases line with
    | nil => exact absurd rfl filled
    | cons c line => exact blank c List.mem_cons_self
  rw [parseLine, keepsBlanks, hidden, continues]
  exact ⟨rfl, rfl⟩

/-- A line has the same entry with an end and without exactly when it does not end in blanks, or
they belong to neither a value nor a comment.
-/
theorem parseLine_trimBlank_iff (line : Bytes)
    : (nonempty (trimBlank line)).filterMap parseLine = (nonempty line).filterMap parseLine
      ↔ trimBlank line = line ∨ keepsBlanks line = false := by
  by_cases same : trimBlank line = line
  · simp [same]
  rw [or_iff_right same]
  obtain ⟨blanks, parts, blank⟩
      : ∃ blanks, line = trimBlank line ++ blanks ∧ ∀ c ∈ blanks, isWhite c :=
    ⟨line.rtakeWhile isWhite, List.rdropWhile_append_rtakeWhile.symm,
      fun c member => List.mem_rtakeWhile_imp member⟩
  have filled : blanks ≠ [] := by
    rintro rfl
    rw [List.append_nil] at parts
    exact same parts.symm
  have filled' : line ≠ [] := by
    rw [parts]
    exact List.append_ne_nil_of_right_ne_nil _ filled
  by_cases none : trimBlank line = []
  · rw [none, List.nil_append] at parts
    subst parts
    obtain ⟨entry, keeps⟩ := parseLine_blanks blank filled
    simp [nonempty, none, filled, entry, keeps]
  · have changed := parseLine_append_iff blank filled (skipwhite_trimBlank none)
    rw [← parts] at changed
    rw [← changed, nonempty, nonempty, if_neg none, if_neg filled']
    cases whole : parseLine line <;> cases cut : parseLine (trimBlank line)
      <;> simp [whole, cut, eq_comm]

/-- The text in front of the last line ends in an end of line. -/
theorem ended_front (image : Bytes) : Ended (image.rdropWhile fun c => !isEolChar c) := by
  intro c last
  have filled : image.rdropWhile (fun c => !isEolChar c) ≠ [] := by
    rintro empty
    rw [empty] at last
    cases last
  have ends := List.rdropWhile_last_not _ image filled
  rw [List.getLast?_eq_some_getLast filled] at last
  rw [Option.some.inj last] at ends
  simpa using ends

/-- An end of line behind an image changes nothing exactly when the last line does not end in
blanks, or they belong to neither a value nor a comment.
-/
theorem sameEnded_iff {image : Bytes} (nulFree : NulFree image)
    : SameEnded image
      ↔ trimBlank (lastLine image) = lastLine image ∨ keepsBlanks (lastLine image) = false := by
  have nulFree' : NulFree (image ++ [ch '\n']) := nulFree_append.mpr ⟨nulFree, by decide⟩
  have parts : image = (image.rdropWhile fun c => !isEolChar c) ++ lastLine image :=
    List.rdropWhile_append_rtakeWhile.symm
  have oneLine : OneLine (lastLine image) := by
    intro c member
    simpa using List.mem_rtakeWhile_imp member
  have open' := @parseImage_around _ _ [] (ended_front image) oneLine (by simp [AtLineEnd])
  have ended := @parseImage_around _ _ [ch '\n'] (ended_front image) oneLine (by rintro c ⟨⟩; rfl)
  rw [List.append_nil, ← parts] at open'
  rw [← List.append_assoc, ← parts] at ended
  rw [← parseLine_trimBlank_iff]
  have none : parseImage [ch '\n'] = [] := rfl
  have nothing : parseImage [] = [] := rfl
  rw [readOf, if_pos rfl, nothing, List.append_nil] at open'
  rw [readOf, if_neg (by simp), none, List.append_nil] at ended
  constructor
  · intro same
    have entries := same _ _ (parsed_parseOf nulFree) (parsed_parseOf nulFree')
    rw [((parsed_parseOf nulFree).entries nulFree).2.2,
      ((parsed_parseOf nulFree').entries nulFree').2.2, open', ended] at entries
    exact List.append_cancel_left entries
  · intro same c c' parsed parsed'
    rw [(parsed.entries nulFree).2.2, (parsed'.entries nulFree').2.2, open', ended, same]

/-- Witness: an image without blanks at its end. -/
theorem sameEnded_iff_define : SameEnded (text "k=v") :=
  (sameEnded_iff (by decide)).mpr (.inl (by decide))

/-- Behind the last end of line, the blank behind a value is part of the value. -/
theorem not_sameEnded_blank : ¬ ∀ image : Bytes, NulFree image → SameEnded image := by
  intro always
  have nulFree : NulFree (text "k=v ") := by decide
  have entries := always _ nulFree _ _ (parsed_parseOf nulFree)
    (parsed_parseOf (nulFree_append.mpr ⟨nulFree, by decide⟩))
  cases entries

end Cvos.CfgFile

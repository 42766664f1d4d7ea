import Cvos.CfgFile.CopyMeaning

/-! Lines in the middle of an image, and what becomes of those that start with one of the two
comment characters: the parser only takes one of them for a comment.
-/

namespace Cvos.CfgFile

open Cvos.Lib

-----------------------------------------------------------------------------------------
-- A line and what stands around it
-----------------------------------------------------------------------------------------

/-- The text starts with an end of line, if it is not empty. -/
def AtLineEnd (back : Bytes) : Prop := ∀ c, back.head? = some c → isEolChar c

/-- What is read of a line: it keeps its trailing blanks when nothing stands behind it. -/
def readOf (line back : Bytes) : Bytes := if back = [] then line else trimBlank line

/-- Behind an end of line, lines are read as from the start. -/
theorem linesFrom_append {read front : Bytes} (ended : Ended front)
    (filled : front = [] → read = []) (rest : Bytes)
    : linesFrom read (front ++ rest) = linesFrom read front ++ linesFrom [] rest := by
  induction front generalizing read with
  | nil =>
      rw [filled rfl]
      rfl
  | cons c front ih =>
      have ended' : Ended front := by
        intro d last
        exact ended d (by rw [List.getLast?_cons, last]; rfl)
      rw [List.cons_append, linesFrom, linesFrom]
      by_cases ends : isEolChar c
      · rw [if_pos ends, if_pos ends, List.append_assoc]
        exact congrArg _ (ih ended' fun _ => rfl)
      · rw [if_neg ends, if_neg ends]
        refine ih ended' ?_
        rintro rfl
        exact absurd (ended c rfl) ends

/-- The lines of an image are those up to an end of line and those behind it. -/
theorem imageLines_append {front : Bytes} (ended : Ended front) (rest : Bytes)
    : imageLines (front ++ rest) = imageLines front ++ imageLines rest :=
  linesFrom_append ended (fun _ => rfl) rest

/-- The entries of an image are those up to an end of line and those behind it. -/
theorem parseImage_append {front : Bytes} (ended : Ended front) (rest : Bytes)
    : parseImage (front ++ rest) = parseImage front ++ parseImage rest := by
  rw [parseImage, imageLines_append ended, List.filterMap_append]
  rfl

/-- A line that ends is one behind which there is an end of line. -/
theorem ended_line (line : Bytes) : Ended (line ++ [ch '\n']) := by
  intro c last
  rw [List.getLast?_concat] at last
  obtain rfl := Option.some.inj last
  rfl

/-- Parsing in place treats lines independently: a text and, behind an end of line, another one are
parsed with every access inside the image and the NUL behind it, and the entries that are found in
the image at the end are those of the first text and those of the second one.
-/
theorem cfgParse_lines {front back : Bytes} (nulFree : NulFree front) (nulFree' : NulFree back)
    (mtime : Nat)
    : ∃ c above below,
        cfgParse (readIn (front ++ [ch '\n'] ++ back) mtime) = .ok (0, c)
        ∧ cfgParse (readIn (front ++ [ch '\n']) mtime) = .ok (0, above)
        ∧ cfgParse (readIn back mtime) = .ok (0, below)
        ∧ c.pool.entries = above.pool.entries ++ below.pool.entries := by
  have nulFreeFront : NulFree (front ++ [ch '\n']) := nulFree_append.mpr ⟨nulFree, by decide⟩
  have nulFreeBoth : NulFree (front ++ [ch '\n'] ++ back) :=
    nulFree_append.mpr ⟨nulFreeFront, nulFree'⟩
  obtain ⟨_, -, both⟩ :=
    cfgParse_eq (c := readIn (front ++ [ch '\n'] ++ back) mtime) rfl rfl rfl nulFreeBoth
  obtain ⟨_, -, above⟩ :=
    cfgParse_eq (c := readIn (front ++ [ch '\n']) mtime) rfl rfl rfl nulFreeFront
  obtain ⟨_, -, below⟩ := cfgParse_eq (c := readIn back mtime) rfl rfl rfl nulFree'
  refine ⟨_, _, _, both, above, below, ?_⟩
  simp only [Pool.storeAll_entries, parseImage_append (ended_line front) back]
  rfl

/-- Witness: a header with a key, and a line with a comment. -/
theorem cfgParse_lines_comment
    : ∃ c above below,
        cfgParse (readIn (text "[s]\nk = v" ++ [ch '\n'] ++ text " w ; n") 0) = .ok (0, c)
        ∧ cfgParse (readIn (text "[s]\nk = v" ++ [ch '\n']) 0) = .ok (0, above)
        ∧ cfgParse (readIn (text " w ; n") 0) = .ok (0, below)
        ∧ c.pool.entries = above.pool.entries ++ below.pool.entries :=
  cfgParse_lines (by decide) (by decide) 0

/-- A line at the start of an image is read in front of what stands behind it. -/
theorem imageLines_readOf {line back : Bytes} (oneLine : OneLine line) (behind : AtLineEnd back)
    : imageLines (line ++ back) = nonempty (readOf line back) ++ imageLines back := by
  cases back with
  | nil =>
      rw [List.append_nil, imageLines_last oneLine, readOf, if_pos rfl]
      exact (List.append_nil _).symm
  | cons c back =>
      have ends : isEolChar c := behind c rfl
      rw [imageLines_line oneLine ends, readOf, if_neg (List.cons_ne_nil c back),
        ← @imageLines_eols [c] (by simpa using ends) back]
      rfl

/-- The entries of an image are those in front of a line, that of the line, and those behind it. -/
theorem parseImage_around {front line back : Bytes} (ended : Ended front) (oneLine : OneLine line)
    (behind : AtLineEnd back)
    : parseImage (front ++ (line ++ back))
      = parseImage front
        ++ ((nonempty (readOf line back)).filterMap parseLine ++ parseImage back) := by
  rw [parseImage_append ended]
  refine congrArg _ ?_
  rw [parseImage, imageLines_readOf oneLine behind, List.filterMap_append]
  rfl

-----------------------------------------------------------------------------------------
-- Printing an entry
-----------------------------------------------------------------------------------------

/-- The output has the line, with its end, at the start of a line. -/
def Prints (output line : Bytes) : Prop :=
  ∃ above below, output = above ++ (line ++ ch '\n' :: below) ∧ Ended above

/-- What is printed behind a line is printed. -/
theorem Prints.behind {output line : Bytes} (prints : Prints output line) {above : Bytes}
    (ended : Ended above)
    : Prints (above ++ output) line := by
  obtain ⟨front, below, rfl, ended'⟩ := prints
  refine ⟨above ++ front, below, (List.append_assoc ..).symm, ?_⟩
  intro c last
  rw [List.getLast?_append] at last
  cases lastOf : front.getLast? with
  | none => exact ended c (by simpa [lastOf] using last)
  | some d =>
      rw [lastOf] at last
      exact ended' c (lastOf.trans last)

/-- Every entry is printed on a line of its own. -/
theorem prints_outputFrom (skip : Bool) {es : List Entry} {e : Entry} (member : e ∈ es)
    : Prints (outputFrom skip es) (printEntry e) := by
  have alone (line : Bytes) (rest : Bytes) : Prints (line ++ ch '\n' :: rest) line :=
    ⟨[], rest, rfl, by simp [Ended]⟩
  have blank : Ended [ch '\n'] := ended_line []
  induction es generalizing skip with
  | nil => cases member
  | cons entry es ih =>
      have here (skip : Bool)
          : Prints (printEntry entry ++ ch '\n' :: outputFrom skip es) (printEntry e) := by
        rcases List.mem_cons.mp member with rfl | later
        · exact alone _ _
        · have further := (ih skip later).behind (ended_line (printEntry entry))
          simpa using further
      rw [outputFrom]
      split
      next =>
        rw [List.append_assoc]
        split
        next => exact (here true).behind blank
        next => exact here true
      next =>
        split
        next => exact (here false).behind blank
        next => exact here skip

-----------------------------------------------------------------------------------------
-- Lines that start with a comment character
-----------------------------------------------------------------------------------------

/-- The line is stored as one entry with nothing but its text behind the first character, without
blanks at its end, and that entry is printed as a line.
-/
def StoredAsComment (front line back : Bytes) : Prop :=
  ∃ comment,
    (∃ c blanks,
      skipwhite line = c :: (comment ++ blanks) ∧ ∀ b ∈ blanks, isWhite b)
    ∧ ∀ c above below,
        Parsed (front ++ (line ++ back)) c
        → Parsed front above
        → Parsed back below
        → c.pool.entries
            = above.pool.entries ++ (⟨none, none, none, some comment⟩ :: below.pool.entries)
          ∧ Prints (cfgOutput c) (commentMagic01 :: comment)

/-- A line that does not start with the first comment character is no comment. -/
theorem not_comment_of_parseLine {line rest comment : Bytes} {c : UInt8}
    (starts : skipwhite line = c :: rest) (other : c ≠ commentMagic01)
    : parseLine line ≠ some ⟨none, none, none, some comment⟩ := by
  intro parsed
  generalize entry : (⟨none, none, none, some comment⟩ : Entry) = e at parsed
  cases parseLine_shape parsed with
  | header => simp at entry
  | comment starts' => exact other (List.cons.inj (starts.symm.trans starts')).1
  | continued => simp at entry
  | define => simp at entry

/-- What is read of a line starts with the same character behind its leading blanks. -/
theorem skipwhite_readOf {line rest : Bytes} {c : UInt8} (starts : skipwhite line = c :: rest)
    (back : Bytes)
    : ∃ comment blanks,
        skipwhite (readOf line back) = c :: comment
        ∧ rest = comment ++ blanks
        ∧ ∀ b ∈ blanks, isWhite b := by
  have filled : isWhite c = false := skipwhite_eq_cons starts
  have parts : line = line.takeWhile isWhite ++ c :: rest := by
    rw [← starts]
    exact List.takeWhile_append_dropWhile.symm
  rw [readOf]
  split
  next => exact ⟨rest, [], starts, (List.append_nil rest).symm, by simp⟩
  next =>
    refine ⟨trimBlank rest, rest.rtakeWhile isWhite, ?_, List.rdropWhile_append_rtakeWhile.symm,
      fun b member => List.mem_rtakeWhile_imp member⟩
    rw [parts, trimBlank_append_cons filled, skipwhite,
      List.dropWhile_append_of_pos fun b member => List.mem_takeWhile_imp member]
    simp [filled]

/-- The entries of a configuration are those of the text in front of a line that is read, that
of the line, and those of the text behind it.
-/
theorem entries_around {front line back : Bytes} (nulFree : NulFree (front ++ (line ++ back)))
    (ended : Ended front) (oneLine : OneLine line) (behind : AtLineEnd back)
    (filled : readOf line back ≠ []) {c above below : Config}
    (parsed : Parsed (front ++ (line ++ back)) c) (parsedAbove : Parsed front above)
    (parsedBelow : Parsed back below)
    : c.pool.entries
      = above.pool.entries ++ ((parseLine (readOf line back)).toList ++ below.pool.entries) := by
  obtain ⟨nulFront, nulRest⟩ := nulFree_append.mp nulFree
  have nulBack := (nulFree_append.mp nulRest).2
  rw [(parsed.entries nulFree).2.2, (parsedAbove.entries nulFront).2.2,
    (parsedBelow.entries nulBack).2.2, parseImage_append ended]
  refine congrArg _ ?_
  rw [parseImage, imageLines_readOf oneLine behind, filterMap_nonempty filled]
  rfl

/-- A line is stored as a comment, and printed again, exactly when the first character behind its
leading blanks is the first one of the two comment characters.
-/
theorem storedAsComment_iff {front line back rest : Bytes} {c : UInt8}
    (nulFree : NulFree (front ++ (line ++ back))) (ended : Ended front) (oneLine : OneLine line)
    (behind : AtLineEnd back) (starts : skipwhite line = c :: rest)
    : StoredAsComment front line back ↔ c = commentMagic01 := by
  obtain ⟨comment, blanks, read, parts, blank⟩ := skipwhite_readOf starts back
  have filled : readOf line back ≠ [] := by
    intro empty
    rw [empty] at read
    cases read
  constructor
  · rintro ⟨comment, -, stored⟩
    by_contra other
    obtain ⟨nulFront, nulRest⟩ := nulFree_append.mp nulFree
    have parsed := parsed_parseOf nulFree
    have above := parsed_parseOf nulFront
    have below := parsed_parseOf (nulFree_append.mp nulRest).2
    obtain ⟨entries, -⟩ := stored _ _ _ parsed above below
    rw [entries_around nulFree ended oneLine behind filled parsed above below] at entries
    have only : (parseLine (readOf line back)).toList = [⟨none, none, none, some comment⟩] :=
      List.append_cancel_right (List.append_cancel_left entries)
    exact not_comment_of_parseLine read other (Option.toList_eq_singleton_iff.mp only)
  · rintro rfl
    refine ⟨comment, ⟨commentMagic01, blanks, parts ▸ starts, blank⟩, ?_⟩
    intro c above below parsed parsedAbove parsedBelow
    have own : parseLine (readOf line back) = some ⟨none, none, none, some comment⟩ := by
      rw [parseLine, read]
      rfl
    have entries :=
      entries_around nulFree ended oneLine behind filled parsed parsedAbove parsedBelow
    rw [own] at entries
    refine ⟨entries, ?_⟩
    rw [cfgOutput, entries]
    exact prints_outputFrom false (e := ⟨none, none, none, some comment⟩) (by simp)

/-- Witness: an indented comment between two keys. -/
theorem storedAsComment_iff_indented
    : StoredAsComment (text "a=1\n") (text "  ; n ") (text "\nb=2") :=
  (storedAsComment_iff (by decide) (ended_line (text "a=1")) (by decide) (by rintro c ⟨⟩; rfl)
    (show skipwhite (text "  ; n ") = commentMagic01 :: text " n " from rfl)).mpr rfl

/-- A line that starts with a number sign is stored as a key, if it has an equals sign. -/
theorem not_storedAsComment_number
    : ¬ ∀ (front line back rest : Bytes) (c : UInt8),
        NulFree (front ++ (line ++ back))
        → Ended front
        → OneLine line
        → AtLineEnd back
        → skipwhite line = c :: rest
        → isComment c
        → StoredAsComment front line back := by
  intro always
  obtain ⟨comment, -, stored⟩ := always [] (text "#k=v") [] (text "k=v") commentMagic02 (by decide)
    (by simp [Ended]) (by decide) (by simp [AtLineEnd]) rfl rfl
  have nulFree : NulFree (text "#k=v") := by decide
  obtain ⟨entries, -⟩ := stored _ _ _ (parsed_parseOf nulFree) (parsed_parseOf (by decide))
    (parsed_parseOf (by decide))
  cases entries

end Cvos.CfgFile

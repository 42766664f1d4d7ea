import Cvos.CfgFile.LineGrammar
import Cvos.CfgFile.Parse

/-! The in-place parser computes the line grammar: on an image without NUL bytes every access
is in bounds, and the strings it leaves in the image are those of the lines, one by one.
-/

namespace Cvos.CfgFile

open Cvos.Lib

/-- The string at the address `p` of the block is `s`, with its terminator in the block. -/
def StringAt (block : Bytes) (p : Nat) (s : Bytes) : Prop :=
  NulFree s ∧ ∃ before after, block = before ++ (s ++ 0 :: after) ∧ before.length = p

/-- The fields of the entry are the addresses of the given texts in the block. -/
structure EntryAt (block : Bytes) (e : CfgEntry Nat) (entry : Entry) : Prop where
  sectionName : Option.Rel (StringAt block) e.sectionName entry.sectionName
  id : Option.Rel (StringAt block) e.id entry.id
  value : Option.Rel (StringAt block) e.value entry.value
  comment : Option.Rel (StringAt block) e.comment entry.comment

/-- A string of a block is read from the memory that starts with the block. -/
theorem StringAt.cstring_eq {block : Bytes} {p : Nat} {s : Bytes} (h : StringAt block p s)
    (tail : Bytes)
    : cstring (block ++ tail) p = s := by
  obtain ⟨nulFree, before, after, rfl, rfl⟩ := h
  simpa using cstring_append before (after ++ tail) nulFree

/-- A string of a block is a string of every longer one. -/
theorem StringAt.append {block : Bytes} {p : Nat} {s : Bytes} (h : StringAt block p s)
    (tail : Bytes)
    : StringAt (block ++ tail) p s := by
  obtain ⟨nulFree, before, after, rfl, length⟩ := h
  exact ⟨nulFree, before, after ++ tail, by simp, length⟩

/-- An optional string of a block is one of every longer block. -/
theorem rel_stringAt_append {block : Bytes} {p : Option Nat} {s : Option Bytes}
    (h : Option.Rel (StringAt block) p s) (tail : Bytes)
    : Option.Rel (StringAt (block ++ tail)) p s := by
  cases h with
  | none => exact .none
  | some found => exact .some (found.append tail)

/-- An entry of a block is an entry of every longer one. -/
theorem EntryAt.append {block : Bytes} {e : CfgEntry Nat} {entry : Entry}
    (h : EntryAt block e entry) (tail : Bytes)
    : EntryAt (block ++ tail) e entry where
  sectionName := rel_stringAt_append h.sectionName tail
  id := rel_stringAt_append h.id tail
  value := rel_stringAt_append h.value tail
  comment := rel_stringAt_append h.comment tail

/-- An optional entry of a block is one of every longer block. -/
theorem rel_entryAt_append {block : Bytes} {e : Option (CfgEntry Nat)} {entry : Option Entry}
    (h : Option.Rel (EntryAt block) e entry) (tail : Bytes)
    : Option.Rel (EntryAt (block ++ tail)) e entry := by
  cases h with
  | none => exact .none
  | some found => exact .some (found.append tail)

/-- An optional string of a block is read from the memory that starts with the block. -/
theorem map_cstring_eq {block : Bytes} {p : Option Nat} {s : Option Bytes}
    (h : Option.Rel (StringAt block) p s) (tail : Bytes)
    : p.map (cstring (block ++ tail)) = s := by
  cases h with
  | none => rfl
  | some found => exact congrArg some (found.cstring_eq tail)

/-- An entry's texts are read from the memory that starts with the block. -/
theorem EntryAt.map_eq {block : Bytes} {e : CfgEntry Nat} {entry : Entry}
    (h : EntryAt block e entry) (tail : Bytes)
    : e.map (cstring (block ++ tail)) = entry := by
  rw [CfgEntry.map, map_cstring_eq h.sectionName, map_cstring_eq h.id, map_cstring_eq h.value,
    map_cstring_eq h.comment]

/-- A part cut off by a NUL starts with that NUL. -/
theorem cut_append {cut tail : Bytes} (starts : cut ++ [0] = 0 :: tail) (after : Bytes)
    : cut ++ 0 :: after = 0 :: (tail ++ after) := by
  rw [← List.singleton_append, ← List.append_assoc, starts, List.cons_append]

section Strings

variable (before : Bytes) (after : Bytes)

/-- Trimming a string in place terminates its trimmed text, and keeps its old terminator. -/
theorem rtrim_append {s : Bytes} (nulFree : NulFree s)
    : ∃ cut tail,
        (rtrimText s).length + cut.length = s.length
        ∧ cut ++ [0] = 0 :: tail
        ∧ rtrim (before ++ (s ++ 0 :: after)) before.length
          = .ok (rtrimText s ≠ [], before ++ (rtrimText s ++ (cut ++ 0 :: after))) := by
  cases s with
  | nil => exact ⟨[], [], by simp [rtrimText], by simp, by simp [rtrim, rtrimText]⟩
  | cons c s =>
      have first : c ≠ 0 := nulFree c List.mem_cons_self
      have stop := scanWhile_append before after nulFree.bne (c := 0) (by simp)
      have trimmed := trimBack_append before (0 :: after) isSpace (c :: s)
      obtain ⟨cut, parts⟩ : ∃ cut, c :: s = rtrimText (c :: s) ++ cut :=
        ⟨_, (List.rdropWhile_append_rtakeWhile ..).symm⟩
      obtain ⟨cut', tail, length, starts, stored⟩ :=
        store_terminator before after (rtrimText (c :: s)) cut
      rw [← List.append_assoc (rtrimText _), ← parts] at stored
      have remains
          : decide (before.length + (rtrimText (c :: s)).length > before.length)
            = decide (rtrimText (c :: s) ≠ []) := by
        simp [List.length_pos_iff]
      refine ⟨cut', tail, by rw [length, ← List.length_append, ← parts], starts, ?_⟩
      rw [rtrim]
      simp only [List.cons_append, load_append_cons, Checked.ok_bind, if_neg first]
      rw [← List.cons_append, stop]
      simp only [Checked.ok_bind, Nat.add_sub_cancel_left, trimmed]
      rw [← rtrimText, stored, Checked.ok_bind, remains]

/-- The loop over a value stops where the grammar cuts it. -/
theorem scanValue_append {s : Bytes} (nulFree : NulFree s) (previous inString : UInt8)
    : scanValue (before ++ previous :: (s ++ 0 :: after)) (s ++ 0 :: after) (before.length + 1)
        inString
      = .ok (before.length + 1 + (cutValue previous inString s).1.length,
          (cutValue previous inString s).2.isSome) := by
  induction s generalizing before previous inString with
  | nil => simp [scanValue, cutValue]
  | cons c s ih =>
      have first : c ≠ 0 := nulFree c List.mem_cons_self
      have further := ih (before ++ [previous]) (fun d member => nulFree d (by simp [member])) c
      simp only [List.append_assoc, List.cons_append, List.nil_append, List.length_append,
        List.length_singleton] at further
      have shift (n : Nat) : before.length + 1 + 1 + n = before.length + 1 + (n + 1) := by omega
      simp only [List.cons_append, scanValue, if_neg first, cutValue]
      split
      next => simp [further, shift]
      next =>
        split
        next => simp [further, shift]
        next =>
          have read
              : loadBefore (before ++ previous :: c :: (s ++ 0 :: after)) (before.length + 1)
                = .ok previous := by
            simp [loadBefore]
          by_cases starts : isComment c <;> by_cases blank : isWhite previous <;>
            simp [further, shift, read, starts, blank]

end Strings

/-- Whatever blank stands before a value, the grammar cuts it alike. -/
theorem cutValue_blank {previous : UInt8} (blank : isWhite previous) (inString : UInt8)
    (s : Bytes)
    : cutValue previous inString s = cutValue 0 inString s := by
  cases s with
  | nil => rfl
  | cons c s => simp [cutValue, blank, show isWhite 0 from rfl]

section Scans

variable (before : Bytes) (after : Bytes)

/-- Skipping blanks leads to the text without its leading blanks. -/
theorem cfgSkipwhite_append {s : Bytes} (nulFree : NulFree s)
    : cfgSkipwhite (before ++ (s ++ 0 :: after)) before.length
      = .ok (before.length + (s.takeWhile isWhite).length) := by
  have parts : s.takeWhile isWhite ++ skipwhite s = s := List.takeWhile_append_dropWhile
  have blanks : ∀ c ∈ s.takeWhile isWhite, (c != 0 && isWhite c) = true := by
    intro c member
    have white : isWhite c = true := List.mem_takeWhile_imp member
    simpa [white] using nulFree c ((List.takeWhile_sublist _).subset member)
  rw [cfgSkipwhite]
  cases remaining : skipwhite s with
  | nil =>
      rw [remaining, List.append_nil] at parts
      rw [parts] at blanks ⊢
      exact scanWhile_append before after blanks (by simp)
  | cons c rest =>
      have stops := skipwhite_eq_cons remaining
      have scanned :=
        scanWhile_append before (rest ++ 0 :: after) blanks (c := c) (by simp [stops])
      rw [remaining] at parts
      conv => lhs; rw [← parts]
      simpa using scanned

/-- A search finds the character at which the grammar splits the text. -/
theorem strchr_append {s : Bytes} (nulFree : NulFree s) {c : UInt8} (nonzero : c ≠ 0)
    : strchr (before ++ (s ++ 0 :: after)) before.length c
      = .ok ((splitAtChar c s).map (fun parts => before.length + parts.1.length)) := by
  cases found : splitAtChar c s with
  | none =>
      have absent := splitAtChar_eq_none.mp found
      have passes : ∀ b ∈ s, (b != 0 && b != c) = true := by
        intro b member
        have other : b ≠ c := fun same => absent (same ▸ member)
        simpa [other] using nulFree b member
      rw [strchr, scanWhile_append before after passes (by simp), Checked.ok_bind, load_behind]
      simp [Ne.symm nonzero]
  | some parts =>
      obtain ⟨l, r⟩ := parts
      obtain ⟨rfl, absent⟩ := splitAtChar_eq_some.mp found
      have passes : ∀ b ∈ l, (b != 0 && b != c) = true := by
        intro b member
        have other : b ≠ c := fun same => absent (same ▸ member)
        simpa [other] using nulFree b (by simp [member])
      have stop := scanWhile_append before (r ++ 0 :: after) passes (c := c) (by simp)
      simp only [List.append_assoc, List.cons_append]
      rw [strchr, stop, Checked.ok_bind, load_behind]
      simp

/-- Parsing a value in place leaves the value and the comment of the grammar, and stops at a
NUL.
-/
theorem parseValue_append {s : Bytes} (nulFree : NulFree s) {previous : UInt8}
    (blank : isWhite previous)
    : ∃ s' lp comment,
        s'.length = s.length
        ∧ parseValue (before ++ previous :: (s ++ 0 :: after)) (before.length + 1)
          = .ok ((lp, comment), before ++ previous :: (s' ++ 0 :: after))
        ∧ load (before ++ previous :: (s' ++ 0 :: after)) lp = .ok 0
        ∧ StringAt (before ++ previous :: (s' ++ [0])) (before.length + 1) (splitValue s).1
        ∧ Option.Rel (StringAt (before ++ previous :: (s' ++ [0]))) comment (splitValue s).2 := by
  have scanned := scanValue_append before after nulFree previous 0
  rw [cutValue_blank blank] at scanned
  have dropped
      : (before ++ previous :: (s ++ 0 :: after)).drop (before.length + 1) = s ++ 0 :: after := by
    simp [List.drop_append]
  have shape (t : Bytes) : before ++ previous :: t = (before ++ [previous]) ++ t := by simp
  have length : before.length + 1 = (before ++ [previous]).length := by simp
  rw [parseValue, dropped, scanned, splitValue]
  match cut : cutValue 0 0 s with
  | (value, none) =>
      obtain rfl := eq_of_cutValue_none cut
      refine ⟨s, before.length + 1 + s.length, none, rfl, by simp, ?_, ?_, .none⟩
      · rw [shape, length]
        exact load_behind ..
      · exact ⟨nulFree, before ++ [previous], [], by simp, by simp⟩
  | (value, some comment) =>
      obtain ⟨c, rfl⟩ := eq_of_cutValue_some cut
      obtain ⟨nulFreeValue, nulFreeRest⟩ := nulFree_append.mp nulFree
      obtain ⟨cut', tail, lengths, starts, trimmed⟩ :=
        rtrim_append (before ++ [previous]) (comment ++ 0 :: after) nulFreeValue
      have written := store_behind (before ++ [previous]) (comment ++ 0 :: after) value c 0
      refine ⟨rtrimText value ++ (cut' ++ 0 :: comment), before.length + 1 + value.length,
        some (before.length + 1 + value.length + 1), ?_, ?_, ?_, ?_, .some ?_⟩
      · simp only [List.length_append, List.length_cons]
        omega
      · simp only [List.append_assoc, List.cons_append, List.nil_append, List.length_append,
          List.length_cons, List.length_nil, Nat.zero_add] at written trimmed ⊢
        simp only [Checked.ok_bind, Option.isSome_some, if_true, written, trimmed]
      · have read :=
          load_behind (before ++ [previous]) (comment ++ 0 :: after) (rtrimText value ++ cut') 0
        rw [@List.length_append _ (rtrimText value), lengths] at read
        simpa using read
      · refine ⟨fun d member => nulFreeValue d (rtrimText_subset value member),
          before ++ [previous], tail ++ (comment ++ [0]), ?_, by simp⟩
        simp [cut_append starts]
      · refine ⟨fun d member => nulFreeRest d (List.mem_cons_of_mem c member),
          before ++ previous :: (rtrimText value ++ (cut' ++ [0])), [], by simp, ?_⟩
        simp only [List.length_append, List.length_cons, List.length_nil]
        omega

/-- Looking for a comment in place finds that of the grammar. -/
theorem parseComment_append {s : Bytes} (nulFree : NulFree s)
    : ∃ comment,
        parseComment (before ++ (s ++ 0 :: after)) before.length none = .ok comment
        ∧ Option.Rel (StringAt (before ++ (s ++ [0]))) comment (commentOf s) := by
  cases s with
  | nil => exact ⟨none, by simp [parseComment, show isComment 0 = false from rfl], .none⟩
  | cons c s =>
      by_cases starts : isComment c
      · refine ⟨some (before.length + 1), by simp [parseComment, starts], ?_⟩
        rw [commentOf, if_pos starts]
        exact .some ⟨fun d member => nulFree d (List.mem_cons_of_mem c member), before ++ [c], [],
          by simp, by simp⟩
      · refine ⟨none, by simp [parseComment, starts], ?_⟩
        rw [commentOf, if_neg starts]
        exact .none

/-- No comment starts where a value has stopped at a NUL. -/
theorem parseComment_nul {mem : Bytes} {lp : Nat} (stopped : load mem lp = .ok 0)
    (comment : Option Nat)
    : parseComment mem lp comment = .ok comment := by
  simp [parseComment, stopped, show isComment 0 = false from rfl]

/-- Looking for a comment behind blanks finds that of the grammar. -/
theorem skipwhite_parseComment_append {s : Bytes} (nulFree : NulFree s)
    : ∃ lp comment,
        cfgSkipwhite (before ++ (s ++ 0 :: after)) before.length = .ok lp
        ∧ parseComment (before ++ (s ++ 0 :: after)) lp none = .ok comment
        ∧ Option.Rel (StringAt (before ++ (s ++ [0]))) comment (commentOf (skipwhite s)) := by
  have skipped := cfgSkipwhite_append before after nulFree
  have parts : s.takeWhile isWhite ++ skipwhite s = s := List.takeWhile_append_dropWhile
  obtain ⟨comment, found, same⟩ := parseComment_append (before ++ s.takeWhile isWhite) after
    fun c member => nulFree c (skipwhite_subset s member)
  have shape (t : Bytes)
      : before ++ s.takeWhile isWhite ++ (skipwhite s ++ t) = before ++ (s ++ t) := by
    rw [List.append_assoc, ← List.append_assoc (s.takeWhile isWhite), parts]
  rw [shape] at found same
  rw [List.length_append] at found
  exact ⟨_, comment, skipped, found, same⟩

/-- A value behind blanks is parsed in place as the grammar parses it. -/
theorem skipwhite_parseValue_append {s : Bytes} (nulFree : NulFree s) {previous : UInt8}
    (blank : isWhite previous)
    : ∃ s' value lp comment,
        s'.length = s.length
        ∧ cfgSkipwhite (before ++ previous :: (s ++ 0 :: after)) (before.length + 1) = .ok value
        ∧ parseValue (before ++ previous :: (s ++ 0 :: after)) value
          = .ok ((lp, comment), before ++ previous :: (s' ++ 0 :: after))
        ∧ load (before ++ previous :: (s' ++ 0 :: after)) lp = .ok 0
        ∧ StringAt (before ++ previous :: (s' ++ [0])) value (splitValue (skipwhite s)).1
        ∧ Option.Rel (StringAt (before ++ previous :: (s' ++ [0]))) comment
            (splitValue (skipwhite s)).2 := by
  have skipped := cfgSkipwhite_append (before ++ [previous]) after nulFree
  have parts : s.takeWhile isWhite ++ skipwhite s = s := List.takeWhile_append_dropWhile
  have white : ∀ c ∈ s.takeWhile isWhite, isWhite c := fun c member => List.mem_takeWhile_imp member
  have nulFreeValue : NulFree (skipwhite s) := fun c member => nulFree c (skipwhite_subset s member)
  generalize s.takeWhile isWhite = blanks at *
  -- The byte before the value is the last blank, or the one before the blanks.
  obtain ⟨front, last, ends, blank⟩
      : ∃ front last, before ++ previous :: blanks = front ++ [last] ∧ isWhite last := by
    rcases List.eq_nil_or_concat blanks with rfl | ⟨blanks, last, rfl⟩
    · exact ⟨before, previous, rfl, blank⟩
    · exact ⟨before ++ previous :: blanks, last, by simp, white last (by simp)⟩
  obtain ⟨s', lp, comment, length, parsed, stopped, value, commented⟩ :=
    parseValue_append front after nulFreeValue blank
  have shape (t : Bytes) : front ++ last :: t = before ++ previous :: (blanks ++ t) := by
    rw [← List.singleton_append, ← List.append_assoc, ← ends, List.append_assoc, List.cons_append]
  have address : front.length + 1 = before.length + 1 + blanks.length := by
    have lengths := congrArg List.length ends
    simp only [List.length_append, List.length_cons, List.length_nil] at lengths
    omega
  simp only [shape, address] at parsed stopped value commented
  rw [← List.append_assoc blanks, parts] at parsed
  refine ⟨blanks ++ s', before.length + 1 + blanks.length, lp, comment, ?_, ?_, ?_, ?_, ?_, ?_⟩
  · rw [List.length_append, length, ← List.length_append, parts]
  · simpa using skipped
  · simpa using parsed
  · simpa using stopped
  · simpa using value
  · simpa using commented

/-- Parsing a header line in place leaves the entry of the grammar. -/
theorem parseHeaderAt_append {s : Bytes} (nulFree : NulFree s)
    : ∃ s' entry,
        s'.length = s.length
        ∧ parseHeaderAt (before ++ (s ++ 0 :: after)) before.length
          = .ok (entry, before ++ (s' ++ 0 :: after))
        ∧ Option.Rel (EntryAt (before ++ (s' ++ [0]))) entry (parseHeader s) := by
  have skipped := cfgSkipwhite_append before after nulFree
  have parts : s.takeWhile isWhite ++ skipwhite s = s := List.takeWhile_append_dropWhile
  have nulFreeName : NulFree (skipwhite s) := fun c member => nulFree c (skipwhite_subset s member)
  have found :=
    strchr_append (before ++ s.takeWhile isWhite) after nulFreeName (c := ch ']') (by decide)
  rw [parseHeader, parseHeaderAt, skipped, Checked.ok_bind]
  generalize s.takeWhile isWhite = blanks at *
  generalize skipwhite s = name at *
  subst parts
  simp only [List.append_assoc, List.length_append] at found ⊢
  rw [found, Checked.ok_bind]
  cases split : splitAtChar (ch ']') name with
  | none => exact ⟨blanks ++ name, none, by simp, by simp, .none⟩
  | some parts =>
      obtain ⟨name, rest⟩ := parts
      obtain ⟨rfl, -⟩ := splitAtChar_eq_some.mp split
      obtain ⟨nulFreeName, nulFreeRest⟩ := nulFree_append.mp nulFreeName
      have nulFreeTrimmed : NulFree (rtrimText name) :=
        fun c member => nulFreeName c (rtrimText_subset name member)
      have stored := store_behind (before ++ blanks) (rest ++ 0 :: after) name (ch ']') 0
      obtain ⟨cut, tail, lengths, starts, trimmed⟩ :=
        rtrim_append (before ++ blanks) (rest ++ 0 :: after) nulFreeName
      obtain ⟨lp, comment, skipped, commented, same⟩ :=
        skipwhite_parseComment_append (before ++ blanks ++ rtrimText name ++ cut ++ [0]) after
          fun c member => nulFreeRest c (List.mem_cons_of_mem _ member)
      have address
          : (before ++ blanks ++ rtrimText name ++ cut ++ [0]).length
            = before.length + (blanks.length + name.length) + 1 := by
        simp only [List.length_append, List.length_singleton, ← lengths]
        omega
      rw [address] at skipped
      simp only [List.append_assoc, List.cons_append, List.nil_append, List.length_append,
        Nat.add_assoc] at stored trimmed skipped commented same ⊢
      refine ⟨blanks ++ (rtrimText name ++ (cut ++ 0 :: rest)),
        if rtrimText name = [] then none
        else some ⟨some (before.length + blanks.length), none, none, comment⟩, ?_, ?_, ?_⟩
      · simp only [List.length_append, List.length_cons, ← lengths]
        omega
      · by_cases remains : rtrimText name = [] <;>
          simp [stored, trimmed, skipped, commented, remains, Nat.add_assoc]
      · by_cases remains : rtrimText name = []
        · simp [remains]
        · simp only [Option.bind_eq_bind, Option.bind_some, if_neg remains]
          refine .some
            ⟨.some ⟨nulFreeTrimmed, before ++ blanks, tail ++ (rest ++ [0]), ?_, by simp⟩, .none,
              .none, by simpa using same⟩
          simp [cut_append starts]

/-- Parsing a continuation line in place leaves the entry of the grammar. -/
theorem parseContinueAt_append {s : Bytes} (nulFree : NulFree s) {previous : UInt8}
    (blank : isWhite previous)
    : ∃ s' entry,
        s'.length = s.length
        ∧ parseContinueAt (before ++ previous :: (s ++ 0 :: after)) (before.length + 1)
          = .ok (some entry, before ++ previous :: (s' ++ 0 :: after))
        ∧ EntryAt (before ++ previous :: (s' ++ [0])) entry (parseContinue s) := by
  obtain ⟨s', lp, comment, length, parsed, stopped, value, commented⟩ :=
    parseValue_append before after nulFree blank
  refine ⟨s', ⟨none, none, some (before.length + 1), comment⟩, length, ?_, ?_⟩
  · simp [parseContinueAt, parsed, parseComment_nul stopped]
  · exact ⟨.none, .none, .some value, commented⟩

/-- Parsing a line with a key in place leaves the entry of the grammar. -/
theorem parseDefineAt_append {s : Bytes} (nulFree : NulFree s)
    : ∃ s' entry,
        s'.length = s.length
        ∧ parseDefineAt (before ++ (s ++ 0 :: after)) before.length
          = .ok (entry, before ++ (s' ++ 0 :: after))
        ∧ Option.Rel (EntryAt (before ++ (s' ++ [0]))) entry (parseDefine s) := by
  have found := strchr_append before after nulFree (c := ch '=') (by decide)
  rw [parseDefine, parseDefineAt, found, Checked.ok_bind]
  cases split : splitAtChar (ch '=') s with
  | none => exact ⟨s, none, rfl, by simp, .none⟩
  | some parts =>
      obtain ⟨id, rest⟩ := parts
      obtain ⟨rfl, -⟩ := splitAtChar_eq_some.mp split
      obtain ⟨nulFreeId, nulFreeRest⟩ := nulFree_append.mp nulFree
      have nulFreeRest : NulFree rest := fun c member =>
        nulFreeRest c (List.mem_cons_of_mem _ member)
      have nulFreeTrimmed : NulFree (rtrimText id) :=
        fun c member => nulFreeId c (rtrimText_subset id member)
      have stored := store_behind before (rest ++ 0 :: after) id (ch '=') 0
      obtain ⟨cut, tail, lengths, starts, trimmed⟩ :=
        rtrim_append before (rest ++ 0 :: after) nulFreeId
      obtain ⟨rest', value, lp, comment, length, skipped, parsed, stopped, same, commented⟩ :=
        skipwhite_parseValue_append (before ++ rtrimText id ++ cut) after nulFreeRest
          (show isWhite 0 from rfl)
      have address
          : (before ++ rtrimText id ++ cut).length + 1 = before.length + id.length + 1 := by
        simp only [List.length_append, ← lengths, Nat.add_assoc]
      rw [address] at skipped
      simp only [List.append_assoc, List.cons_append]
        at stored trimmed skipped parsed stopped same commented ⊢
      refine ⟨rtrimText id ++ (cut ++ 0 :: rest'),
        some ⟨none, some before.length, some value, comment⟩, ?_, ?_, ?_⟩
      · simp only [List.length_append, List.length_cons, ← lengths, length]
        omega
      · simp [stored, trimmed, skipped, parsed, parseComment_nul stopped]
      · simp only [Option.bind_eq_bind, Option.bind_some, List.append_assoc, List.cons_append]
        exact .some ⟨.none, .some ⟨nulFreeTrimmed, before, tail ++ (rest' ++ [0]),
          by simp [cut_append starts], rfl⟩, .some same, commented⟩

/-- Parsing in place what follows the leading blanks leaves the entry of the grammar. -/
theorem parseItemAt_append {t : Bytes} (nulFree : NulFree t) (isContinue : Bool)
    (blank : isContinue → ∃ front last, before = front ++ [last] ∧ isWhite last)
    (item : isContinue ∨ t ≠ [])
    : ∃ t' entry,
        t'.length = t.length
        ∧ parseItemAt (before ++ (t ++ 0 :: after)) isContinue before.length
          = .ok (entry, before ++ (t' ++ 0 :: after))
        ∧ Option.Rel (EntryAt (before ++ (t' ++ [0]))) entry (parseItem isContinue t) := by
  have continued (continues : isContinue)
      : ∃ t' entry,
          t'.length = t.length
          ∧ parseContinueAt (before ++ (t ++ 0 :: after)) before.length
            = .ok (some entry, before ++ (t' ++ 0 :: after))
          ∧ EntryAt (before ++ (t' ++ [0])) entry (parseContinue t) := by
    obtain ⟨front, last, rfl, white⟩ := blank continues
    obtain ⟨t', entry, length, parsed, same⟩ := parseContinueAt_append front after nulFree white
    exact ⟨t', entry, length, by simpa using parsed, by simpa using same⟩
  cases t with
  | nil =>
      have continues : isContinue = true := by simpa using item
      obtain ⟨t', entry, length, parsed, same⟩ := continued continues
      refine ⟨t', some entry, length, ?_, by simpa [parseItem, continues] using same⟩
      rw [List.nil_append] at parsed ⊢
      rw [parseItemAt, load_append_cons, Checked.ok_bind, if_neg (by decide),
        if_pos (by decide), if_pos continues, parsed]
  | cons c rest =>
      have nulFreeRest : NulFree rest := fun d member => nulFree d (List.mem_cons_of_mem _ member)
      rw [List.cons_append, parseItemAt, load_append_cons, Checked.ok_bind, parseItem]
      by_cases header : c = ch '['
      · obtain ⟨rest', entry, length, parsed, same⟩ :=
          parseHeaderAt_append (before ++ [c]) after nulFreeRest
        refine ⟨c :: rest', entry, by simp [length], ?_, ?_⟩
        · simpa [header] using parsed
        · simpa [header] using same
      rw [if_neg header, if_neg header]
      by_cases comment : c = commentMagic01
      · refine ⟨c :: rest, some ⟨none, none, none, some (before.length + 1)⟩, rfl, ?_, ?_⟩
        · subst comment
          rw [if_neg (by decide)]
          simp [parseComment, show isComment commentMagic01 = true from rfl]
        · rw [if_pos comment]
          exact .some ⟨.none, .none, .none,
            .some ⟨nulFreeRest, before ++ [c], [], by simp, by simp⟩⟩
      rw [if_pos (Or.inl comment), if_neg comment]
      by_cases continues : isContinue
      · obtain ⟨t', entry, length, parsed, same⟩ := continued continues
        rw [if_pos continues, if_pos continues]
        exact ⟨t', some entry, length, parsed, .some same⟩
      · rw [if_neg continues, if_neg continues]
        exact parseDefineAt_append before after nulFree

/-- Parsing a line in place leaves the entry of the grammar. -/
theorem parseLineAt_append {line : Bytes} (nulFree : NulFree line) (filled : line ≠ [])
    : ∃ line' entry,
        line'.length = line.length
        ∧ parseLineAt (before ++ (line ++ 0 :: after)) before.length
          = .ok (entry, before ++ (line' ++ 0 :: after))
        ∧ Option.Rel (EntryAt (before ++ (line' ++ [0]))) entry (parseLine line) := by
  have skipped := cfgSkipwhite_append before after nulFree
  have parts : line.takeWhile isWhite ++ skipwhite line = line := List.takeWhile_append_dropWhile
  have white : ∀ c ∈ line.takeWhile isWhite, isWhite c :=
    fun c member => List.mem_takeWhile_imp member
  have nulFreeItem : NulFree (skipwhite line) :=
    fun c member => nulFree c (skipwhite_subset line member)
  obtain ⟨c, rest, rfl⟩ := List.exists_cons_of_ne_nil filled
  rw [parseLineAt, List.cons_append, load_append_cons, Checked.ok_bind, parseLine, List.head?_cons,
    Option.map_some, Option.getD_some]
  by_cases blank : isWhite c
  · obtain ⟨t', entry, length, parsed, same⟩ :=
      parseItemAt_append (before ++ (c :: rest).takeWhile isWhite) after nulFreeItem true
        (by
          intro _
          rw [List.takeWhile_cons_of_pos blank] at white ⊢
          rcases List.eq_nil_or_concat (c :: rest.takeWhile isWhite) with nil | ⟨front, last, ends⟩
          · simp at nil
          · rw [List.concat_eq_append] at ends
            exact ⟨before ++ front, last, by rw [ends, List.append_assoc],
              white last (by simp [ends])⟩)
        (Or.inl rfl)
    rw [if_pos blank, ← List.cons_append, skipped, Checked.ok_bind]
    rw [← List.length_append, blank]
    simp only [List.append_assoc] at parsed same
    rw [← List.append_assoc (List.takeWhile _ _), parts] at parsed
    refine ⟨(c :: rest).takeWhile isWhite ++ t', entry, ?_, by simpa using parsed,
      by simpa using same⟩
    rw [List.length_append, length, ← List.length_append, parts]
  · have item : skipwhite (c :: rest) = c :: rest := by simp [skipwhite, blank]
    rw [if_neg blank, item]
    simpa [blank] using parseItemAt_append before after nulFree false (by simp) (by simp)

/-- Reading a line with its end leaves the trimmed line, terminated, and moves past the end.
-/
theorem cfgGetline_line {eols line : Bytes} (all : ∀ c ∈ eols, isEolChar c)
    (nulFreeEols : NulFree eols) (oneLine : OneLine line) (nulFree : NulFree line)
    (filled : line ≠ []) {c : UInt8} (nonzero : c ≠ 0) (ends : isEolChar c)
    : ∃ cut tail,
        (trimBlank line).length + cut.length = line.length
        ∧ cut ++ [0] = 0 :: tail
        ∧ cfgGetline (before ++ (eols ++ (line ++ c :: after))) before.length
          = .ok
              ((trimBlank line ≠ [], before.length + eols.length + line.length + 1,
                  before.length + eols.length),
                before ++ (eols ++ (trimBlank line ++ (cut ++ 0 :: after)))) := by
  have start
      : scanWhile (before ++ (eols ++ (line ++ c :: after))) (fun c => c != 0 && isEolChar c)
          before.length
        = .ok (before.length + eols.length) := by
    obtain ⟨d, line, rfl⟩ := List.exists_cons_of_ne_nil filled
    refine scanWhile_append before _ ?_ (by simp [oneLine d List.mem_cons_self])
    intro b member
    simpa [all b member] using nulFreeEols b member
  have passes : ∀ b ∈ line, (b != 0 && !isEolChar b) = true := by
    intro b member
    simpa [oneLine b member] using nulFree b member
  have stop := scanWhile_append (before ++ eols) after passes (c := c) (by simp [ends])
  have terminated := store_behind (before ++ eols) after line c 0
  have trimmed := trimBack_append (before ++ eols) after isWhite (line ++ [0])
  rw [List.rdropWhile_concat_pos _ _ _ (by rfl), ← trimBlank] at trimmed
  obtain ⟨cut, parts⟩ : ∃ cut, line = trimBlank line ++ cut :=
    ⟨_, (List.rdropWhile_append_rtakeWhile ..).symm⟩
  obtain ⟨cut', tail, length, starts, stored⟩ :=
    store_terminator (before ++ eols) after (trimBlank line) cut
  rw [← List.append_assoc (trimBlank line), ← parts] at stored
  obtain ⟨first, read, nonempty⟩
      : ∃ first,
          load (before ++ eols ++ (trimBlank line ++ (cut' ++ 0 :: after)))
              (before ++ eols).length
            = .ok first
          ∧ (first != 0) = decide (trimBlank line ≠ []) := by
    cases kept : trimBlank line with
    | nil => exact ⟨0, by rw [List.nil_append, cut_append starts, load_append_cons], rfl⟩
    | cons d rest =>
        have member : d ∈ trimBlank line := by simp [kept]
        exact ⟨d, by rw [List.cons_append, load_append_cons],
          by simpa using nulFree d (trimBlank_subset line member)⟩
  have count
      : before.length + eols.length + line.length + 1 - (before.length + eols.length)
        = (line ++ [0]).length := by
    rw [List.length_append, List.length_singleton]
    omega
  simp only [List.append_assoc, List.cons_append, List.nil_append,
    @List.length_append _ before] at stop terminated trimmed stored read
  refine ⟨cut', tail, by rw [length, ← List.length_append, ← parts], starts, ?_⟩
  rw [cfgGetline, start, Checked.ok_bind, stop, Checked.ok_bind, ← List.append_assoc,
    ← List.length_append, load_behind, Checked.ok_bind, if_pos nonzero, List.length_append,
    List.append_assoc, terminated, Checked.ok_bind, count, trimmed, Checked.ok_bind, stored,
    Checked.ok_bind, read, Checked.ok_bind, nonempty]

/-- Reading a line that a NUL ends moves to the NUL and leaves the line as it is. -/
theorem cfgGetline_last {eols line : Bytes} (all : ∀ c ∈ eols, isEolChar c)
    (nulFreeEols : NulFree eols) (oneLine : OneLine line) (nulFree : NulFree line)
    : cfgGetline (before ++ (eols ++ (line ++ 0 :: after))) before.length
      = .ok
          ((line ≠ [], before.length + eols.length + line.length, before.length + eols.length),
            before ++ (eols ++ (line ++ 0 :: after))) := by
  have start
      : scanWhile (before ++ (eols ++ (line ++ 0 :: after))) (fun c => c != 0 && isEolChar c)
          before.length
        = .ok (before.length + eols.length) := by
    have passes : ∀ b ∈ eols, (b != 0 && isEolChar b) = true := by
      intro b member
      simpa [all b member] using nulFreeEols b member
    cases line with
    | nil => exact scanWhile_append before after passes (by simp)
    | cons d line =>
        exact scanWhile_append before _ passes (by simp [oneLine d List.mem_cons_self])
  have passes : ∀ b ∈ line, (b != 0 && !isEolChar b) = true := by
    intro b member
    simpa [oneLine b member] using nulFree b member
  have stop := scanWhile_append (before ++ eols) after passes (c := 0) (by simp)
  obtain ⟨first, read, nonempty⟩
      : ∃ first,
          load (before ++ eols ++ (line ++ 0 :: after)) (before ++ eols).length = .ok first
          ∧ (first != 0) = decide (line ≠ []) := by
    cases line with
    | nil => exact ⟨0, by rw [List.nil_append, load_append_cons], rfl⟩
    | cons d rest =>
        exact ⟨d, by rw [List.cons_append, load_append_cons],
          by simpa using nulFree d List.mem_cons_self⟩
  simp only [List.append_assoc, @List.length_append _ before] at stop read
  rw [cfgGetline, start, Checked.ok_bind, stop, Checked.ok_bind, ← List.append_assoc,
    ← List.length_append, load_behind, Checked.ok_bind, if_neg (by simp), List.length_append,
    List.append_assoc, read, Checked.ok_bind, nonempty]

end Scans

/-- The loop ends at the end of the image. -/
theorem parseLoop_end {endPtr imgPtr : Nat} (ended : endPtr ≤ imgPtr) (bound : Nat) (mem : Bytes)
    : parseLoop endPtr bound imgPtr mem = .ok ([], mem) := by
  unfold parseLoop
  exact if_neg (Nat.not_lt.mpr ended)

/-- An entry that may be missing, with the entries behind it. -/
theorem forall₂_toList_append {block : Bytes} {e : Option (CfgEntry Nat)} {entry : Option Entry}
    {es : List (CfgEntry Nat)} {entries : List Entry} (first : Option.Rel (EntryAt block) e entry)
    (rest : List.Forall₂ (EntryAt block) es entries)
    : List.Forall₂ (EntryAt block) (e.toList ++ es) (entry.toList ++ entries) := by
  cases first with
  | none => exact rest
  | some same => exact .cons same rest

/-- The parse of a filled line in front of further entries. -/
theorem filterMap_nonempty {line : Bytes} (filled : line ≠ []) (lines : List Bytes)
    : (nonempty line ++ lines).filterMap parseLine
      = (parseLine line).toList ++ lines.filterMap parseLine := by
  cases parsed : parseLine line <;> simp [nonempty, filled, parsed]

/-- The loop goes on from an address with the entries it has found before. -/
def goesOn (endPtr bound imgPtr : Nat) (mem : Bytes) (entries : List (CfgEntry Nat))
    : Checked (List (CfgEntry Nat) × Bytes) := do
  let (later, mem) ← parseLoop endPtr bound imgPtr mem
  .ok (entries ++ later, mem)

/-- Without entries found before, the loop just goes on. -/
theorem goesOn_nil (endPtr bound imgPtr : Nat) (mem : Bytes)
    : parseLoop endPtr bound imgPtr mem = goesOn endPtr bound imgPtr mem [] := by
  rw [goesOn]
  cases parseLoop endPtr bound imgPtr mem <;> simp

/-- Entries that were found go in front of those found later. -/
theorem goesOn_bind (endPtr bound imgPtr : Nat) (mem : Bytes) (first entries : List (CfgEntry Nat))
    : (do
        let (later, mem) ← goesOn endPtr bound imgPtr mem entries
        .ok (first ++ later, mem))
      = goesOn endPtr bound imgPtr mem (first ++ entries) := by
  rw [goesOn, goesOn]
  cases parseLoop endPtr bound imgPtr mem <;> simp

/-- One turn from an address behind a finished part of the image, before a text without NUL.

The turn reads a line of the text in bounds, leaves the entry of its first filled line, if any, and
moves on to what remains of the text.
-/
theorem parseTurn_text (before after : Bytes) {image : Bytes} (nulFree : NulFree image)
    (filled : image ≠ [])
    : ∃ kept rest entry parsed,
        kept ≠ []
        ∧ kept.length + rest.length = image.length
        ∧ NulFree rest
        ∧ parseTurn (before ++ (image ++ 0 :: after)) before.length
          = .ok ((entry, before.length + kept.length), before ++ (kept ++ (rest ++ 0 :: after)))
        ∧ parseImage image = parsed.toList ++ parseImage rest
        ∧ ∀ rest' : Bytes,
            rest'.length = rest.length
            → Option.Rel (EntryAt (before ++ (kept ++ (rest' ++ [0])))) entry parsed := by
  obtain ⟨eols, line, all, oneLine, rfl | ⟨nonempty', c, rest, ends, rfl⟩⟩ := exists_line image
  · obtain ⟨nulFreeEols, nulFreeLine⟩ := nulFree_append.mp nulFree
    have read := cfgGetline_last before after all nulFreeEols oneLine nulFreeLine
    rw [parseTurn, List.append_assoc, read, parseImage, imageLines_eols all,
      imageLines_last oneLine]
    by_cases blank : line = []
    · subst blank
      exact ⟨eols, [], none, none, by simpa using filled, by simp, by simp [NulFree], by simp, rfl,
        fun _ _ => .none⟩
    · obtain ⟨line', entry, length, parsedLine, same⟩ :=
        parseLineAt_append (before ++ eols) after nulFreeLine blank
      rw [List.length_append, List.append_assoc, List.append_assoc] at parsedLine
      refine ⟨eols ++ line', [], entry, parseLine line, ?_, by simp [length], by simp [NulFree], ?_,
        ?_, ?_⟩
      · have remains : line' ≠ [] := by
          rwa [← List.length_pos_iff, length, List.length_pos_iff]
        simp [remains]
      · simp [blank, parsedLine, length, Nat.add_assoc]
      · rw [← List.append_nil (nonempty line), filterMap_nonempty blank]
        rfl
      · intro rest' none
        obtain rfl := List.eq_nil_of_length_eq_zero none
        simpa [List.append_assoc] using same
  · obtain ⟨nulFreeEols, nulFreeLine⟩ := nulFree_append.mp nulFree
    obtain ⟨nulFreeLine, nulFreeRest⟩ := nulFree_append.mp nulFreeLine
    have nonzero : c ≠ 0 := nulFreeRest c List.mem_cons_self
    have nulFreeRest : NulFree rest :=
      fun d member => nulFreeRest d (List.mem_cons_of_mem _ member)
    obtain ⟨cut, tail, lengths, starts, read⟩ :=
      cfgGetline_line before (rest ++ 0 :: after) all nulFreeEols oneLine nulFreeLine nonempty'
        nonzero ends
    have moves (kept : Bytes) (length : kept.length = (trimBlank line).length)
        : before.length + (eols ++ (kept ++ (cut ++ [0]))).length
          = before.length + eols.length + line.length + 1 := by
      simp only [List.length_append, List.length_singleton, length, ← lengths]
      omega
    have remains (kept : Bytes) (length : kept.length = (trimBlank line).length)
        : (eols ++ (kept ++ (cut ++ [0]))).length + rest.length
          = (eols ++ (line ++ c :: rest)).length := by
      simp only [List.length_append, List.length_cons, List.length_nil, length, ← lengths]
      omega
    simp only [parseTurn, List.append_assoc, List.cons_append, read, parseImage,
      imageLines_eols all, imageLines_line oneLine ends]
    by_cases blank : trimBlank line = []
    · refine ⟨eols ++ ([] ++ (cut ++ [0])), rest, none, none, by simp, remains [] (by simp [blank]),
        nulFreeRest, ?_, by simp [blank, nonempty], fun _ _ => .none⟩
      rw [moves [] (by simp [blank])]
      simp [blank]
    · obtain ⟨line', entry, length, parsedLine, same⟩ :=
        parseLineAt_append (before ++ eols) (tail ++ (rest ++ 0 :: after))
          (fun d member => nulFreeLine d (trimBlank_subset line member)) blank
      rw [← cut_append starts, List.length_append, List.append_assoc, List.append_assoc]
        at parsedLine
      refine ⟨eols ++ (line' ++ (cut ++ [0])), rest, entry, parseLine (trimBlank line), by simp,
        remains line' length, nulFreeRest, ?_, filterMap_nonempty blank _, ?_⟩
      · rw [moves line' length]
        simp [blank, parsedLine]
      · intro rest' _
        have block
            : before ++ eols ++ (line' ++ [0]) ++ (tail ++ (rest' ++ [0]))
              = before ++ (eols ++ (line' ++ (cut ++ [0])) ++ (rest' ++ [0])) := by
          simp [cut_append starts]
        rw [← block]
        exact rel_entryAt_append same _

/-- The loop from an address behind a finished part of the image parses a text without NUL in
bounds, leaves the entries of the grammar, and goes on behind the text.
-/
theorem parseLoop_text (endPtr bound : Nat) (before image after : Bytes) (nulFree : NulFree image)
    (within : before.length + image.length ≤ endPtr) (enough : image.length ≤ bound)
    : ∃ image' entries bound',
        image'.length = image.length
        ∧ parseLoop endPtr bound before.length (before ++ (image ++ 0 :: after))
          = goesOn endPtr bound' (before.length + image.length)
              (before ++ (image' ++ 0 :: after)) entries
        ∧ List.Forall₂ (EntryAt (before ++ (image' ++ [0]))) entries (parseImage image) := by
  induction bound generalizing before image with
  | zero =>
      obtain rfl := List.eq_nil_of_length_eq_zero (Nat.le_zero.mp enough)
      exact ⟨[], [], 0, rfl, goesOn_nil .., .nil⟩
  | succ bound ih =>
      by_cases empty : image = []
      · subst empty
        exact ⟨[], [], bound + 1, rfl, goesOn_nil .., .nil⟩
      obtain ⟨kept, rest, entry, parsed, progress, lengths, nulFreeRest, turn, grammar, same⟩ :=
        parseTurn_text before after nulFree empty
      have moved := List.length_pos_iff.mpr progress
      have address : (before ++ kept).length = before.length + kept.length := List.length_append
      obtain ⟨rest', entries, bound', length, parsedRest, sameRest⟩ :=
        ih (before ++ kept) rest nulFreeRest (by omega) (by omega)
      refine ⟨kept ++ rest', entry.toList ++ entries, bound', ?_, ?_, ?_⟩
      · rw [List.length_append, length, lengths]
      · rw [address, List.append_assoc, Nat.add_assoc, lengths] at parsedRest
        rw [parseLoop_turn (by omega), turn, Checked.ok_bind, ← goesOn_bind]
        simp [parsedRest]
      · rw [grammar]
        refine forall₂_toList_append ?_ ?_
        · simpa using same rest' length
        · simpa using sameRest

/-- At a NUL, a turn stores nothing and does not move. -/
theorem parseTurn_stuck (before after : Bytes)
    : parseTurn (before ++ 0 :: after) before.length
      = .ok ((none, before.length), before ++ 0 :: after) := by
  have read := @cfgGetline_last before after [] [] (by simp) (by simp [NulFree]) (by simp [OneLine])
    (by simp [NulFree])
  simp only [List.nil_append, List.length_nil, Nat.add_zero] at read
  simp [parseTurn, read]

/-- A loop that has reached a NUL before its end stays there forever. -/
theorem parseLoop_stuck {endPtr : Nat} (before after : Bytes) (inside : before.length < endPtr)
    (bound : Nat)
    : parseLoop endPtr bound before.length (before ++ 0 :: after) = .error .diverges := by
  induction bound with
  | zero => rw [parseLoop, if_pos inside]
  | succ bound ih =>
      rw [parseLoop_turn inside, parseTurn_stuck, Checked.ok_bind]
      simp only [ih, Checked.error_bind]

/-- The loop from an address behind a finished part of the image parses the rest of it in
bounds, and leaves the entries of the grammar.
-/
theorem parseLoop_append (bound : Nat) (before image : Bytes) (nulFree : NulFree image)
    (enough : image.length ≤ bound)
    : ∃ image' entries,
        image'.length = image.length
        ∧ parseLoop (before.length + image.length) bound before.length (before ++ (image ++ [0]))
          = .ok (entries, before ++ (image' ++ [0]))
        ∧ List.Forall₂ (EntryAt (before ++ (image' ++ [0]))) entries (parseImage image) := by
  obtain ⟨image', entries, bound', length, parsed, same⟩ :=
    parseLoop_text _ bound before image [] nulFree (Nat.le_refl _) enough
  refine ⟨image', entries, length, ?_, same⟩
  rw [parsed, goesOn, parseLoop_end (Nat.le_refl _)]
  simp

/-- The texts of entries of a block are those of the grammar. -/
theorem map_cstring_entries {block : Bytes} {es : List (CfgEntry Nat)} {entries : List Entry}
    (h : List.Forall₂ (EntryAt block) es entries)
    : es.map (CfgEntry.map (cstring block)) = entries := by
  induction h with
  | nil => rfl
  | cons first rest ih =>
      have same := first.map_eq []
      rw [List.append_nil] at same
      rw [List.map_cons, same, ih]

/-- `_cfg_parse` finishes on every image without NUL bytes, with all its accesses in bounds,
and stores the entries of the line grammar.
-/
theorem cfgParse_eq {c : Config} {image : Bytes} (fresh : c.valid = false)
    (read : c.image = some (image ++ [0])) (size : c.size = image.length)
    (nulFree : NulFree image)
    : ∃ image',
        image'.length = image.length
        ∧ cfgParse c
          = .ok
              (0,
                { c with
                  image := some (image' ++ [0])
                  pool := c.pool.storeAll (parseImage image)
                  valid := true }) := by
  obtain ⟨image', entries, length, parsed, same⟩ :=
    parseLoop_append image.length [] image nulFree (Nat.le_refl _)
  simp only [List.length_nil, Nat.zero_add, List.nil_append] at parsed same
  refine ⟨image', length, ?_⟩
  simp [cfgParse, fresh, read, size, parsed, map_cstring_entries same]

/-- The configuration that `_cfg_parse` builds from a file. -/
def Parsed (image : Bytes) (c : Config) : Prop :=
  ∃ mtime, cfgParse (readIn image mtime) = .ok (0, c)

/-- A parsed configuration is valid and clean, and its pool has stored the entries of the line
grammar.
-/
theorem Parsed.pool {image : Bytes} {c : Config} (parsed : Parsed image c)
    (nulFree : NulFree image)
    : c.valid ∧ c.dirty = false ∧ c.pool = Pool.empty.storeAll (parseImage image) := by
  obtain ⟨mtime, parsed⟩ := parsed
  obtain ⟨image', -, same⟩ :=
    cfgParse_eq (c := readIn image mtime) rfl rfl rfl nulFree
  rw [same] at parsed
  simp only [Except.ok.injEq, Prod.mk.injEq, true_and] at parsed
  subst parsed
  exact ⟨rfl, rfl, rfl⟩

/-- A parsed configuration is valid and clean, and holds the entries of the line grammar. -/
theorem Parsed.entries {image : Bytes} {c : Config} (parsed : Parsed image c)
    (nulFree : NulFree image)
    : c.valid ∧ c.dirty = false ∧ c.pool.entries = parseImage image := by
  obtain ⟨valid, clean, pool⟩ := parsed.pool nulFree
  exact ⟨valid, clean, by rw [pool, Pool.storeAll_entries]; rfl⟩

/-- A text with a NUL byte has a first one. -/
theorem exists_firstNul {image : Bytes} (nul : ¬NulFree image)
    : ∃ text rest, image = text ++ 0 :: rest ∧ NulFree text := by
  have member : 0 ∈ image := by
    by_contra absent
    exact nul fun c member zero => absent (zero ▸ member)
  obtain ⟨text, rest, parts, first⟩ := List.eq_append_cons_of_mem member
  exact ⟨text, rest, parts, fun c member zero => first (zero ▸ member)⟩

/-- `_cfg_parse` does not finish on an image with a NUL byte. -/
theorem Parsed.nulFree {image : Bytes} {c : Config} (parsed : Parsed image c) : NulFree image := by
  obtain ⟨mtime, parsed⟩ := parsed
  by_contra nul
  obtain ⟨text, rest, rfl, nulFree⟩ := exists_firstNul nul
  obtain ⟨text', entries, bound', length, loop, -⟩ :=
    parseLoop_text (text ++ 0 :: rest).length (text ++ 0 :: rest).length [] text (rest ++ [0])
      nulFree (by simp) (by simp)
  have inside : text'.length < (text ++ 0 :: rest).length := by simp [length]
  have stuck := parseLoop_stuck text' (rest ++ [0]) inside bound'
  simp only [List.nil_append, List.length_nil, Nat.zero_add, ← length] at loop
  rw [goesOn, stuck, Checked.error_bind] at loop
  have image : text ++ 0 :: rest ++ [0] = text ++ 0 :: (rest ++ [0]) := by simp
  simp only [cfgParse, readIn, cfgFreeimage, Bool.false_eq_true, if_false, image, loop,
    Checked.error_bind] at parsed
  contradiction

/-- The configuration of a file that was never modified. -/
def parseOf (image : Bytes) : Config :=
  match cfgParse (readIn image 0) with
  | .ok (_, c) => c
  | .error _ => cfgFreeimage

/-- The configuration of a file without NUL bytes is parsed from it. -/
theorem parsed_parseOf {image : Bytes} (nulFree : NulFree image)
    : Parsed image (parseOf image) := by
  obtain ⟨image', -, same⟩ := cfgParse_eq (c := readIn image 0) rfl rfl rfl nulFree
  exact ⟨0, by rw [parseOf, same]⟩

end Cvos.CfgFile

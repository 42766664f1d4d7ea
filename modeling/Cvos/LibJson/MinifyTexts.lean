import Cvos.LibJson.Minify
import Cvos.LibJson.RoundTrip

/-! What `cJSON_Minify` makes of JSON texts: comments and whitespace between the tokens are taken
out and the value stays, and a formatted text becomes the unformatted one.
-/

namespace Cvos.LibJson

open Cvos.Lib Json

/-- Whitespace and comments. A comment of several lines has no end of one, not even the slash behind
its first star.
-/
inductive Commented : Bytes → Prop where
  | nil : Commented []
  | white {c : UInt8} {rest : Bytes} (isWhite : isWhitespace c) (more : Commented rest)
    : Commented (c :: rest)
  | line {body rest : Bytes} (inside : ∀ c ∈ body, c ≠ 0 ∧ c ≠ newline) (more : Commented rest)
    : Commented (slash :: slash :: (body ++ newline :: rest))
  | lines {body rest : Bytes} (inside : ∀ c ∈ body, c ≠ 0)
    (open' : ¬[star, slash] <:+: star :: body) (more : Commented rest)
    : Commented (slash :: star :: (body ++ star :: slash :: rest))

/-- What may stand at the end of a text: nothing, or a line that is a comment and has no end. -/
def LastLine (last : Bytes) : Prop :=
  last = [] ∨ ∃ body, last = slash :: slash :: body ∧ newline ∉ body

/-- A part of a text, and what is left of it. -/
def Strips (t t' : Bytes) : Prop :=
  ∀ rest, stripped .outside (t ++ rest) = (stripped .outside rest).map (t' ++ ·)

/-- Parts are stripped one after the other. -/
theorem Strips.append {t t' u u' : Bytes} (first : Strips t t') (second : Strips u u')
    : Strips (t ++ u) (t' ++ u') := by
  intro rest
  rw [List.append_assoc, first, second, Option.map_map]
  simp [Function.comp_def]

/-- Nothing is left of nothing. -/
theorem Strips.nil : Strips [] [] := fun rest => by simp

/-- The characters that are copied wherever they stand between the literals. -/
def Copied (c : UInt8) : Prop := ¬isWhitespace c ∧ c ≠ slash ∧ c ≠ Json.quote

instance (c : UInt8) : Decidable (Copied c) :=
  inferInstanceAs (Decidable (_ ∧ _))

/-- A text of such characters is kept. -/
theorem strips_copied {t : Bytes} (copied : ∀ c ∈ t, Copied c) : Strips t t := by
  induction t with
  | nil => exact .nil
  | cons c t ih =>
      obtain ⟨⟨black, noSlash, noQuote⟩, copied⟩ := List.forall_mem_cons.mp copied
      have first : Strips [c] [c] := fun rest => by
        simp [stripped, black, noSlash, noQuote]
      exact first.append (ih copied)

/-- Whitespace is taken out. -/
theorem strips_white {t : Bytes} (white : ∀ c ∈ t, isWhitespace c) : Strips t [] := by
  induction t with
  | nil => exact .nil
  | cons c t ih =>
      obtain ⟨here, white⟩ := List.forall_mem_cons.mp white
      have first : Strips [c] [] := fun rest => by simp [stripped, here]
      exact first.append (ih white)

/-- A line is skipped up to its end. -/
theorem stripped_line {body : Bytes} (inside : ∀ c ∈ body, c ≠ newline) (rest : Bytes)
    : stripped .line (body ++ newline :: rest) = stripped .outside rest := by
  induction body with
  | nil => rfl
  | cons c body ih =>
      obtain ⟨here, inside⟩ := List.forall_mem_cons.mp inside
      rw [List.cons_append, stripped, if_neg here, ih inside]

/-- A last line that is a comment is skipped. -/
theorem stripped_lastLine {last : Bytes} (ends : LastLine last)
    : stripped .outside last = some [] := by
  rcases ends with rfl | ⟨body, rfl, inside⟩
  · rfl
  · have line : stripped .line (slash :: body) = some [] := by
      have inside : newline ∉ slash :: body := by simpa using ⟨by decide, inside⟩
      generalize slash :: body = rest at inside
      induction rest with
      | nil => rfl
      | cons c rest ih =>
          obtain ⟨here, inside⟩ := not_or.mp (mt List.mem_cons.mpr inside)
          rw [stripped, if_neg (Ne.symm here), ih inside]
    exact line

/-- A comment of several lines is skipped up to its first end. -/
theorem stripped_comment {body : Bytes} (unclosed : ¬[star, slash] <:+: body) (rest : Bytes)
    : stripped .comment (body ++ star :: slash :: rest) = stripped .outside rest := by
  induction body with
  | nil => rfl
  | cons c body ih =>
      have goesOn : ¬(c = star ∧ (body ++ star :: slash :: rest).head? = some slash) := by
        rintro ⟨rfl, head⟩
        cases body with
        | nil => exact absurd (Option.some.inj head) (by decide)
        | cons d body =>
            obtain rfl : d = slash := Option.some.inj head
            exact unclosed ⟨[], body, rfl⟩
      rw [List.cons_append, stripped, if_neg goesOn,
        ih fun closed => unclosed (closed.trans (List.suffix_cons _ _).isInfix)]

/-- Whitespace and comments are taken out. -/
theorem strips_commented {b : Bytes} (commented : Commented b) : Strips b [] := by
  induction commented with
  | nil => exact .nil
  | white isWhite _ ih =>
      exact (strips_white (List.forall_mem_singleton.mpr isWhite)).append ih
  | @line body b inside _ ih =>
      intro rest
      have starts
          : slash :: slash :: (body ++ newline :: b) ++ rest
            = slash :: slash :: (body ++ newline :: (b ++ rest)) := by simp
      have skipped := stripped_line (fun c member => (inside c member).2) (b ++ rest)
      rw [starts, ← ih rest, ← skipped]
      rfl
  | @lines body b inside unclosed _ ih =>
      intro rest
      have starts
          : slash :: star :: (body ++ star :: slash :: b) ++ rest
            = slash :: (star :: body ++ star :: slash :: (b ++ rest)) := by simp
      rw [starts, ← ih rest, ← stripped_comment unclosed (b ++ rest)]
      rfl

/-- The characters of a literal, which is left open by a piece. -/
theorem stripped_plain {t : Bytes} (plain : ∀ c ∈ t, c ≠ Json.quote ∧ c ≠ backslash) (rest : Bytes)
    : stripped .literal (t ++ rest) = (stripped .literal rest).map (t ++ ·) := by
  induction t with
  | nil => simp
  | cons c t ih =>
      obtain ⟨⟨unquoted, unescaped⟩, plain⟩ := List.forall_mem_cons.mp plain
      rw [List.cons_append, stripped, if_neg unquoted, if_neg unescaped, ih plain, Option.map_map]
      rfl

/-- The hexadecimal digits of a code unit are neither quotes nor backslashes. -/
theorem plain_codeUnit {digits : Bytes} {unit : Nat} (spelled : CodeUnit digits unit)
    : ∀ c ∈ digits, c ≠ Json.quote ∧ c ≠ backslash := by
  intro c member
  have hex := spelled.hex.2 c member
  constructor <;> rintro rfl <;> exact absurd hex (by decide)

/-- A piece of a literal is kept. -/
theorem stripped_piece {piece bytes : Bytes} (isPiece : Piece piece bytes) (rest : Bytes)
    : stripped .literal (piece ++ rest) = (stripped .literal rest).map (piece ++ ·) := by
  have escaped (c : UInt8) (rest : Bytes)
      : stripped .literal (backslash :: c :: rest)
        = (stripped .literal rest).map (backslash :: c :: ·) := by
    rw [stripped, if_neg (by decide), if_pos rfl, stripped, Option.map_map]
    rfl
  cases isPiece with
  | plain _ unquoted unescaped =>
      exact stripped_plain (List.forall_mem_singleton.mpr ⟨unquoted, unescaped⟩) rest
  | escape _ _ => exact escaped _ rest
  | @unicode digits _ spelled _ _ _ =>
      rw [List.cons_append, List.cons_append, escaped, stripped_plain (plain_codeUnit spelled),
        Option.map_map]
      rfl
  | @pair digits digits' _ _ spelled _ spelled' _ =>
      have split
          : backslash :: unicodeMark :: (digits ++ backslash :: unicodeMark :: digits') ++ rest
            = backslash :: unicodeMark
              :: (digits ++ (backslash :: unicodeMark :: (digits' ++ rest))) := by simp
      rw [split, escaped, stripped_plain (plain_codeUnit spelled), escaped,
        stripped_plain (plain_codeUnit spelled'), Option.map_map, Option.map_map, Option.map_map]
      simp [Function.comp_def]

/-- A literal is kept. -/
theorem strips_literal {raw s : Bytes} (escaped : Escaped raw s)
    : Strips (Json.quote :: (raw ++ [Json.quote])) (Json.quote :: (raw ++ [Json.quote])) := by
  have inside (rest : Bytes)
      : stripped .literal (raw ++ rest) = (stripped .literal rest).map (raw ++ ·) := by
    induction escaped generalizing rest with
    | nil => simp
    | cons first _ ih =>
        rw [List.append_assoc, stripped_piece first, ih, Option.map_map]
        simp [Function.comp_def]
  intro rest
  have split
      : Json.quote :: (raw ++ [Json.quote]) ++ rest
        = Json.quote :: (raw ++ Json.quote :: rest) := by
    simp
  have closing
      : stripped .literal (Json.quote :: rest)
        = (stripped .outside rest).map (Json.quote :: ·) := rfl
  have opening : stripped .outside (Json.quote :: (raw ++ Json.quote :: rest))
      = (stripped .literal (raw ++ Json.quote :: rest)).map (Json.quote :: ·) := rfl
  rw [split, opening, inside, closing, Option.map_map, Option.map_map]
  simp [Function.comp_def]

/-- Digits are copied. -/
theorem copied_digits {digits : Bytes} (isDigits : ∀ c ∈ digits, isDigit c)
    : ∀ c ∈ digits, Copied c := by
  intro c member
  have digit := isDigits c member
  refine ⟨fun white => ?_, ?_, ?_⟩
  · simp only [isWhitespace, Bool.or_eq_true, beq_iff_eq, or_assoc] at white
    rcases white with rfl | rfl | rfl | rfl <;> exact absurd digit (by decide)
  · rintro rfl
    exact absurd digit (by decide)
  · rintro rfl
    exact absurd digit (by decide)

/-- A number is kept. -/
theorem strips_numeral (n : Numeral) : Strips n.text n.text := by
  refine strips_copied ?_
  have exponent : ∀ c ∈ n.exponentText, Copied c := by
    rw [Numeral.exponentText]
    cases n.exponent with
    | none => simp
    | some e =>
        refine List.forall_mem_cons.mpr ⟨by split <;> decide, List.forall_mem_append.mpr ⟨?_, ?_⟩⟩
        · rcases e.sign with _ | _ | _ <;> decide
        · exact copied_digits e.isDigits
  have fraction : ∀ c ∈ n.fractionText, Copied c := by
    rw [Numeral.fractionText]
    split
    next => simp
    next => exact List.forall_mem_cons.mpr ⟨by decide, copied_digits n.isFraction⟩
  rw [Numeral.text]
  simp only [List.forall_mem_append]
  refine ⟨?_, ?_, copied_digits n.isDigits, fraction, exponent⟩ <;> split <;> decide

section Values

variable {F : Type} [CDouble F]

/-- A text without anything between its tokens. -/
abbrev Compact (phrase : Phrase F) (t : Bytes) : Prop := Spells (· = []) SpellsNumber phrase t

/-- What is left of a text is compact and spells what it spelled. -/
theorem strips_spelled {phrase : Phrase F} {t : Bytes}
    (text : Spells Commented SpellsNumber phrase t)
    : ∃ t', Compact phrase t' ∧ Strips t t' := by
  refine text.translate (fun _ _ _ _ => Strips.append) (fun c member => strips_copied ?_)
    (fun w member => strips_copied ?_) (fun _ _ => strips_literal)
    (fun b commented => show ∃ b', b' = [] ∧ Strips b b' from
      ⟨[], rfl, strips_commented commented⟩) (fun n t spelled => ?_)
  · have tokens : ∀ c ∈ keyword "[]\x7b\x7d,:", Copied c := by decide
    exact List.forall_mem_singleton.mpr (tokens c member)
  · have words : ∀ w ∈ ["null", "true", "false"], ∀ c ∈ keyword w, Copied c := by decide
    exact words w member
  · have kept : Strips t t := by
      obtain ⟨numeral, rfl, -⟩ := spelled
      exact strips_numeral numeral
    exact (⟨t, spelled, kept⟩ : ∃ t', SpellsNumber n t' ∧ Strips t t')

/-- A compact text is one of the parser. -/
theorem Compact.text {phrase : Phrase F} {t : Bytes} (compact : Compact phrase t)
    : Text phrase t := by
  obtain ⟨t', text, same⟩ :=
    compact.translate (R := Eq) (fun t t' u u' same same' => by rw [same, same']) (fun _ _ => rfl)
      (fun _ _ => rfl) (fun _ _ _ => rfl)
      (fun b none => show ∃ b', Blank b' ∧ b = b' from ⟨b, by simp [none, Blank], rfl⟩)
      (fun n t spelled => show ∃ t', SpellsNumber n t' ∧ t = t' from ⟨t, spelled, rfl⟩)
  exact same ▸ text

/-- A short text with comments is cut down in place to a compact one, which the parser then reads as
the value that the text spelled.
-/
theorem parse_cJSONMinify [Supply] (supplied : Supplied (2 ^ 31)) (s : CString)
    (short : s.val.length < 2 ^ 31) {t last : Bytes} (split : s.val = t ++ last)
    (ends : LastLine last) {j : Json F} (text : Spells Commented SpellsNumber (.element j) t)
    (behind : Bytes)
    : ∃ out : CString,
        ∃ tail item,
          cJSONMinify (s.val ++ 0 :: behind) = .ok (out.val ++ 0 :: tail)
          ∧ tail = (s.val ++ 0 :: behind).drop (out.val.length + 1)
          ∧ Compact (.value j) out.val
          ∧ cJSONParseWithOpts (out.val ++ 0 :: tail) true = .ok (item, 0 :: tail)
          ∧ item.value = some j := by
  obtain ⟨out, compact, strips⟩ := strips_spelled text
  have kept : stripped .outside s.val = some out := by
    rw [split, strips, stripped_lastLine ends, Option.map_some, List.append_nil]
  have sublist := sublist_of_stripped kept
  have nulFree : ∀ c ∈ out, c ≠ 0 := fun c member => s.property c (sublist.subset member)
  have shorter : out.length < 2 ^ 31 := Nat.lt_of_le_of_lt sublist.length_le short
  obtain ⟨item, accepted, value⟩ := cJSONParseWithOpts_element supplied compact.text shorter
    ((s.val ++ 0 :: behind).drop (out.length + 1))
  have inside : Compact (.value j) out := by
    cases compact with
    | element before value behind =>
        rw [before, behind, List.nil_append, List.append_nil]
        exact value
  exact ⟨⟨out, nulFree⟩, _, item, cJSONMinify_eq s behind kept, rfl, inside, accepted, value⟩

end Values

/-- A text with comments around an array that has none. -/
theorem parse_cJSONMinify_comments
    : ∃ out : CString,
        ∃ tail item,
          cJSONMinify (word "/*c*/[ ]//d" ++ [0]) = .ok (out.val ++ 0 :: tail)
          ∧ tail = (word "/*c*/[ ]//d" ++ [0]).drop (out.val.length + 1)
          ∧ Compact (.value (.array [] : Json ℚ)) out.val
          ∧ @cJSONParseWithOpts .unlimited ℚ _ (out.val ++ 0 :: tail) true = .ok (item, 0 :: tail)
          ∧ item.value = some (.array [] : Json ℚ) :=
  have space : Commented (word " ") := .white rfl .nil
  have before : Commented (word "/*c*/") :=
    @Commented.lines ['c'.toUInt8] [] (by decide) (by decide) .nil
  @parse_cJSONMinify ℚ _ .unlimited (supplied_unlimited _) ⟨word "/*c*/[ ]//d", by decide⟩
    (by decide) (word "/*c*/[ ]") (word "//d") rfl (.inr ⟨['d'.toUInt8], rfl, by decide⟩) _
    (.element before (.emptyArray space) .nil) []

section Printed

/-- What is only written if the output is formatted is taken out. -/
theorem strips_formatted {b : Bytes} (white : ∀ c ∈ b, isWhitespace c)
    : Strips (formatted true b) [] :=
  strips_white white

/-- The tabs in front of a line are whitespace. -/
theorem white_tabs (depth : Nat) : ∀ c ∈ tabs depth, isWhitespace c := by
  intro c member
  rw [List.eq_of_mem_replicate member]
  decide

/-- The formatted elements of an array are stripped to the unformatted ones. -/
theorem strips_arrayBody {entries entries' : List Bytes}
    (strips : List.Forall₂ Strips entries entries')
    : Strips (arrayBody true entries) (arrayBody false entries') := by
  induction strips with
  | nil => exact .nil
  | @cons text text' entries entries' first rest ih =>
      cases rest with
      | nil => exact first
      | cons second rest =>
          have comma : Strips [','.toUInt8] [','.toUInt8] := strips_copied (by decide)
          have space := @strips_formatted [' '.toUInt8] (by decide)
          exact first.append (comma.append (space.append ih))

/-- A formatted array is stripped to the unformatted one. -/
theorem strips_arrayText {entries entries' : List Bytes}
    (strips : List.Forall₂ Strips entries entries')
    : Strips (arrayText true entries) (arrayText false entries') := by
  have opening : Strips ['['.toUInt8] ['['.toUInt8] := strips_copied (by decide)
  have closing : Strips [']'.toUInt8] [']'.toUInt8] := strips_copied (by decide)
  exact opening.append ((strips_arrayBody strips).append closing)

/-- A member is stripped to another. -/
def MemberStrips (entry entry' : Bytes × Bytes) : Prop :=
  Strips entry.1 entry'.1 ∧ Strips entry.2 entry'.2

/-- The formatted members of an object are stripped to the unformatted ones. -/
theorem strips_objectBody {entries entries' : List (Bytes × Bytes)}
    (strips : List.Forall₂ MemberStrips entries entries') (depth depth' : Nat)
    : Strips (objectBody true depth entries) (objectBody false depth' entries') := by
  induction strips with
  | nil => exact .nil
  | @cons entry entry' entries entries' first rest ih =>
      have colon : Strips [':'.toUInt8] [':'.toUInt8] := strips_copied (by decide)
      have comma
          : Strips (if entries.isEmpty then [] else [','.toUInt8])
              (if entries'.isEmpty then [] else [','.toUInt8]) := by
        cases rest with
        | nil => exact .nil
        | cons _ _ => exact strips_copied (List.forall_mem_singleton.mpr (by decide))
      exact (strips_formatted (white_tabs depth)).append
        (first.1.append
          (colon.append
            ((strips_formatted (by decide)).append
              (first.2.append (comma.append ((strips_formatted (by decide)).append ih))))))

/-- A formatted object is stripped to the unformatted one. -/
theorem strips_objectText {entries entries' : List (Bytes × Bytes)}
    (strips : List.Forall₂ MemberStrips entries entries') (depth depth' : Nat)
    : Strips (objectText true depth entries) (objectText false depth' entries') := by
  have opening : Strips ['\x7b'.toUInt8] ['\x7b'.toUInt8] := strips_copied (by decide)
  have closing : Strips ['\x7d'.toUInt8] ['\x7d'.toUInt8] := strips_copied (by decide)
  have body := strips_objectBody strips (depth + 1) (depth' + 1)
  exact opening.append
    ((strips_formatted (by decide)).append
      (body.append ((strips_formatted (white_tabs depth)).append closing)))

/-- The text of a string is kept. -/
theorem strips_string (str : Option CString)
    : Strips (printStringPtr str).text (printStringPtr str).text := by
  obtain ⟨raw, literal, escaped⟩ := text_printStringPtr str
  rw [literal]
  exact strips_literal escaped

variable {F : Type} [CDouble F] [ExactIntegers F]

/-- The formatted text of an item is stripped to the unformatted one. -/
theorem strips_fields {fields : Fields F} (whole : WholeNumber fields)
    {entries entries' : List (Bytes × Bytes)} (below : List.Forall₂ MemberStrips entries entries')
    (depth depth' : Nat)
    : Strips (fields.text true depth entries) (fields.text false depth' entries') := by
  rw [Fields.text, Fields.text]
  cases type : fields.type with
  | unset => exact .nil
  | null => exact @strips_copied (word "null") (by decide)
  | false => exact @strips_copied (word "false") (by decide)
  | true => exact @strips_copied (word "true") (by decide)
  | number =>
      simp only
      rw [(printNumber_eq whole type).1, ← text_intNumeral]
      exact strips_numeral _
  | string => exact strips_string _
  | array =>
      refine strips_arrayText ?_
      rw [List.forall₂_map_left_iff, List.forall₂_map_right_iff]
      exact below.imp fun _ _ h => h.2
  | object => exact strips_objectText below depth depth'

/-- The formatted texts of the items of a chain are stripped to the unformatted ones. -/
theorem strips_texts {chain : Item F} (whole : WholeNumbers chain) (parent : ItemType)
    (depth depth' : Nat)
    : List.Forall₂ MemberStrips (chain.texts true parent depth)
        (chain.texts false parent depth') := by
  induction chain generalizing parent depth depth' with
  | null => exact .nil
  | node fields child next ih ih' =>
      obtain ⟨number, below, behind⟩ := whole
      have name : Strips (nameText parent fields.string) (nameText parent fields.string) := by
        rw [nameText]
        split
        · exact strips_string _
        · exact .nil
      exact .cons ⟨name, strips_fields number (ih below _ _ _) depth depth'⟩
        (ih' behind parent depth depth')

/-- The formatted text of an item, if it is not too long, is cut down in place to the unformatted
one.
-/
theorem cJSONMinify_cJSONPrint [Supply] (supplied : Supplied (2 ^ 33)) {item : Item F}
    (whole : WholeNumbers item) {j : Json F} (known : item.value = some j)
    (short : (item.text true 0).length + 64 ≤ 2 ^ 30) (behind : Bytes)
    : ∃ text compact,
        cJSONPrint item = .ok (some text)
        ∧ cJSONPrintUnformatted item = .ok (some compact)
        ∧ cJSONMinify (text ++ 0 :: behind)
          = .ok (compact ++ 0 :: (text ++ 0 :: behind).drop (compact.length + 1)) := by
  have strips : Strips (item.text true 0) (item.text false 0) := by
    cases item with
    | null => exact .nil
    | node fields child next =>
        obtain ⟨number, below, -⟩ := whole
        exact strips_fields number (strips_texts below _ _ _) 0 0
  have kept : stripped .outside (item.text true 0) = some (item.text false 0) := by
    have all := strips []
    simpa [stripped] using all
  have shorter := (sublist_of_stripped kept).length_le
  have printed := delivers_printValue true 0 whole.fit known short
  have printed' := delivers_printValue false 0 whole.fit known (by omega)
  exact ⟨_, _, printed.supplied supplied, printed'.supplied supplied,
    cJSONMinify_eq ⟨item.text true 0, nulFree_text true 0 whole known⟩ behind kept⟩

/-- The formatted text of an object, in memory of its size. -/
theorem cJSONMinify_cJSONPrint_sample
    : ∃ text compact,
        @cJSONPrint ℚ _ .unlimited sample = .ok (some text)
        ∧ @cJSONPrintUnformatted ℚ _ .unlimited sample = .ok (some compact)
        ∧ cJSONMinify (text ++ [0])
          = .ok (compact ++ 0 :: (text ++ [0]).drop (compact.length + 1)) :=
  @cJSONMinify_cJSONPrint ℚ _ _ .unlimited (supplied_unlimited _) sample wholeNumbers_sample _ rfl
    (by decide +kernel) []

end Printed

end Cvos.LibJson

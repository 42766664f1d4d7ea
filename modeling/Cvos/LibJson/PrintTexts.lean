import Cvos.LibJson.NumberValues
import Cvos.LibJson.ParseTexts
import Cvos.LibJson.Print

/-! The text that cJSON lays out for an item, formatted or not, apart from the memory that it is
written to. It spells the value of the item.
-/

namespace Cvos.LibJson

open Cvos.Lib Json

section Layout

variable {F : Type} [CDouble F]

/-- The text of an item, from the names and texts of the items below it. -/
def Fields.text (fmt : Bool) (depth : Nat) (fields : Fields F) (entries : List (Bytes × Bytes))
    : Bytes :=
  match fields.type with
  | .unset => []
  | .null => word "null"
  | .false => word "false"
  | .true => word "true"
  | .number => (printNumber fields).text
  | .string => (printStringPtr fields.valuestring).text
  | .array => arrayText fmt (entries.map Prod.snd)
  | .object => objectText fmt depth entries

/-- The name in front of a value, which an element does not have. -/
def nameText (parent : ItemType) (string : Option CString) : Bytes :=
  if parent = .object then (printStringPtr string).text else []

/-- The names and texts of the items of a chain. -/
def Item.texts (fmt : Bool) : ItemType → Nat → Item F → List (Bytes × Bytes)
  | _, _, .null => []
  | parent, depth, .node fields child next =>
      (nameText parent fields.string,
        fields.text fmt depth (child.texts fmt fields.type (depth + 1)))
        :: next.texts fmt parent depth

/-- The text of the item at a pointer. -/
def Item.text (fmt : Bool) (depth : Nat) : Item F → Bytes
  | .null => []
  | .node fields child _ => fields.text fmt depth (child.texts fmt fields.type (depth + 1))

end Layout

section Strings

/-- The digits of a byte under the format `%04x`. -/
theorem codeUnit_hex04 (c : UInt8)
    : CodeUnit ['0'.toUInt8, '0'.toUInt8, hexDigit (c.toNat / 16), hexDigit (c.toNat % 16)]
        c.toNat := by
  have digit : ∀ d < 16, hexValue (hexDigit d) = some d := by decide
  have bound := c.toNat_lt
  have zero : hexValue '0'.toUInt8 = some 0 := rfl
  have unit := CodeUnit.digits zero zero (digit (c.toNat / 16) (by omega))
    (digit (c.toNat % 16) (Nat.mod_lt _ (by decide)))
  convert unit using 1
  omega

/-- An ASCII character is encoded as itself. -/
theorem utf8_ascii {c : UInt8} (small : c.toNat < 0x80) : utf8 c.toNat = [c] := by
  have scalar : c.toNat.isValidChar := .inl (by omega)
  have point : (Char.ofNat c.toNat).val.toNat = c.toNat := by
    rw [Char.ofNat, dif_pos scalar]
    rfl
  rw [utf8, String.utf8EncodeChar, point, if_pos (by omega), UInt8.ofNat_toNat]

/-- A letter stands for the character that it escapes. -/
theorem unescape_letter {c letter : UInt8} (escaped : escapeLetter c = some letter)
    : unescape letter = c ∧ letter ≠ 0 ∧ letter ≠ unicodeMark := by
  rw [escapeLetter] at escaped
  split_ifs at escaped with h1 h2 h3 h4 h5 h6 h7
  all_goals
    obtain rfl := Option.some.inj escaped
    subst_vars
    decide

/-- A special character without a letter is a control character. -/
theorem control_of_special {c : UInt8} (special : ¬(31 < c ∧ c ≠ Json.quote ∧ c ≠ backslash))
    (unlettered : escapeLetter c = none)
    : c.toNat ≤ 31 := by
  have other : c ≠ Json.quote ∧ c ≠ backslash := by
    refine ⟨?_, ?_⟩ <;>
    · rintro rfl
      exact absurd unlettered (by decide)
  have small : ¬31 < c := fun above => special ⟨above, other⟩
  simpa [UInt8.lt_iff_toNat_lt] using small

/-- A character is written as a piece that stands for it. -/
theorem piece_escapeCharacter {c : UInt8} (nonzero : c ≠ 0) : Piece (escapeCharacter c) [c] := by
  rw [escapeCharacter]
  split
  next plain => exact .plain nonzero plain.2.1 plain.2.2
  next special =>
    cases letter : escapeLetter c with
    | some l =>
        obtain ⟨same, filled, other⟩ := unescape_letter letter
        have piece := Piece.escape filled other
        rw [same] at piece
        exact piece
    | none =>
        have low := control_of_special special letter
        have filled : c.toNat ≠ 0 := fun zero => nonzero (UInt8.toNat_inj.mp zero)
        have piece := Piece.unicode (codeUnit_hex04 c) filled
          (by rw [HighSurrogate]; omega) (by rw [LowSurrogate]; omega)
        rw [utf8_ascii (by omega)] at piece
        exact piece

/-- Characters are written as text that stands for them. -/
theorem escaped_flatMap {s : Bytes} (nulFree : ∀ c ∈ s, c ≠ 0)
    : Escaped (s.flatMap escapeCharacter) s := by
  induction s with
  | nil => exact .nil
  | cons c s ih =>
      obtain ⟨here, rest⟩ := List.forall_mem_cons.mp nulFree
      exact .cons (piece_escapeCharacter here) (ih rest)

/-- Characters that are not special stand for themselves. -/
theorem escaped_plain {s : Bytes} (nulFree : ∀ c ∈ s, c ≠ 0) (plain : s.any isSpecial = false)
    : Escaped s s := by
  induction s with
  | nil => exact .nil
  | cons c s ih =>
      obtain ⟨here, rest⟩ := List.forall_mem_cons.mp nulFree
      rw [List.any_cons, Bool.or_eq_false_iff] at plain
      obtain ⟨ordinary, plain⟩ := plain
      simp only [isSpecial, Bool.or_eq_false_iff, beq_eq_false_iff_ne] at ordinary
      exact .cons (.plain here ordinary.1.2 ordinary.2) (ih rest plain)

/-- A string is laid out between quotes. -/
theorem text_printStringPtr (str : Option CString)
    : ∃ raw,
        (printStringPtr str).text = Json.quote :: (raw ++ [Json.quote])
        ∧ Escaped raw (orEmpty str).val := by
  cases str with
  | none => exact ⟨[], rfl, .nil⟩
  | some str =>
      rw [printStringPtr]
      split
      next => exact ⟨_, rfl, escaped_flatMap str.property⟩
      next plain => exact ⟨_, rfl, escaped_plain str.property (by simpa using plain)⟩

end Strings

/-- A printed number has a digit. -/
theorem decimal_ne_nil (n : Nat) : decimal n ≠ [] := by
  rw [decimal_eq]
  split
  · simp
  · simp

/-- A printed number does not start with a zero, unless it is zero. -/
theorem head_decimal {n : Nat} (positive : 0 < n) : (decimal n).head? ≠ some (digitByte 0) := by
  induction n using Nat.strongRecOn with
  | ind n ih =>
      have all : ∀ d < 10, 0 < d → digitByte d ≠ digitByte 0 := by decide
      rw [decimal_eq]
      split
      next small => simpa using all n small positive
      next large =>
        have front := ih (n / 10) (by omega) (by omega)
        rwa [List.head?_append_of_ne_nil _ (decimal_ne_nil _)]

section Numbers

variable {F : Type} [CDouble F] [ExactIntegers F]

/-- The item is no number, or one that is an `int`. -/
def WholeNumber (fields : Fields F) : Prop :=
  fields.type = .number
  → fields.valuedouble = CDouble.ofInt fields.valueint
    ∧ -2 ^ 31 ≤ fields.valueint
    ∧ fields.valueint < 2 ^ 31

/-- All numbers of a chain are `int`s. -/
def WholeNumbers : Item F → Prop
  | .null => True
  | .node fields child next => WholeNumber fields ∧ WholeNumbers child ∧ WholeNumbers next

/-- A number as the parts of its text. -/
def intNumeral (z : Int) : Numeral where
  negative := decide (z < 0)
  zero := decide (z = 0)
  digits := if z = 0 then [] else decimal z.natAbs
  fraction := []
  exponent := none
  isDigits := by
    split
    · simp
    · exact isDigit_decimal z.natAbs
  isFraction := by simp
  leading := by
    split
    next => simp
    next nonzero => exact head_decimal (by omega)
  starts := by
    by_cases zero : z = 0
    · exact .inr (.inl (by simp [zero]))
    · exact .inr (.inr (by rw [if_neg zero]; exact decimal_ne_nil _))

omit [CDouble F] [ExactIntegers F] in
/-- The parts make the text of the number. -/
theorem text_intNumeral (z : Int) : (intNumeral z).text = decimalInt z := by
  have none : (intNumeral z).fractionText ++ (intNumeral z).exponentText = [] := rfl
  rw [Numeral.text, none, List.append_nil, decimalInt]
  by_cases zero : z = 0
  · subst zero
    rfl
  · by_cases negative : z < 0
    · simp [intNumeral, zero, negative]
    · simp [intNumeral, zero, negative]

omit [CDouble F] [ExactIntegers F] in
/-- The parts are those of the number. -/
theorem integer_intNumeral (z : Int)
    : digitsValue (intNumeral z).digits = z.natAbs ∧ (intNumeral z).integer = z := by
  have digits : digitsValue (intNumeral z).digits = z.natAbs := by
    by_cases zero : z = 0
    · simp [intNumeral, zero, digitsValue]
    · simp [intNumeral, zero, digitsValue_decimal]
  refine ⟨digits, ?_⟩
  rw [Numeral.integer, digits]
  change (if decide (z < 0) = true then _ else _) = z
  split
  next negative =>
    rw [decide_eq_true_eq] at negative
    omega
  next positive =>
    rw [decide_eq_true_eq] at positive
    omega

/-- The text of an `int` spells it. -/
theorem spellsNumber_decimalInt {z : Int} (low : -2 ^ 31 ≤ z) (high : z < 2 ^ 31)
    : SpellsNumber (CDouble.ofInt z : F) (decimalInt z) := by
  obtain ⟨digits, integer⟩ := integer_intNumeral z
  have value := @Numeral.value_integer F _ _ (intNumeral z) ⟨rfl, rfl⟩ (by omega)
    fun negative => by
      have below : z < 0 := of_decide_eq_true negative
      omega
  rw [integer] at value
  exact ⟨intNumeral z, (text_intNumeral z).symm, value.symm⟩

/-- A number that is an `int` is printed as it, in memory for as many characters. -/
theorem printNumber_eq {item : Fields F} (whole : WholeNumber item) (type : item.type = .number)
    : (printNumber item).text = decimalInt item.valueint
      ∧ (printNumber item).text.length < (printNumber item).needed := by
  obtain ⟨same, low, high⟩ := whole type
  have exact {z : Int} (low : -2 ^ 31 ≤ z) (high : z ≤ 2 ^ 31) : ExactInt z := by
    rw [ExactInt]
    omega
  have zero := exact (z := 0) (by decide) (by decide)
  rw [printNumber, same]
  by_cases isZero : item.valueint = 0
  · have equal : CDouble.eq (CDouble.ofInt item.valueint : F) (CDouble.ofInt 0) = true := by
      rw [ExactIntegers.eq_ofInt (exact low high.le) zero, isZero]
      rfl
    rw [if_pos equal, isZero]
    exact ⟨rfl, by decide⟩
  · have other : ¬CDouble.eq (CDouble.ofInt item.valueint : F) (CDouble.ofInt 0) = true := by
      rw [ExactIntegers.eq_ofInt (exact low high.le) zero]
      simpa using isZero
    have inRange
        : CDouble.le
            (CDouble.fabs
              (CDouble.sub (CDouble.ofInt item.valueint) (CDouble.ofInt item.valueint : F)))
            CDouble.epsilon
          ∧ CDouble.le (CDouble.ofInt item.valueint : F) (CDouble.ofInt (2 ^ 31 - 1))
          ∧ CDouble.le (CDouble.ofInt (-2 ^ 31)) (CDouble.ofInt item.valueint : F) := by
      have number := exact low high.le
      rw [ExactIntegers.sub_ofInt number number (by rw [sub_self]; exact zero), sub_self,
        ExactIntegers.fabs_ofInt zero, ExactIntegers.le_ofInt number (by decide),
        ExactIntegers.le_ofInt (by decide) number]
      refine ⟨ExactIntegers.zero_le_epsilon, ?_, ?_⟩
      · simpa using Int.le_sub_one_of_lt high
      · simpa using low
    rw [if_neg other, if_pos inRange]
    have short := (length_decimalInt_le_iff (z := item.valueint) (k := 19) (by decide)).mpr
      (by omega)
    have fits : ((decimalInt item.valueint).length : Int) < 21 := by omega
    exact ⟨rfl, fits⟩

end Numbers

section Values

variable {F : Type} [CDouble F]

/-- What is only written if the output is formatted is blank. -/
theorem blank_formatted (fmt : Bool) {b : Bytes} (blank : Blank b) : Blank (formatted fmt b) := by
  cases fmt with
  | true => exact blank
  | false => simp [formatted, Blank]

/-- Tabs are blank. -/
theorem blank_tabs (depth : Nat) : Blank (tabs depth) := by
  intro c member
  rw [tabs, List.mem_replicate] at member
  obtain ⟨-, rfl⟩ := member
  decide

/-- Blanks behind blanks are blank. -/
theorem blank_append {b b' : Bytes} (blank : Blank b) (blank' : Blank b') : Blank (b ++ b') :=
  List.forall_mem_append.mpr ⟨blank, blank'⟩

/-- The elements of an array are spelled, behind blanks. -/
theorem text_arrayBody (fmt : Bool) {entries : List Bytes} {js : List (Json F)}
    (texts : List.Forall₂ (fun t j => Text (.value j) t) entries js) (filled : entries ≠ [])
    {b : Bytes} (blank : Blank b)
    : Text (.elements js) (b ++ arrayBody fmt entries) := by
  have none : Blank [] := by simp [Blank]
  induction texts generalizing b with
  | nil => exact absurd rfl filled
  | @cons t j entries js first rest ih =>
      have element := Spells.element blank first none
      rw [List.append_nil] at element
      cases entries with
      | nil =>
          cases rest
          exact .lastElement element
      | cons t' entries =>
          have space : Blank (formatted fmt [' '.toUInt8]) := blank_formatted fmt (by decide)
          have more := ih (by simp) space
          rw [arrayBody, ← List.append_assoc]
          · exact .elements element more
          · simp

/-- The members of an object are spelled, between blanks. -/
theorem text_objectBody (fmt : Bool) (depth : Nat) {entries : List (Bytes × Bytes)}
    {ms : List (CString × Json F)}
    (texts : List.Forall₂
      (fun entry m =>
        (∃ raw, entry.1 = Json.quote :: (raw ++ [Json.quote]) ∧ Escaped raw m.1.val)
        ∧ Text (.value m.2) entry.2)
      entries ms)
    (filled : entries ≠ []) {b b' : Bytes} (blank : Blank b) (blank' : Blank b')
    : Text (.members ms) (b ++ (objectBody fmt depth entries ++ b')) := by
  have none : Blank [] := by simp [Blank]
  have tab : Blank (formatted fmt ['\t'.toUInt8]) := blank_formatted fmt (by decide)
  have line : Blank (formatted fmt ['\n'.toUInt8]) := blank_formatted fmt (by decide)
  have front : Blank (b ++ formatted fmt (tabs depth)) :=
    blank_append blank (blank_formatted fmt (blank_tabs depth))
  induction texts generalizing b with
  | nil => exact absurd rfl filled
  | @cons entry m entries ms first rest ih =>
      obtain ⟨name, t⟩ := entry
      obtain ⟨s, j⟩ := m
      obtain ⟨⟨raw, rfl, escaped⟩, text⟩ := first
      cases entries with
      | nil =>
          cases rest
          have element := Spells.element tab text (blank_append line blank')
          have member := Spells.member front escaped none element
          refine .lastMember ?_
          simpa [objectBody] using member
      | cons entry entries =>
          have more := ih (by simp) line
            (blank_append line (blank_formatted fmt (blank_tabs depth)))
          have element := Spells.element tab text none
          have member := Spells.member front escaped none element
          have whole := Spells.members member more
          simpa [objectBody] using whole

/-- The text of an array spells it. -/
theorem text_arrayText (fmt : Bool) {entries : List Bytes} {js : List (Json F)}
    (texts : List.Forall₂ (fun t j => Text (.value j) t) entries js)
    : Text (.value (.array js)) (arrayText fmt entries) := by
  cases entries with
  | nil =>
      cases texts
      exact .emptyArray (show Blank [] by simp [Blank])
  | cons t entries =>
      exact .array (text_arrayBody fmt texts (by simp) (show Blank [] by simp [Blank]))

/-- The text of an object spells it. -/
theorem text_objectText (fmt : Bool) (depth : Nat) {entries : List (Bytes × Bytes)}
    {ms : List (CString × Json F)}
    (texts : List.Forall₂
      (fun entry m =>
        (∃ raw, entry.1 = Json.quote :: (raw ++ [Json.quote]) ∧ Escaped raw m.1.val)
        ∧ Text (.value m.2) entry.2)
      entries ms)
    : Text (.value (.object ms)) (objectText fmt depth entries) := by
  have line : Blank (formatted fmt ['\n'.toUInt8]) := blank_formatted fmt (by decide)
  have front : Blank (formatted fmt (tabs depth)) := blank_formatted fmt (blank_tabs depth)
  cases entries with
  | nil =>
      cases texts
      have empty : Text (.value (.object []) : Phrase F) _ := .emptyObject (blank_append line front)
      simpa [objectText, objectBody] using empty
  | cons entry entries =>
      have whole := Spells.object (text_objectBody fmt (depth + 1) texts (by simp) line front)
      simpa [objectText] using whole

/-- What is laid out for some items, with their names if they are members of an object. -/
def TextsOf (parent : ItemType) (entries : List (Bytes × Bytes))
    (values : List (Option CString × Json F))
    : Prop :=
  List.Forall₂ (fun entry v => entry.1 = nameText parent v.1 ∧ Text (.value v.2) entry.2) entries
    values

/-- The texts of elements are those of their values. -/
theorem TextsOf.elements {parent : ItemType} {entries : List (Bytes × Bytes)}
    {values : List (Option CString × Json F)} (texts : TextsOf parent entries values)
    : List.Forall₂ (fun t j => Text (.value j) t) (entries.map Prod.snd) (values.map Prod.snd) := by
  induction texts with
  | nil => exact .nil
  | cons first _ ih => exact .cons first.2 ih

/-- The texts of members are those of their names and values. -/
theorem TextsOf.members {entries : List (Bytes × Bytes)} {values : List (Option CString × Json F)}
    (texts : TextsOf .object entries values)
    : List.Forall₂
        (fun entry (m : CString × Json F) =>
          (∃ raw, entry.1 = Json.quote :: (raw ++ [Json.quote]) ∧ Escaped raw m.1.val)
          ∧ Text (.value m.2) entry.2)
        entries (values.map fun child => (orEmpty child.1, child.2)) := by
  induction texts with
  | nil => exact .nil
  | cons first _ ih =>
      obtain ⟨name, text⟩ := first
      rw [nameText, if_pos rfl] at name
      exact .cons ⟨name ▸ text_printStringPtr _, text⟩ ih

variable [ExactIntegers F]

/-- The text of an item spells its value. -/
theorem spells_fields (fmt : Bool) (depth : Nat) {fields : Fields F} (whole : WholeNumber fields)
    {children : Option (List (Option CString × Json F))} {entries : List (Bytes × Bytes)}
    (below : ∀ values, children = some values → TextsOf fields.type entries values) {j : Json F}
    (known : fields.value children = some j)
    : Text (.value j) (fields.text fmt depth entries) := by
  rw [Fields.value] at known
  rw [Fields.text]
  cases type : fields.type with
  | unset => simp [type] at known
  | false =>
      obtain rfl := by simpa [type] using known
      exact .false
  | true =>
      obtain rfl := by simpa [type] using known
      exact .true
  | null =>
      obtain rfl := by simpa [type] using known
      exact .null
  | number =>
      obtain rfl := by simpa [type] using known
      obtain ⟨same, low, high⟩ := whole type
      have spelled := spellsNumber_decimalInt (F := F) low high
      rw [← same, ← (printNumber_eq whole type).1] at spelled
      exact .number spelled
  | string =>
      obtain rfl := by simpa [type] using known
      obtain ⟨raw, same, escaped⟩ := text_printStringPtr fields.valuestring
      simp only [same]
      exact .string escaped
  | array =>
      obtain ⟨values, rfl, rfl⟩ := Option.map_eq_some_iff.mp (by simpa [type] using known)
      exact text_arrayText fmt (below values rfl).elements
  | object =>
      obtain ⟨values, rfl, rfl⟩ := Option.map_eq_some_iff.mp (by simpa [type] using known)
      rw [type] at below
      exact text_objectText fmt depth (below values rfl).members

/-- The texts of the items of a chain spell their values. -/
theorem textsOf_texts (fmt : Bool) (parent : ItemType) (depth : Nat) {chain : Item F}
    (whole : WholeNumbers chain) {values : List (Option CString × Json F)}
    (known : chain.values = some values)
    : TextsOf parent (chain.texts fmt parent depth) values := by
  induction chain generalizing parent depth values with
  | null =>
      obtain rfl := by simpa [Item.values] using known
      exact .nil
  | node fields child next ih ih' =>
      obtain ⟨number, below, behind⟩ := whole
      rw [Item.values] at known
      obtain ⟨j, value, known⟩ := Option.bind_eq_some_iff.mp known
      obtain ⟨rest, others, known⟩ := Option.bind_eq_some_iff.mp known
      obtain rfl := Option.some.inj known
      exact .cons
        ⟨rfl, spells_fields fmt depth number (fun _ known => ih _ (depth + 1) below known) value⟩
        (ih' parent depth behind others)

/-- What is laid out for an item spells its value. -/
theorem spells_text (fmt : Bool) (depth : Nat) {item : Item F} (whole : WholeNumbers item)
    {j : Json F} (known : item.value = some j)
    : Text (.value j) (item.text fmt depth) := by
  cases item with
  | null => simp [Item.value] at known
  | node fields child next =>
      obtain ⟨number, below, -⟩ := whole
      exact spells_fields fmt depth number
        (fun _ known => textsOf_texts fmt _ (depth + 1) below known) known

/-- It has no NUL. -/
theorem nulFree_text (fmt : Bool) (depth : Nat) {item : Item F} (whole : WholeNumbers item)
    {j : Json F} (known : item.value = some j)
    : ∀ c ∈ item.text fmt depth, c ≠ 0 :=
  (spells_text fmt depth whole known).nulFree (fun _ blank c member => (blank c member).1)
    fun _ _ => SpellsNumber.nulFree

end Values

end Cvos.LibJson

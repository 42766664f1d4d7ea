import Cvos.LibJson.NumberText
import Cvos.LibJson.StringText

/-! Every text that spells a JSON value is read by cJSON as an item of this value, up to the
delimiter behind it.
-/

namespace Cvos.LibJson

open Cvos.Lib Json

variable {F : Type} [CDouble F]

/-- The texts of a part of a JSON text, with the numbers that `parse_number` reads. -/
abbrev Text (phrase : Phrase F) (t : Bytes) : Prop := Spells Blank SpellsNumber phrase t

/-- An item with what hangs below it has a value. -/
def Means (child : Fields F × Item F) (j : Json F) : Prop := child.1.value child.2.values = some j

/-- A member of an object has a name and a value. -/
def MeansMember (child : Fields F × Item F) (m : CString × Json F) : Prop :=
  child.1.string = some m.1 ∧ Means child m.2

/-- The character is not skipped. -/
def Solid (c : UInt8) : Prop := ¬(c ≠ 0 ∧ c ≤ 32)

instance (c : UInt8) : Decidable (Solid c) :=
  inferInstanceAs (Decidable (¬_))

/-- Blanks are skipped up to another character. -/
theorem skip_append {b : Bytes} (blank : Blank b) {c : UInt8} (solid : Solid c) (rest : Bytes)
    : skip (b ++ c :: rest) = .ok (c :: rest) := by
  induction b with
  | nil => rw [List.nil_append, skip, if_neg solid]
  | cons d b ih =>
      obtain ⟨here, blank⟩ := List.forall_mem_cons.mp blank
      rw [List.cons_append, skip, if_pos here, ih blank]

/-- A terminated text is skipped up to a character, which may be its terminator. -/
theorem skip_cases {value : Bytes} (terminated : Terminated value)
    : ∃ b c rest,
        value = b ++ c :: rest
        ∧ Blank b
        ∧ Solid c
        ∧ Terminated (c :: rest)
        ∧ skip value = .ok (c :: rest) := by
  induction value with
  | nil => exact absurd rfl terminated.ne_nil
  | cons c value ih =>
      by_cases blank : c ≠ 0 ∧ c ≤ 32
      · obtain ⟨b, d, rest, rfl, blanks, solid, inner, skipped⟩ :=
          ih ((terminated_cons.mp terminated).resolve_left fun h => blank.1 h.1).2
        refine ⟨c :: b, d, rest, rfl, List.forall_mem_cons.mpr ⟨blank, blanks⟩, solid, inner, ?_⟩
        rw [skip, if_pos blank, skipped]
      · exact ⟨[], c, value, rfl, by simp [Blank], blank, terminated, by rw [skip, if_neg blank]⟩

/-- Skipping twice is skipping once. -/
theorem skip_skip {value rest : Bytes} (skipped : skip value = .ok rest)
    : skip rest = .ok rest := by
  induction value with
  | nil => simp [skip, outside] at skipped
  | cons c value ih =>
      rw [skip] at skipped
      split at skipped
      next => exact ih skipped
      next solid =>
        obtain rfl := by simpa using skipped
        rw [skip, if_neg solid]

omit [CDouble F] in
/-- The values of a chain of elements. -/
theorem values_elements {chain : Item F} {js : List (Json F)}
    (means : List.Forall₂ Means chain.chain js)
    : (chain.values.map fun children => children.map Prod.snd) = some js := by
  induction chain generalizing js with
  | null =>
      cases means
      rfl
  | node fields child next _ ih =>
      rw [Item.chain] at means
      cases means with
      | cons first rest =>
          obtain ⟨values, known, split⟩ := Option.map_eq_some_iff.mp (ih rest)
          rw [Means] at first
          simp [Item.values, first, known, split]

omit [CDouble F] in
/-- The names and values of a chain of members. -/
theorem values_members {chain : Item F} {ms : List (CString × Json F)}
    (means : List.Forall₂ MeansMember chain.chain ms)
    : (chain.values.map fun children => children.map fun child => (orEmpty child.1, child.2))
      = some ms := by
  induction chain generalizing ms with
  | null =>
      cases means
      rfl
  | node fields child next _ ih =>
      rw [Item.chain] at means
      cases means with
      | cons first rest =>
          obtain ⟨values, known, split⟩ := Option.map_eq_some_iff.mp (ih rest)
          obtain ⟨named, valued⟩ := first
          rw [Means] at valued
          simp only [] at named valued
          simp [Item.values, valued, known, split, named]

omit [CDouble F] in
/-- Elements make an array. -/
theorem means_array {fields : Fields F} (type : fields.type = .array) {chain : Item F}
    {js : List (Json F)} (means : List.Forall₂ Means chain.chain js)
    : Means (fields, chain) (.array js) := by
  obtain ⟨values, known, split⟩ := Option.map_eq_some_iff.mp (values_elements means)
  simp only [Means, Fields.value, type, known, Option.map_some, split]

omit [CDouble F] in
/-- Members make an object. -/
theorem means_object {fields : Fields F} (type : fields.type = .object) {chain : Item F}
    {ms : List (CString × Json F)} (means : List.Forall₂ MeansMember chain.chain ms)
    : Means (fields, chain) (.object ms) := by
  obtain ⟨values, known, split⟩ := Option.map_eq_some_iff.mp (values_members means)
  simp only [Means, Fields.value, type, known, Option.map_some, split]

/-- A number starts with its sign or a digit. -/
theorem starts_number {n : F} {t : Bytes} (spelled : SpellsNumber n t)
    : Starts (fun c => c = '-'.toUInt8 ∨ isDigit c) t := by
  obtain ⟨numeral, rfl, -⟩ := spelled
  rw [Numeral.text]
  cases negative : numeral.negative with
  | true => exact ⟨_, _, rfl, .inl rfl⟩
  | false =>
      have digit := @Numeral.starts_unsigned numeral [] negative
      simp only [List.append_nil] at digit
      exact digit.imp fun c isDigit => .inr isDigit

/-- A value starts with a character that is neither skipped nor closes an array. -/
theorem starts_value {j : Json F} {t : Bytes} (text : Text (.value j) t)
    : Starts (fun c => Solid c ∧ c ≠ ']'.toUInt8) t := by
  cases text with
  | null => exact ⟨_, _, rfl, by decide⟩
  | true => exact ⟨_, _, rfl, by decide⟩
  | false => exact ⟨_, _, rfl, by decide⟩
  | number spelled =>
      refine (starts_number spelled).imp fun c first => ?_
      rcases first with rfl | digit
      · decide
      · obtain ⟨d, small, rfl⟩ := exists_digit digit
        have all : ∀ d < 10, Solid (digitByte d) ∧ digitByte d ≠ ']'.toUInt8 := by decide
        exact all d small
  | string _ => exact ⟨_, _, rfl, by decide⟩
  | emptyArray _ => exact ⟨_, _, rfl, by decide⟩
  | array _ => exact ⟨_, _, rfl, by decide⟩
  | emptyObject _ => exact ⟨_, _, rfl, by decide⟩
  | object _ => exact ⟨_, _, rfl, by decide⟩

omit [CDouble F] in
/-- The last item of a loop. -/
theorem parseItems_last {parseItem : Bytes → Reading ((Fields F × Item F) × Bytes)}
    {close : UInt8} (other : close ≠ ','.toUInt8) {value rest : Bytes} {child : Fields F × Item F}
    (read : parseItem value = .ok (child, close :: rest)) (fuel : Nat)
    : parseItems parseItem close (fuel + 1) value = .ok (.node child.1 child.2 .null, rest) := by
  simp only [parseItems, read, Reading.ok_bind]
  rw [if_neg other, if_pos trivial]

omit [CDouble F] in
/-- An item in front of others. -/
theorem parseItems_comma {parseItem : Bytes → Reading ((Fields F × Item F) × Bytes)}
    {close : UInt8} {value more rest : Bytes} {child : Fields F × Item F} {next : Item F}
    (read : parseItem value = .ok (child, ','.toUInt8 :: more)) {fuel : Nat}
    (behind : parseItems parseItem close fuel more = .ok (next, rest))
    : parseItems parseItem close (fuel + 1) value = .ok (.node child.1 child.2 next, rest) := by
  simp only [parseItems, read, Reading.ok_bind]
  rw [if_pos trivial, behind]
  rfl

omit [CDouble F] in
/-- The items between two brackets. -/
theorem parseBrackets_items {parseItem : Bytes → Reading ((Fields F × Item F) × Bytes)}
    {opening close : UInt8} {value value' rest : Bytes} {chain : Item F} {fuel : Nat}
    (skipped : skip value = .ok value') (filled : ∃ c t, value' = c :: t ∧ c ≠ close)
    (read : parseItems parseItem close fuel value' = .ok (chain, rest)) (type : ItemType)
    (item : Fields F)
    : parseBrackets parseItem opening close type fuel item (opening :: value)
      = .ok (({ item with type := type }, chain), rest) := by
  obtain ⟨c, t, rfl, other⟩ := filled
  simp only [parseBrackets, peek, Reading.ok_bind, List.drop_succ_cons, List.drop_zero, skipped]
  rw [if_neg (by simp), if_neg other, read]
  rfl

omit [CDouble F] in
/-- Two brackets with blanks between them. -/
theorem parseBrackets_empty (parseItem : Bytes → Reading ((Fields F × Item F) × Bytes))
    {opening close : UInt8} (solid : Solid close) {b : Bytes} (blank : Blank b) (rest : Bytes)
    (type : ItemType) (fuel : Nat) (item : Fields F)
    : parseBrackets parseItem opening close type fuel item (opening :: (b ++ close :: rest))
      = .ok (({ item with type := type }, .null), rest) := by
  simp only [parseBrackets, peek, Reading.ok_bind, List.drop_succ_cons, List.drop_zero,
    skip_append blank solid]
  rw [if_neg (by simp), if_pos trivial]

/-- A keyword is recognised at its first characters. -/
theorem startsWith_append (keyword rest : Bytes)
    : startsWith keyword (keyword ++ rest) = .ok true := by
  induction keyword with
  | nil => rfl
  | cons c keyword ih => rw [List.cons_append, startsWith, if_pos rfl, ih]

/-- A keyword is not recognised from another character on. -/
theorem startsWith_other {d c : UInt8} (other : c ≠ d) (keyword rest : Bytes)
    : startsWith (d :: keyword) (c :: rest) = .ok false := by
  rw [startsWith, if_neg other]

/-- A text that starts with another character than a keyword. -/
theorem no_keyword {c : UInt8} (rest : Bytes)
    (other : c ≠ 'n'.toUInt8 ∧ c ≠ 'f'.toUInt8 ∧ c ≠ 't'.toUInt8)
    : startsWith (keyword "null") (c :: rest) = .ok false
      ∧ startsWith (keyword "false") (c :: rest) = .ok false
      ∧ startsWith (keyword "true") (c :: rest) = .ok false :=
  ⟨startsWith_other other.1 _ rest, startsWith_other other.2.1 _ rest,
    startsWith_other other.2.2 _ rest⟩

omit [CDouble F] in
/-- Items are read alike behind blanks. -/
theorem parseItems_skip {parseItem : Bytes → Reading ((Fields F × Item F) × Bytes)}
    {value value' : Bytes} (same : parseItem value' = parseItem value) (close : UInt8) (fuel : Nat)
    : parseItems parseItem close fuel value' = parseItems parseItem close fuel value := by
  cases fuel with
  | zero => rfl
  | succ fuel => simp only [parseItems, same]

omit [CDouble F] in
/-- An element is read alike behind blanks. -/
theorem parseElement_skip (parseValue : ValueParser F) (child : Fields F) {value value' : Bytes}
    (skipped : skip value = .ok value')
    : parseElement parseValue child value' = parseElement parseValue child value := by
  simp only [parseElement, skip_skip skipped, skipped]

/-- The first element starts behind blanks. -/
theorem starts_elements {js : List (Json F)} {t : Bytes} (text : Text (.elements js) t)
    : ∃ b c t', t = b ++ c :: t' ∧ Blank b ∧ Solid c ∧ c ≠ ']'.toUInt8 := by
  have element {j : Json F} {t : Bytes} (text : Text (.element j) t)
      : ∃ b c t', t = b ++ c :: t' ∧ Blank b ∧ Solid c ∧ c ≠ ']'.toUInt8 := by
    cases text with
    | element before value behind =>
        obtain ⟨c, t, rfl, solid, other⟩ := starts_value value
        exact ⟨_, c, _, rfl, before, solid, other⟩
  cases text with
  | lastElement last => exact element last
  | elements first _ =>
      obtain ⟨b, c, t, rfl, blank, solid, other⟩ := element first
      exact ⟨b, c, _, by rw [List.append_assoc, List.cons_append], blank, solid, other⟩

/-- The first member starts with a quote behind blanks. -/
theorem starts_members {ms : List (CString × Json F)} {t : Bytes} (text : Text (.members ms) t)
    : ∃ b t', t = b ++ Json.quote :: t' ∧ Blank b := by
  have member {m : CString × Json F} {t : Bytes} (text : Text (.member m) t)
      : ∃ b t', t = b ++ Json.quote :: t' ∧ Blank b := by
    cases text with
    | member before _ _ _ => exact ⟨_, _, rfl, before⟩
  cases text with
  | lastMember last => exact member last
  | members first _ =>
      obtain ⟨b, t, rfl, blank⟩ := member first
      exact ⟨b, _, by rw [List.append_assoc, List.cons_append], blank⟩

/-- Blanks may stand in front of a delimiter, and are skipped. -/
theorem delimited_blank {b rest : Bytes} (blank : Blank b)
    (delimited : Starts (fun c => Delimiter c ∧ Solid c) rest)
    : Starts Delimiter (b ++ rest) ∧ skip (b ++ rest) = .ok rest := by
  obtain ⟨c, rest, rfl, delimiter, solid⟩ := delimited
  refine ⟨?_, skip_append blank solid rest⟩
  cases b with
  | nil => exact ⟨c, rest, rfl, delimiter⟩
  | cons d b => exact ⟨d, _, rfl, .inl (blank d List.mem_cons_self).2⟩

variable [Supply]

/-- A new item is there, or memory for it was refused. -/
theorem cJSONNewItem_cases
    : (cJSONNewItem : Reading (Fields F)) = .ok newItem
      ∨ (cJSONNewItem : Reading (Fields F)) = .error .memory ∧ ¬Supplied (2 ^ 31) := by
  have asked : ((64 : Nat) : Int) = 64 := rfl
  rw [cJSONNewItem, ← asked]
  rcases @request_cases _ 64 (by decide) with given | ⟨refused, limited⟩
  · rw [given]
    exact .inl rfl
  · rw [refused]
    exact .inr ⟨rfl, limited⟩

/-- Where memory is given, an item is there. -/
theorem cJSONNewItem_eq (supplied : Supplied (2 ^ 31))
    : (cJSONNewItem : Reading (Fields F)) = .ok newItem :=
  cJSONNewItem_cases.resolve_right fun refused => refused.2 supplied

/-- Where memory is given, an element is read into a new item. -/
theorem parseNewElement_eq (supplied : Supplied (2 ^ 31)) (parseValue : ValueParser F)
    : parseNewElement parseValue = parseElement parseValue newItem := by
  funext value
  rw [parseNewElement, cJSONNewItem_eq supplied, Reading.ok_bind]

/-- An element is read alike behind blanks, also into a new item. -/
theorem parseNewElement_skip (parseValue : ValueParser F) {value value' : Bytes}
    (skipped : skip value = .ok value')
    : parseNewElement parseValue value' = parseNewElement parseValue value := by
  simp only [parseNewElement, parseElement_skip _ _ skipped]

/-- A value that starts with a quote. -/
theorem parseValue_string (fuel : Nat) (item : Fields F) (rest : Bytes)
    : parseValue (fuel + 1) item (Json.quote :: rest)
      = (do
          let (item, value) ← parseString item (Json.quote :: rest)
          .ok ((item, .null), value)) := by
  obtain ⟨null, false, true⟩ := @no_keyword Json.quote rest (by decide)
  simp only [parseValue, null, false, true, peek, Reading.ok_bind]
  rfl

/-- A value that starts with a sign or a digit. -/
theorem parseValue_number (fuel : Nat) (item : Fields F) {c : UInt8} (rest : Bytes)
    (first : c = '-'.toUInt8 ∨ isDigit c)
    : parseValue (fuel + 1) item (c :: rest)
      = (do
          let (item, value) ← parseNumber item (c :: rest)
          .ok ((item, .null), value)) := by
  have other : (c ≠ 'n'.toUInt8 ∧ c ≠ 'f'.toUInt8 ∧ c ≠ 't'.toUInt8) ∧ c ≠ Json.quote := by
    rcases first with rfl | digit
    · decide
    · obtain ⟨d, small, rfl⟩ := exists_digit digit
      have all
          : ∀ d < 10,
              (digitByte d ≠ 'n'.toUInt8 ∧ digitByte d ≠ 'f'.toUInt8 ∧ digitByte d ≠ 't'.toUInt8)
              ∧ digitByte d ≠ Json.quote := by
        decide
      exact all d small
  obtain ⟨null, false, true⟩ := no_keyword rest other.1
  simp only [parseValue, null, false, true, peek, Reading.ok_bind, Bool.false_eq_true, if_false,
    if_neg other.2, if_pos first]

/-- A value that starts with the bracket of an array. -/
theorem parseValue_array (fuel : Nat) (item : Fields F) (rest : Bytes)
    : parseValue (fuel + 1) item ('['.toUInt8 :: rest)
      = parseArray (parseValue fuel) (fuel + 1) item ('['.toUInt8 :: rest) := by
  obtain ⟨null, false, true⟩ := @no_keyword '['.toUInt8 rest (by decide)
  simp only [parseValue, null, false, true, peek, Reading.ok_bind]
  rfl

/-- A value that starts with the brace of an object. -/
theorem parseValue_object (fuel : Nat) (item : Fields F) (rest : Bytes)
    : parseValue (fuel + 1) item ('\x7b'.toUInt8 :: rest)
      = parseObject (parseValue fuel) (fuel + 1) item ('\x7b'.toUInt8 :: rest) := by
  obtain ⟨null, false, true⟩ := @no_keyword '\x7b'.toUInt8 rest (by decide)
  simp only [parseValue, null, false, true, peek, Reading.ok_bind]
  rfl

/-- A keyword is read as its value. -/
theorem parseValue_keyword (fuel : Nat) (item : Fields F) (rest : Bytes)
    : parseValue (fuel + 1) item (keyword "null" ++ rest)
        = .ok (({ item with type := .null }, .null), rest)
      ∧ parseValue (fuel + 1) item (keyword "false" ++ rest)
        = .ok (({ item with type := .false }, .null), rest)
      ∧ parseValue (fuel + 1) item (keyword "true" ++ rest)
        = .ok (({ item with type := .true, valueint := 1 }, .null), rest) := by
  refine ⟨?_, ?_, ?_⟩
  · simp only [parseValue, startsWith_append, Reading.ok_bind]
    rfl
  · have null : startsWith (keyword "null") (keyword "false" ++ rest) = .ok false :=
      startsWith_other (by decide) _ _
    simp only [parseValue, null, startsWith_append, Reading.ok_bind]
    rfl
  · have null : startsWith (keyword "null") (keyword "true" ++ rest) = .ok false :=
      startsWith_other (by decide) _ _
    have false : startsWith (keyword "false") (keyword "true" ++ rest) = .ok false :=
      startsWith_other (by decide) _ _
    simp only [parseValue, null, false, startsWith_append, Reading.ok_bind]
    rfl

/-- A member is read alike behind blanks. -/
theorem parseMember_skip (parseValue : ValueParser F) {value value' : Bytes}
    (skipped : skip value = .ok value')
    : parseMember parseValue value' = parseMember parseValue value := by
  simp only [parseMember, skip_skip skipped, skipped]

/-- A text is read as what it spells, with enough fuel and up to a delimiter. -/
def Parses : Phrase F → Bytes → Prop
  | .value j, t =>
      ∀ fuel item rest,
        t.length < fuel
        → Starts Delimiter rest
        → ∃ child,
            parseValue fuel item (t ++ rest) = .ok (child, rest)
            ∧ child.1.string = item.string
            ∧ Means child j
  | .element j, t =>
      ∀ fuel item rest,
        t.length < fuel
        → Starts (fun c => Delimiter c ∧ Solid c) rest
        → ∃ child,
            parseElement (parseValue fuel) item (t ++ rest) = .ok (child, rest)
            ∧ child.1.string = item.string
            ∧ Means child j
  | .elements js, t =>
      ∀ fuel fuel' rest,
        t.length < fuel
        → t.length < fuel'
        → ∃ chain,
            parseItems (parseElement (parseValue fuel) newItem) ']'.toUInt8 fuel'
                (t ++ ']'.toUInt8 :: rest)
              = .ok (chain, rest)
            ∧ List.Forall₂ Means chain.chain js
  | .member m, t =>
      ∀ fuel rest,
        t.length < fuel
        → Starts (fun c => Delimiter c ∧ Solid c) rest
        → ∃ child,
            parseMember (parseValue fuel) (t ++ rest) = .ok (child, rest) ∧ MeansMember child m
  | .members ms, t =>
      ∀ fuel fuel' rest,
        t.length < fuel
        → t.length < fuel'
        → ∃ chain,
            parseItems (parseMember (parseValue fuel)) '\x7d'.toUInt8 fuel'
                (t ++ '\x7d'.toUInt8 :: rest)
              = .ok (chain, rest)
            ∧ List.Forall₂ MeansMember chain.chain ms

/-- Whatever spells a part of a short text is read as it, where memory is given. -/
theorem parses (supplied : Supplied (2 ^ 31)) {phrase : Phrase F} {t : Bytes}
    (text : Text phrase t) (short : t.length < 2 ^ 31)
    : Parses phrase t := by
  have filled {n fuel : Nat} (enough : n < fuel) : ∃ f, fuel = f + 1 := ⟨fuel - 1, by omega⟩
  induction text with
  | null =>
      intro fuel item rest enough _
      obtain ⟨fuel, rfl⟩ := filled enough
      exact ⟨_, (parseValue_keyword fuel item rest).1, rfl, rfl⟩
  | true =>
      intro fuel item rest enough _
      obtain ⟨fuel, rfl⟩ := filled enough
      exact ⟨_, (parseValue_keyword fuel item rest).2.2, rfl, rfl⟩
  | false =>
      intro fuel item rest enough _
      obtain ⟨fuel, rfl⟩ := filled enough
      exact ⟨_, (parseValue_keyword fuel item rest).2.1, rfl, rfl⟩
  | @number n t spelled =>
      intro fuel item rest enough delimited
      obtain ⟨fuel, rfl⟩ := filled enough
      obtain ⟨c, t', split, first⟩ := starts_number spelled
      obtain ⟨numeral, rfl, rfl⟩ := spelled
      have read := numeral.parseNumber_append delimited item
      rw [split, List.cons_append] at read ⊢
      refine ⟨(withNumber item numeral.value, .null), ?_, rfl, rfl⟩
      rw [parseValue_number fuel item _ first, read]
      rfl
  | @string s raw escaped =>
      intro fuel item rest enough _
      obtain ⟨fuel, rfl⟩ := filled enough
      simp only [List.length_cons, List.length_append] at short
      have read := parseString_escaped item supplied escaped (by omega) (.inl rfl) rest
      refine ⟨(withString item s, .null), ?_, rfl, rfl⟩
      rw [List.cons_append, List.append_assoc, List.singleton_append, parseValue_string, read]
      rfl
  | @emptyArray b blank =>
      intro fuel item rest enough _
      obtain ⟨fuel, rfl⟩ := filled enough
      refine ⟨({ item with type := .array }, .null), ?_, rfl, rfl⟩
      rw [List.cons_append, List.append_assoc, List.singleton_append, parseValue_array]
      exact parseBrackets_empty _ (by decide) blank rest _ _ _
  | @array js t inside ih =>
      intro fuel item rest enough _
      obtain ⟨fuel, rfl⟩ := filled enough
      simp only [List.length_cons, List.length_append] at enough short
      obtain ⟨chain, read, means⟩ := ih (by omega) fuel (fuel + 1) rest (by omega) (by omega)
      obtain ⟨b, c, t', rfl, blank, solid, other⟩ := starts_elements inside
      refine ⟨({ item with type := .array }, chain), ?_, rfl, ?_⟩
      · rw [List.cons_append, List.append_assoc, List.singleton_append, parseValue_array,
          parseArray, parseNewElement_eq supplied]
        rw [List.append_assoc, List.cons_append] at read ⊢
        have skipped := skip_append blank solid (t' ++ ']'.toUInt8 :: rest)
        refine parseBrackets_items skipped ⟨c, _, rfl, other⟩ ?_ _ _
        rw [parseItems_skip (parseElement_skip _ _ skipped), read]
      · exact means_array rfl means
  | @emptyObject b blank =>
      intro fuel item rest enough _
      obtain ⟨fuel, rfl⟩ := filled enough
      refine ⟨({ item with type := .object }, .null), ?_, rfl, rfl⟩
      rw [List.cons_append, List.append_assoc, List.singleton_append, parseValue_object]
      exact parseBrackets_empty _ (by decide) blank rest _ _ _
  | @object ms t inside ih =>
      intro fuel item rest enough _
      obtain ⟨fuel, rfl⟩ := filled enough
      simp only [List.length_cons, List.length_append] at enough short
      obtain ⟨chain, read, means⟩ := ih (by omega) fuel (fuel + 1) rest (by omega) (by omega)
      obtain ⟨b, t', rfl, blank⟩ := starts_members inside
      refine ⟨({ item with type := .object }, chain), ?_, rfl, means_object rfl means⟩
      rw [List.cons_append, List.append_assoc, List.singleton_append, parseValue_object]
      rw [List.append_assoc, List.cons_append] at read ⊢
      have skipped := @skip_append b blank Json.quote (by decide) (t' ++ '\x7d'.toUInt8 :: rest)
      refine parseBrackets_items skipped ⟨Json.quote, _, rfl, by decide⟩ ?_ _ _
      rw [parseItems_skip (parseMember_skip _ skipped), read]
  | @element j b t b' before value behind ih =>
      intro fuel item rest enough delimited
      obtain ⟨c, t', rfl, solid, -⟩ := starts_value value
      obtain ⟨delimited', skipped⟩ := delimited_blank behind delimited
      simp only [List.length_append, List.length_cons] at enough short
      obtain ⟨child, read, named, means⟩ :=
        ih (by rw [List.length_cons]; omega) fuel item (b' ++ rest)
          (by rw [List.length_cons]; omega) delimited'
      refine ⟨child, ?_, named, means⟩
      have start := skip_append before solid (t' ++ (b' ++ rest))
      rw [List.append_assoc, List.append_assoc, List.cons_append, parseElement, start,
        Reading.ok_bind]
      rw [List.cons_append] at read
      simp only [read, Reading.ok_bind, skipped]
  | @lastElement j t last ih =>
      intro fuel fuel' rest enough enough'
      obtain ⟨fuel', rfl⟩ := filled enough'
      obtain ⟨child, read, -, means⟩ := ih short fuel newItem (']'.toUInt8 :: rest) enough
        ⟨_, rest, rfl, by decide, by decide⟩
      exact ⟨_, parseItems_last (by decide) read fuel', .cons means .nil⟩
  | @elements j js t more first rest ih ih' =>
      intro fuel fuel' rest enough enough'
      obtain ⟨fuel', rfl⟩ := filled enough'
      simp only [List.length_append, List.length_cons] at enough enough' short
      obtain ⟨child, read, -, means⟩ :=
        ih (by omega) fuel newItem (','.toUInt8 :: (more ++ ']'.toUInt8 :: rest)) (by omega)
          ⟨_, _, rfl, by decide, by decide⟩
      obtain ⟨chain, read', means'⟩ := ih' (by omega) fuel fuel' rest (by omega) (by omega)
      rw [List.append_assoc, List.cons_append]
      exact ⟨_, parseItems_comma read read', .cons means means'⟩
  | @member s j b raw b' t before name behind value ih =>
      intro fuel rest enough delimited
      simp only [List.length_append, List.length_cons] at enough short
      obtain ⟨child, read, named, means⟩ :=
        ih (by omega) fuel { withString newItem s with string := some s, valuestring := none } rest
          (by omega) delimited
      refine ⟨child, ?_, named, means⟩
      have start :=
        @skip_append b before Json.quote (by decide)
          (raw ++ Json.quote :: (b' ++ ':'.toUInt8 :: (t ++ rest)))
      have string := parseString_escaped (newItem : Fields F) supplied name (by omega) (.inl rfl)
        (b' ++ ':'.toUInt8 :: (t ++ rest))
      have colon := @skip_append b' behind ':'.toUInt8 (by decide) (t ++ rest)
      simp only [List.append_assoc, List.cons_append, parseMember, cJSONNewItem_eq supplied,
        start, string, if_true, Reading.ok_bind, colon]
      exact read
  | @lastMember m t last ih =>
      intro fuel fuel' rest enough enough'
      obtain ⟨fuel', rfl⟩ := filled enough'
      obtain ⟨child, read, means⟩ := ih short fuel ('\x7d'.toUInt8 :: rest) enough
        ⟨_, rest, rfl, by decide, by decide⟩
      exact ⟨_, parseItems_last (by decide) read fuel', .cons means .nil⟩
  | @members m ms t more first rest ih ih' =>
      intro fuel fuel' rest enough enough'
      obtain ⟨fuel', rfl⟩ := filled enough'
      simp only [List.length_append, List.length_cons] at enough enough' short
      obtain ⟨child, read, means⟩ :=
        ih (by omega) fuel (','.toUInt8 :: (more ++ '\x7d'.toUInt8 :: rest)) (by omega)
          ⟨_, _, rfl, by decide, by decide⟩
      obtain ⟨chain, read', means'⟩ := ih' (by omega) fuel fuel' rest (by omega) (by omega)
      rw [List.append_assoc, List.cons_append]
      exact ⟨_, parseItems_comma read read', .cons means means'⟩

end Cvos.LibJson

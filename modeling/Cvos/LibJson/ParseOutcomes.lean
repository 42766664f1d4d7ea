import Cvos.LibJson.NumberValues
import Cvos.LibJson.ParseTexts

/-! What cJSON makes of a text that spells no JSON value. What it accepts spells one, except that a
string may be left open at the end of the text; what it refuses, it refuses at a place up to which
the text is the start of one that is accepted; and it leaves the text only behind a last backslash.
Where memory is refused it returns a null pointer.
-/

namespace Cvos.LibJson

open Cvos.Lib Json

/-- The text up to a place can be completed. -/
def Viable {α : Type} (single : α → Bytes → Prop) (pre : Bytes) : Prop :=
  ∃ w a, single a (pre ++ w)

/-- The start of a text can be completed to it. -/
theorem viable_of {α : Type} {single : α → Bytes → Prop} {a : α} {t : Bytes} (text : single a t)
    {pre w : Bytes} (split : t = pre ++ w)
    : Viable single pre :=
  ⟨w, a, split ▸ text⟩

section Texts

variable {F : Type} [CDouble F]

/-- A text spells a value. -/
abbrev ValueText (j : Json F) (t : Bytes) : Prop := Text (.value j) t

/-- A text spells a value with the blanks around it. -/
abbrev ElementText (j : Json F) (t : Bytes) : Prop := Text (.element j) t

/-- A text spells a member of an object with the blanks around it. -/
abbrev MemberText (m : CString × Json F) (t : Bytes) : Prop := Text (.member m) t

/-- The value of an item that keeps its name. -/
def MeansNamed (item child : Fields F × Item F) (j : Json F) : Prop :=
  child.1.string = item.1.string ∧ Means child j

/-- The text ends inside a string. -/
def TornString (child : Fields F × Item F) (pre : Bytes) : Prop :=
  ∃ raw,
    ∃ s : CString, pre = Json.quote :: raw ∧ Escaped raw s.val ∧ Means child (.string s)

/-- A string that is left open can be closed. -/
theorem TornString.viable {child : Fields F × Item F} {pre : Bytes} (isTorn : TornString child pre)
    : Viable (ValueText (F := F)) pre := by
  obtain ⟨raw, s, rfl, escaped, -⟩ := isTorn
  exact ⟨[Json.quote], .string s, .string escaped⟩

/-- Nothing refuses the start of a value. -/
theorem viable_nil : Viable (ValueText (F := F)) [] := ⟨keyword "null", .null, .null⟩

/-- The start of a value may stand behind blanks. -/
theorem viable_element {b pre : Bytes} (blank : Blank b)
    (viable : Viable (ValueText (F := F)) pre)
    : Viable (ElementText (F := F)) (b ++ pre) := by
  obtain ⟨w, j, text⟩ := viable
  refine ⟨w, j, ?_⟩
  have element := Spells.element blank text (show Blank [] by simp [Blank])
  rwa [List.append_nil, ← List.append_assoc] at element

/-- The start of the value of a member stands behind its name. -/
theorem viable_member {b raw b' pre : Bytes} {s : CString} (blank : Blank b)
    (escaped : Escaped raw s.val) (blank' : Blank b') (viable : Viable (ElementText (F := F)) pre)
    : Viable (MemberText (F := F))
        (b ++ Json.quote :: (raw ++ Json.quote :: (b' ++ ':'.toUInt8 :: pre))) := by
  obtain ⟨w, j, text⟩ := viable
  have member : MemberText (s, j) _ := .member blank escaped blank' text
  exact viable_of member (by simp; rfl)

/-- What several items of a kind spell. -/
structure ItemTexts {α : Type} (single : α → Bytes → Prop) (many : List α → Bytes → Prop)
    : Prop where
  last {a : α} {t : Bytes} (text : single a t) : many [a] t
  cons {a : α} {as : List α} {t more : Bytes} (text : single a t) (rest : many as more)
    : many (a :: as) (t ++ ','.toUInt8 :: more)

omit [CDouble F] in
/-- Behind a character other than the terminator, a text is terminated. -/
theorem terminated_tail {c : UInt8} {rest : Bytes} (terminated : Terminated (c :: rest))
    (filled : c ≠ 0)
    : Terminated rest :=
  ((terminated_cons.mp terminated).resolve_left fun h => filled h.1).2

omit [CDouble F] in
/-- Digits are read up to the terminator at the latest. -/
theorem parseDigits_terminated {α : Type} (step : α → UInt8 → α) (value : α) {num : Bytes}
    (terminated : Terminated num)
    : ∃ value' rest, parseDigits step value num = .ok (value', rest) ∧ Terminated rest := by
  induction num generalizing value with
  | nil => exact absurd rfl terminated.ne_nil
  | cons c num ih =>
      rw [parseDigits]
      split
      next digit => exact ih _ (terminated_tail terminated (of_isDigit digit).2.2.2)
      next => exact ⟨value, c :: num, rfl, terminated⟩

/-- The sign and a zero are read within a terminated text. -/
theorem parseSign_terminated {num : Bytes} (terminated : Terminated num)
    : ∃ sign rest rest',
        parseSign num = .ok ((sign : F), rest) ∧ parseZero rest = .ok rest' ∧ Terminated rest' := by
  have sign : ∃ sign rest, parseSign num = .ok ((sign : F), rest) ∧ Terminated rest := by
    cases num with
    | nil => exact absurd rfl terminated.ne_nil
    | cons c num =>
        rw [parseSign]
        split
        next minus => exact ⟨_, _, rfl, terminated_tail terminated (by rw [minus]; decide)⟩
        next => exact ⟨_, _, rfl, terminated⟩
  obtain ⟨sign, num, signed, terminated⟩ := sign
  cases num with
  | nil => exact absurd rfl terminated.ne_nil
  | cons c num =>
      refine ⟨sign, c :: num, ?_⟩
      rw [parseZero]
      split
      next zero => exact ⟨_, signed, rfl, terminated_tail terminated (by rw [zero]; decide)⟩
      next => exact ⟨_, signed, rfl, terminated⟩

/-- The digits in front of the point are read within a terminated text. -/
theorem parseInteger_terminated {num : Bytes} (terminated : Terminated num)
    : ∃ n rest, parseInteger num = .ok ((n : F), rest) ∧ Terminated rest := by
  cases num with
  | nil => exact absurd rfl terminated.ne_nil
  | cons c num =>
      rw [parseInteger]
      split
      next => exact parseDigits_terminated _ _ terminated
      next => exact ⟨_, _, rfl, terminated⟩

/-- The fraction is read within a terminated text. -/
theorem parseFraction_terminated (n : F) {num : Bytes} (terminated : Terminated num)
    : ∃ v rest, parseFraction n num = .ok (v, rest) ∧ Terminated rest := by
  cases num with
  | nil => exact absurd rfl terminated.ne_nil
  | cons c num =>
      rw [parseFraction]
      split
      next point =>
        have behind := terminated_tail terminated (by rw [point]; decide)
        cases num with
        | nil => exact absurd rfl behind.ne_nil
        | cons d num =>
            rw [peek, Reading.ok_bind]
            split
            next => exact parseDigits_terminated _ _ behind
            next => exact ⟨_, _, rfl, terminated⟩
      next => exact ⟨_, _, rfl, terminated⟩

omit [CDouble F] in
/-- The sign of an exponent is read within a terminated text. -/
theorem parseExponentSign_terminated {num : Bytes} (terminated : Terminated num)
    : ∃ s rest, parseExponentSign num = .ok (s, rest) ∧ Terminated rest := by
  cases num with
  | nil => exact absurd rfl terminated.ne_nil
  | cons c num =>
      rw [parseExponentSign]
      split_ifs with plus minus
      · exact ⟨_, _, rfl, terminated_tail terminated (by rw [plus]; decide)⟩
      · exact ⟨_, _, rfl, terminated_tail terminated (by rw [minus]; decide)⟩
      · exact ⟨_, _, rfl, terminated⟩

omit [CDouble F] in
/-- The exponent is read within a terminated text. -/
theorem parseExponent_terminated {num : Bytes} (terminated : Terminated num)
    : ∃ v rest, parseExponent num = .ok (v, rest) ∧ Terminated rest := by
  cases num with
  | nil => exact absurd rfl terminated.ne_nil
  | cons c num =>
      rw [parseExponent]
      split
      next mark =>
        obtain ⟨s, num, signed, behind⟩ :=
          parseExponentSign_terminated
            (terminated_tail terminated (by rcases mark with rfl | rfl <;> decide))
        obtain ⟨v, rest, digits, behind⟩ := parseDigits_terminated exponentStep 0 behind
        exact ⟨(v, s), rest, by simp only [signed, digits, Reading.ok_bind], behind⟩
      next => exact ⟨_, _, rfl, terminated⟩

/-- A number is read within a terminated text. -/
theorem parseNumber_terminated (item : Fields F) {num : Bytes} (terminated : Terminated num)
    : ∃ item' rest, parseNumber item num = .ok (item', rest) ∧ Terminated rest := by
  obtain ⟨sign, num, num', signed, zero, terminated⟩ := parseSign_terminated (F := F) terminated
  obtain ⟨n, num, integer, terminated⟩ := parseInteger_terminated (F := F) terminated
  obtain ⟨⟨n, scale⟩, num, fraction, terminated⟩ := parseFraction_terminated n terminated
  obtain ⟨⟨subscale, signsubscale⟩, rest, exponent, terminated⟩ :=
    parseExponent_terminated terminated
  refine ⟨withNumber item (scaled sign n scale subscale signsubscale), rest, ?_, terminated⟩
  simp only [parseNumber, signed, zero, integer, fraction, exponent, Reading.ok_bind]

/-- A keyword is recognised exactly at the start of a terminated text. -/
theorem startsWith_cases {word value : Bytes} (nulFree : ∀ c ∈ word, c ≠ 0)
    (terminated : Terminated value)
    : startsWith word value = .ok false
      ∨ ∃ rest, value = word ++ rest ∧ rest ≠ [] ∧ startsWith word value = .ok true := by
  induction word generalizing value with
  | nil => exact .inr ⟨value, rfl, terminated.ne_nil, rfl⟩
  | cons d word ih =>
      obtain ⟨filled, others⟩ := List.forall_mem_cons.mp nulFree
      cases value with
      | nil => exact absurd rfl terminated.ne_nil
      | cons c value =>
          rw [startsWith]
          split
          next same =>
            subst same
            have behind := ((terminated_cons.mp terminated).resolve_left fun h => filled h.1).2
            rcases ih others behind with no | ⟨rest, rfl, filled', yes⟩
            · exact .inl no
            · exact .inr ⟨rest, rfl, filled', yes⟩
          next => exact .inl rfl

end Texts

section Parts

variable [Supply] {F : Type} [CDouble F]

/-- What a part of the parser makes of a terminated text: it reads a text of the part, or one that
ends inside a string, or refuses the text at a place up to which it can be completed, or is led
behind it by a last backslash, or is refused memory.
-/
inductive Outcome {α β : Type} (single : α → Bytes → Prop) (means : β → α → Prop)
    (torn : β → Bytes → Prop) (value : Bytes) : Reading (β × Bytes) → Prop where
  | read {a : α} {t rest : Bytes} {b : β} (split : value = t ++ rest) (filled : rest ≠ [])
    (text : single a t) (meaning : means b a)
    : Outcome single means torn value (.ok (b, rest))
  | unclosed {pre : Bytes} {b : β} (split : value = pre ++ [0]) (isTorn : torn b pre)
    : Outcome single means torn value (.ok (b, [0]))
  | malformed {pre ep : Bytes} (split : value = pre ++ ep) (viable : Viable single pre)
    : Outcome single means torn value (.error (.malformed ep))
  | outside {text : Bytes} (split : value = text ++ [backslash, 0])
    : Outcome single means torn value outside
  | memory (refused : ¬Supplied (2 ^ 31))
    : Outcome single means torn value (.error .memory)

section Continued

variable {α β α' β' : Type} {single : α → Bytes → Prop} {means : β → α → Prop}
  {torn : β → Bytes → Prop} {single' : α' → Bytes → Prop} {means' : β' → α' → Prop}
  {torn' : β' → Bytes → Prop} {value : Bytes}

/-- What comes behind a part is looked at where the part is read. Any other outcome for the part is
one for the whole, behind the bytes in front of the part.
-/
theorem Outcome.bind (before : Bytes) {result : Reading (β × Bytes)}
    (outcome : Outcome single means torn value result) {next : β × Bytes → Reading (β' × Bytes)}
    (read : ∀ a t rest b,
      value = t ++ rest
      → rest ≠ []
      → single a t
      → means b a
      → Outcome single' means' torn' (before ++ value) (next (b, rest)))
    (unclosed : ∀ pre b,
      value = pre ++ [0]
      → torn b pre
      → Outcome single' means' torn' (before ++ value) (next (b, [0])))
    (viable : ∀ pre, Viable single pre → Viable single' (before ++ pre))
    : Outcome single' means' torn' (before ++ value) (result >>= next) := by
  cases outcome with
  | read split filled text meaning => exact read _ _ _ _ split filled text meaning
  | unclosed split isTorn => exact unclosed _ _ split isTorn
  | malformed split found => exact .malformed (by rw [split, List.append_assoc]) (viable _ found)
  | outside split => exact .outside (by rw [split, List.append_assoc])
  | memory refused => exact .memory refused

/-- A part that is the end of the whole. -/
theorem Outcome.behind {means' : β → α' → Prop} {torn' : β → Bytes → Prop} (before : Bytes)
    {result : Reading (β × Bytes)}
    (outcome : Outcome single means torn value result)
    (read : ∀ a t b,
      single a t → means b a → ∃ a', single' a' (before ++ t) ∧ means' b a')
    (unclosed : ∀ pre b, torn b pre → torn' b (before ++ pre))
    (viable : ∀ pre, Viable single pre → Viable single' (before ++ pre))
    : Outcome single' means' torn' (before ++ value) result := by
  have handedOn : Outcome single' means' torn' (before ++ value) (result >>= .ok) := by
    refine outcome.bind before ?_ ?_ viable
    · intro a t rest b split filled text meaning
      obtain ⟨a', text', meaning'⟩ := read a t b text meaning
      exact .read (by rw [split, List.append_assoc]) filled text' meaning'
    · intro pre b split isTorn
      exact .unclosed (by rw [split, List.append_assoc]) (unclosed pre b isTorn)
  rwa [← bind_pure result]

end Continued

/-- What a parser of values does. -/
def ParsesValues (parseValue : ValueParser F) (fuel : Nat) : Prop :=
  ∀ item value,
    Terminated value
    → value.length < fuel
    → Outcome ValueText (MeansNamed (item, .null)) TornString value
        (parseValue item value)

/-- The outcome for a value with the blanks around it. -/
theorem parseElement_outcome {parseValue : ValueParser F} {fuel : Nat}
    (values : ParsesValues parseValue fuel) (item : Fields F) {value : Bytes}
    (terminated : Terminated value) (enough : value.length < fuel)
    : Outcome ElementText (MeansNamed (item, .null))
        (fun _ => Viable (ElementText (F := F))) value
        (parseElement parseValue item value) := by
  obtain ⟨b, c, rest, rfl, blank, -, inner, skipped⟩ := skip_cases terminated
  have shorter : (c :: rest).length < fuel := by
    rw [List.length_append] at enough
    omega
  rw [parseElement, skipped, Reading.ok_bind]
  refine (values item (c :: rest) inner shorter).bind b ?_ ?_ fun _ => viable_element blank
  · intro j t rest' child split filled text meaning
    rw [split] at inner
    obtain ⟨b', c', rest'', rfl, blank', -, -, skipped'⟩ := skip_cases (inner.of_append filled).2
    simp only [Reading.ok_bind, skipped']
    exact .read (by rw [split]; simp) (by simp) (.element blank text blank') meaning
  · intro pre child split isTorn
    have same : skip [0] = .ok [0] := rfl
    simp only [Reading.ok_bind, same]
    exact .unclosed (by rw [split, List.append_assoc]) (viable_element blank isTorn.viable)

/-- The outcome for an element, which is read into a new item. -/
theorem parseNewElement_outcome {parseValue : ValueParser F} {fuel : Nat}
    (values : ParsesValues parseValue fuel) {value : Bytes} (terminated : Terminated value)
    (enough : value.length < fuel)
    : Outcome ElementText Means (fun _ => Viable (ElementText (F := F))) value
        (parseNewElement parseValue value) := by
  rw [parseNewElement]
  rcases @cJSONNewItem_cases F _ _ with given | ⟨refused, limited⟩
  · rw [given, Reading.ok_bind]
    exact (parseElement_outcome values newItem terminated enough).behind []
      (fun j t child text named => ⟨j, text, named.2⟩) (fun _ _ isTorn => isTorn)
      fun _ viable => viable
  · rw [refused]
    exact .memory limited

/-- The outcome for a member with the blanks around it. -/
theorem parseMember_outcome {parseValue : ValueParser F} {fuel : Nat}
    (values : ParsesValues parseValue fuel) (short : fuel ≤ 2 ^ 31 + 1) {value : Bytes}
    (terminated : Terminated value) (enough : value.length < fuel)
    : Outcome MemberText MeansMember (fun _ => Viable (MemberText (F := F))) value
        (parseMember parseValue value) := by
  have noBlank : Blank [] := by simp [Blank]
  have nullText : ElementText (.null : Json F) ([] ++ (keyword "null" ++ [])) :=
    .element noBlank .null noBlank
  rw [parseMember]
  rcases @cJSONNewItem_cases F _ _ with given | ⟨refused, limited⟩
  swap
  · rw [refused]
    exact .memory limited
  obtain ⟨b, c, rest, rfl, blank, -, inner, skipped⟩ := skip_cases terminated
  have fits : (c :: rest).length ≤ 2 ^ 31 := by
    rw [List.length_append] at enough
    omega
  rw [given, Reading.ok_bind, skipped, Reading.ok_bind]
  rcases parseString_cases (newItem : Fields F) inner fits with
    refused | ⟨fault, text, split⟩ | ⟨refused, limited⟩
    | ⟨raw, stop, rest', s, split, stops, escaped, read⟩
  · rw [refused]
    have text : MemberText (CString.empty, .null) _ := .member blank .nil noBlank nullText
    exact .malformed rfl (viable_of text rfl)
  · rw [fault]
    exact .outside (by rw [split, List.append_assoc])
  · rw [refused]
    exact .memory limited
  rw [read, Reading.ok_bind]
  rw [split] at inner ⊢
  have behind := (@Terminated.of_append (Json.quote :: raw) (stop :: rest') inner (by simp)).2
  rcases terminated_cons.mp behind with ⟨rfl, rfl⟩ | ⟨filled, behind'⟩
  · have other : (0 : UInt8) ≠ Json.quote := by decide
    have same : skip [0] = .ok [0] := rfl
    simp only [if_neg other, same, Reading.ok_bind]
    rw [if_pos (by decide)]
    have text : MemberText (s, .null) _ := .member blank escaped noBlank nullText
    exact @Outcome.malformed _ _ _ _ _ _ _ (b ++ Json.quote :: raw) [0] (by simp)
      (viable_of text (by simp; rfl))
  · have quoted := stops.resolve_right filled
    subst quoted
    obtain ⟨b', c', rest'', rfl, blank', -, inner', skipped'⟩ := skip_cases behind'
    simp only [if_true, skipped', Reading.ok_bind]
    split
    next other =>
      have text : MemberText (s, .null) _ := .member blank escaped blank' nullText
      exact @Outcome.malformed _ _ _ _ _ _ _ (b ++ Json.quote :: (raw ++ Json.quote :: b'))
        (c' :: rest'') (by simp) (viable_of text (by simp; rfl))
    next colon =>
      obtain rfl : c' = ':'.toUInt8 := not_not.mp colon
      have terminated'' := ((terminated_cons.mp inner').resolve_left fun h => by
        exact absurd h.1 (by decide)).2
      have shorter : rest''.length < fuel := by
        rw [split] at enough
        simp only [List.length_append, List.length_cons] at enough
        omega
      have whole (t : Bytes)
          : b ++ Json.quote :: (raw ++ Json.quote :: (b' ++ ':'.toUInt8 :: t))
            = (b ++ Json.quote :: (raw ++ Json.quote :: (b' ++ [':'.toUInt8]))) ++ t := by
        simp
      have completed (pre : Bytes) (viable : Viable (ElementText (F := F)) pre)
          : Viable (MemberText (F := F))
              ((b ++ Json.quote :: (raw ++ Json.quote :: (b' ++ [':'.toUInt8]))) ++ pre) := by
        rw [← whole]
        exact viable_member blank escaped blank' viable
      rw [whole]
      refine (parseElement_outcome values _ terminated'' shorter).behind _ ?_
        (fun pre _ => completed pre) completed
      intro j t child text meaning
      refine ⟨(s, j), ?_, meaning⟩
      rw [← whole]
      exact .member blank escaped blank' text

omit [CDouble F] in
/-- The outcome for the items up to the bracket that closes them. -/
theorem parseItems_outcome {parseItem : Bytes → Reading ((Fields F × Item F) × Bytes)}
    {α : Type} {single : α → Bytes → Prop} {many : List α → Bytes → Prop}
    {means : Fields F × Item F → α → Prop} {bound : Nat} (texts : ItemTexts single many)
    (items : ∀ value,
      Terminated value
      → value.length < bound
      → Outcome single means (fun _ => Viable single) value (parseItem value))
    {close : UInt8} (noEnd : close ≠ 0) {fuel : Nat} {value : Bytes} (terminated : Terminated value)
    (small : value.length < bound) (enough : value.length < fuel)
    : Outcome (fun as t => ∃ t', t = t' ++ [close] ∧ many as t')
        (fun chain as => List.Forall₂ means chain.chain as) (fun _ _ => False) value
        (parseItems parseItem close fuel value) := by
  induction fuel generalizing value with
  | zero => omega
  | succ fuel ih =>
      have complete (pre : Bytes) (viable : Viable single pre)
          : Viable (fun as t => ∃ t', t = t' ++ [close] ∧ many as t') pre := by
        obtain ⟨w, a, text⟩ := viable
        exact ⟨w ++ [close], [a], pre ++ w, by simp, texts.last text⟩
      rw [parseItems]
      refine (items value terminated small).bind [] ?_ ?_ complete
      · intro a t rest child split filled text meaning
        obtain ⟨c, rest, rfl⟩ := List.exists_cons_of_ne_nil filled
        rw [split] at terminated small enough
        have inner := (terminated.of_append (by simp)).2
        simp only [List.length_append, List.length_cons] at small enough
        simp only [List.nil_append]
        split
        next comma =>
          subst comma
          have behind := ((terminated_cons.mp inner).resolve_left fun h => by
            exact absurd h.1 (by decide)).2
          have whole (rest : Bytes) : t ++ ','.toUInt8 :: rest = (t ++ [','.toUInt8]) ++ rest := by
            simp
          rw [split, whole]
          refine (ih behind (by omega) (by omega)).bind (t ++ [','.toUInt8]) ?_
            (fun _ _ _ torn => torn.elim) ?_
          · intro as t' rest' chain split' filled' text' meaning'
            obtain ⟨t', rfl, manyText⟩ := text'
            exact .read (by rw [split']; simp) filled'
              ⟨t ++ ','.toUInt8 :: t', rfl, texts.cons text manyText⟩ (.cons meaning meaning')
          · intro pre viable
            obtain ⟨w, as, t', closed, manyText⟩ := viable
            refine ⟨w, a :: as, t ++ ','.toUInt8 :: t', ?_, texts.cons text manyText⟩
            rw [List.append_assoc, closed]
            simp
        next =>
          split
          next closed =>
            subst closed
            have behind := ((terminated_cons.mp inner).resolve_left fun h => noEnd h.1).2
            exact .read (by rw [split]; simp) behind.ne_nil ⟨t, rfl, texts.last text⟩
              (.cons meaning .nil)
          next => exact .malformed split (complete t ⟨[], a, by simpa using text⟩)
      · intro pre child split viable
        dsimp only
        rw [if_neg (by decide), if_neg (Ne.symm noEnd)]
        exact .malformed split (complete pre viable)

/-- The outcome for an array or an object. -/
theorem parseBrackets_outcome {parseItem : Bytes → Reading ((Fields F × Item F) × Bytes)}
    {α : Type} {single : α → Bytes → Prop} {many : List α → Bytes → Prop}
    {means : Fields F × Item F → α → Prop} {bound : Nat} (texts : ItemTexts single many)
    (items : ∀ value,
      Terminated value
      → value.length < bound
      → Outcome single means (fun _ => Viable single) value (parseItem value))
    (skips : ∀ value value', skip value = .ok value' → parseItem value' = parseItem value)
    {opening close : UInt8} (filled : opening ≠ 0) (noEnd : close ≠ 0) {type : ItemType}
    {value : List α → Json F}
    (empty : ∀ b, Blank b → ValueText (value []) (opening :: (b ++ [close])))
    (inside : ∀ as t, many as t → ValueText (value as) (opening :: (t ++ [close])))
    (meaning : ∀ (fields : Fields F) (chain : Item F) (as : List α),
      fields.type = type
      → List.Forall₂ means chain.chain as
      → Means (fields, chain) (value as))
    (item : Fields F) {rest : Bytes} (terminated : Terminated (opening :: rest))
    (small : rest.length < bound) {fuel : Nat} (enough : rest.length < fuel)
    : Outcome ValueText (MeansNamed (item, .null)) TornString (opening :: rest)
        (parseBrackets parseItem opening close type fuel item (opening :: rest)) := by
  have behind := ((terminated_cons.mp terminated).resolve_left fun h => filled h.1).2
  obtain ⟨b, c, t, rfl, blank, -, inner, skipped⟩ := skip_cases behind
  simp only [parseBrackets, peek, Reading.ok_bind, List.drop_succ_cons, List.drop_zero, skipped]
  rw [if_neg (by simp)]
  split
  next closed =>
    subst closed
    have behind' := ((terminated_cons.mp inner).resolve_left fun h => noEnd h.1).2
    exact .read (by simp) behind'.ne_nil (empty b blank)
      ⟨rfl, meaning _ .null [] rfl .nil⟩
  next =>
    rw [parseItems_skip (skips _ _ skipped)]
    refine (parseItems_outcome texts items noEnd behind small enough).bind [opening] ?_
      (fun _ _ _ torn => torn.elim) ?_
    · intro as t' rest' chain split filled' text meaning'
      obtain ⟨t', rfl, manyText⟩ := text
      exact .read (by rw [split]; simp) filled' (inside as t' manyText)
        ⟨rfl, meaning _ chain as rfl meaning'⟩
    · intro pre viable
      obtain ⟨w, as, t', closed, manyText⟩ := viable
      exact viable_of (inside as t' manyText)
        (by rw [← closed, List.append_assoc, List.singleton_append])

/-- The outcome for a value that starts with a quotation mark. -/
theorem parseQuoted_outcome (fuel : Nat) (item : Fields F) {value : Bytes}
    (terminated : Terminated (Json.quote :: value))
    (short : (Json.quote :: value).length ≤ 2 ^ 31)
    : Outcome ValueText (MeansNamed (item, .null)) TornString (Json.quote :: value)
        (parseValue (fuel + 1) item (Json.quote :: value)) := by
  rw [parseValue_string]
  rcases parseString_cases item terminated short with
    refused | ⟨fault, text, split⟩ | ⟨refused, limited⟩
    | ⟨raw, stop, rest, s, split, stops, escaped, read⟩
  · rw [refused]
    exact .malformed rfl viable_nil
  · rw [fault]
    exact .outside split
  · rw [refused]
    exact .memory limited
  · rw [read]
    rw [split] at terminated ⊢
    have behind := (@Terminated.of_append (Json.quote :: raw) (stop :: rest) terminated (by simp)).2
    rcases terminated_cons.mp behind with ⟨rfl, rfl⟩ | ⟨filled, behind'⟩
    · have other : (0 : UInt8) ≠ Json.quote := by decide
      simp only [if_neg other, Reading.ok_bind]
      exact .unclosed rfl ⟨raw, s, rfl, escaped, rfl⟩
    · obtain rfl := stops.resolve_right filled
      simp only [if_true, Reading.ok_bind]
      exact .read (by simp) behind'.ne_nil (.string escaped) ⟨rfl, rfl⟩

/-- The outcome for a value. -/
theorem parseValue_outcome (fuel : Nat) (short : fuel ≤ 2 ^ 31 + 1)
    : ParsesValues (F := F) (parseValue fuel) fuel := by
  induction fuel with
  | zero =>
      intro item value _ enough
      omega
  | succ fuel ih =>
      have ih := ih (by omega)
      intro item value terminated enough
      obtain ⟨null, false, true⟩ :
          (∀ c ∈ keyword "null", c ≠ 0)
          ∧ (∀ c ∈ keyword "false", c ≠ 0)
          ∧ ∀ c ∈ keyword "true", c ≠ 0 := by
        decide
      rcases startsWith_cases null terminated with noNull | ⟨rest, rfl, filled, -⟩
      swap
      · rw [(parseValue_keyword fuel item rest).1]
        exact .read rfl filled .null ⟨rfl, rfl⟩
      rcases startsWith_cases false terminated with noFalse | ⟨rest, rfl, filled, -⟩
      swap
      · rw [(parseValue_keyword fuel item rest).2.1]
        exact .read rfl filled .false ⟨rfl, rfl⟩
      rcases startsWith_cases true terminated with noTrue | ⟨rest, rfl, filled, -⟩
      swap
      · rw [(parseValue_keyword fuel item rest).2.2]
        exact .read rfl filled .true ⟨rfl, rfl⟩
      cases value with
      | nil => exact absurd rfl terminated.ne_nil
      | cons c value =>
          have small : value.length < fuel := by
            rw [List.length_cons] at enough
            omega
          by_cases quoted : c = Json.quote
          · subst quoted
            exact parseQuoted_outcome fuel item terminated (by omega)
          by_cases number : c = '-'.toUInt8 ∨ isDigit c
          · rw [parseValue_number fuel item value number]
            obtain ⟨item', rest, read, behind⟩ := parseNumber_terminated item terminated
            obtain ⟨n, t, split, spelled, rfl⟩ := parseNumber_eq_ok ⟨c, value, rfl, number⟩ read
            rw [read]
            simp only [Reading.ok_bind]
            exact .read split behind.ne_nil (.number spelled) ⟨rfl, rfl⟩
          by_cases array : c = '['.toUInt8
          · subst array
            rw [parseValue_array]
            have texts : ItemTexts (ElementText (F := F)) fun js t => Text (.elements js) t :=
              ⟨.lastElement, .elements⟩
            exact parseBrackets_outcome texts
              (fun value terminated small => parseNewElement_outcome ih terminated small)
              (fun value value' => parseNewElement_skip _) (by decide) (by decide)
              (fun b blank => .emptyArray blank) (fun js t inside => .array inside)
              (fun fields chain js type means => means_array type means) item terminated small
              (Nat.lt_succ_of_lt small)
          by_cases object : c = '\x7b'.toUInt8
          · subst object
            rw [parseValue_object]
            have texts
                : ItemTexts (MemberText (F := F)) fun ms t => Text (.members ms) t :=
              ⟨.lastMember, .members⟩
            exact parseBrackets_outcome texts
              (fun value terminated small => parseMember_outcome ih (by omega) terminated small)
              (fun value value' => parseMember_skip _) (by decide) (by decide)
              (fun b blank => .emptyObject blank) (fun ms t inside => .object inside)
              (fun fields chain ms type means => means_object type means) item terminated small
              (Nat.lt_succ_of_lt small)
          · simp only [parseValue, noNull, noFalse, noTrue, peek, Reading.ok_bind]
            rw [if_neg (by decide), if_neg (by decide), if_neg (by decide), if_neg quoted,
              if_neg number, if_neg array, if_neg object]
            exact .malformed rfl viable_nil

end Parts

section Calls

variable {F : Type} [CDouble F]

/-- The texts that are accepted, with their values: those that spell the value between blanks, and
those that end inside a string.
-/
def Accepted (j : Json F) (s : Bytes) : Prop :=
  ElementText j s
  ∨ ∃ b raw,
      ∃ str : CString, s = b ++ Json.quote :: raw ∧ Blank b ∧ Escaped raw str.val ∧ j = .string str

/-- A terminated text is the whole text in front of its terminator. -/
theorem eq_of_terminator {s t rest : Bytes} (nulFree : ∀ c ∈ s, c ≠ 0)
    (split : s ++ [0] = t ++ 0 :: rest)
    : s = t ∧ rest = [] := by
  have terminated : Terminated (t ++ 0 :: rest) := ⟨⟨s, nulFree⟩, split.symm⟩
  rcases terminated_cons.mp (terminated.of_append (by simp)).2 with ⟨-, rfl⟩ | ⟨filled, -⟩
  · exact ⟨List.append_cancel_right split, rfl⟩
  · exact absurd rfl filled

variable [Supply]

/-- The outcome for the value in a text, behind the blanks in front of it. -/
theorem outcome_of_text (s : CString) (short : s.val.length < 2 ^ 31)
    : ∃ b start,
        s.val ++ [0] = b ++ start
        ∧ Blank b
        ∧ Terminated start
        ∧ skip (s.val ++ [0]) = .ok start
        ∧ Outcome ValueText (MeansNamed ((newItem : Fields F), .null)) TornString start
            (parseValue ((s.val ++ [0]).length + 1) newItem start) := by
  obtain ⟨b, c, rest, split, blank, -, inner, skipped⟩ := skip_cases ⟨s, rfl⟩
  have enough : (c :: rest).length < (s.val ++ [0]).length + 1 := by
    rw [split, List.length_append]
    omega
  have small : (s.val ++ [0]).length + 1 ≤ 2 ^ 31 + 1 := by
    rw [List.length_append, List.length_singleton]
    omega
  exact ⟨b, c :: rest, split, blank, inner, skipped,
    parseValue_outcome _ small newItem _ inner enough⟩

/-- What the parser makes of a text that is shorter than an `int` can count: it returns an item and
the text behind it, or a null pointer with a place up to which the text can be completed, or reads
behind the text, or returns a null pointer since memory is refused. Only a last backslash leads it
behind the text; it always returns, and never writes behind the memory of a string.
-/
theorem cJSONParseWithOpts_cases (s : CString) (short : s.val.length < 2 ^ 31) (require : Bool)
    : (∃ item finish pre,
        cJSONParseWithOpts (F := F) (s.val ++ [0]) require = .ok (item, finish)
        ∧ s.val ++ [0] = pre ++ finish)
      ∨ (∃ ep pre,
          cJSONParseWithOpts (F := F) (s.val ++ [0]) require = .error (.malformed ep)
          ∧ s.val ++ [0] = pre ++ ep
          ∧ Viable (ElementText (F := F)) pre)
      ∨ (cJSONParseWithOpts (F := F) (s.val ++ [0]) require = outside
        ∧ ∃ text, s.val = text ++ [backslash])
      ∨ cJSONParseWithOpts (F := F) (s.val ++ [0]) require = .error .memory
        ∧ ¬Supplied (2 ^ 31) := by
  rw [cJSONParseWithOpts]
  rcases @cJSONNewItem_cases F _ _ with given | ⟨refused, limited⟩
  swap
  · rw [refused]
    exact .inr (.inr (.inr ⟨rfl, limited⟩))
  obtain ⟨b, start, split, blank, inner, skipped, outcome⟩ := outcome_of_text (F := F) s short
  rw [given, Reading.ok_bind, skipped, Reading.ok_bind]
  generalize parseValue ((s.val ++ [0]).length + 1) (newItem : Fields F) start = result at outcome
  cases outcome with
  | @read j t rest' child split' filled text _ =>
      rw [split'] at inner
      obtain ⟨b', c', rest'', rfl, blank', -, -, skipped'⟩ :=
        skip_cases (inner.of_append filled).2
      simp only [Reading.ok_bind, skipped', peek]
      cases require with
      | false => exact .inl ⟨_, _, b ++ t, rfl, by rw [split, split', List.append_assoc]⟩
      | true =>
          rw [if_pos rfl]
          split
          next =>
            have element : ElementText j (b ++ (t ++ b')) := .element blank text blank'
            exact .inr (.inl ⟨_, _, rfl, by rw [split, split']; simp,
              viable_of element (List.append_nil _).symm⟩)
          next => exact .inl ⟨_, _, b ++ (t ++ b'), rfl, by rw [split, split']; simp⟩
  | @unclosed pre child split' _ =>
      refine .inl ⟨.node child.1 child.2 .null, [0], b ++ pre, ?_, ?_⟩
      · cases require <;> rfl
      · rw [split, split', List.append_assoc]
  | malformed split' viable =>
      exact .inr (.inl ⟨_, _, rfl, by rw [split, split', List.append_assoc],
        viable_element blank viable⟩)
  | @outside text split' =>
      refine .inr (.inr (.inl ⟨rfl, b ++ text, ?_⟩))
      rw [split'] at split
      have block : s.val ++ [0] = (b ++ text ++ [backslash]) ++ [0] := by rw [split]; simp
      exact List.append_cancel_right block
  | memory refused => exact .inr (.inr (.inr ⟨rfl, refused⟩))

omit [Supply] in
/-- In the text of an opening bracket, a value is missed at its end. -/
theorem cJSONParseWithOpts_cases_bracket
    : ∃ ep pre,
        @cJSONParseWithOpts .unlimited ℚ _ (keyword "[" ++ [0]) false = .error (.malformed ep)
        ∧ keyword "[" ++ [0] = pre ++ ep
        ∧ Viable (ElementText (F := ℚ)) pre := by
  have refused
      : @cJSONParseWithOpts .unlimited ℚ _ (keyword "[" ++ [0]) false
        = .error (.malformed [0]) := rfl
  rcases @cJSONParseWithOpts_cases ℚ _ .unlimited ⟨keyword "[", by decide⟩ (by decide) false with
    ⟨_, _, _, read, -⟩ | malformed | ⟨fault, -⟩ | ⟨memory, -⟩
  · exact absurd (refused.symm.trans read) (by simp)
  · exact malformed
  · exact absurd (refused.symm.trans fault) (by simp [outside])
  · exact absurd (refused.symm.trans memory) (by simp)

/-- The simple call returns for every text that does not end in a backslash, also where memory is
refused.
-/
theorem cJSONParse_returns (s : CString) (short : s.val.length < 2 ^ 31)
    (other : ¬∃ text, s.val = text ++ [backslash])
    : ∃ item ep, cJSONParse (F := F) (s.val ++ [0]) = .ok (item, ep) := by
  rw [cJSONParse, cJSONParseWithOpts]
  rcases @cJSONNewItem_cases F _ _ with given | ⟨refused, -⟩
  swap
  · rw [refused]
    exact ⟨_, _, rfl⟩
  obtain ⟨b, start, split, -, -, skipped, outcome⟩ := outcome_of_text (F := F) s short
  rw [given, Reading.ok_bind, skipped, Reading.ok_bind]
  generalize parseValue ((s.val ++ [0]).length + 1) (newItem : Fields F) start = result at outcome
  cases outcome with
  | read => exact ⟨_, _, rfl⟩
  | unclosed => exact ⟨_, _, rfl⟩
  | malformed => exact ⟨_, _, rfl⟩
  | memory => exact ⟨_, _, rfl⟩
  | @outside text split' =>
      rw [split'] at split
      have block : s.val ++ [0] = (b ++ text ++ [backslash]) ++ [0] := by rw [split]; simp
      exact absurd ⟨b ++ text, List.append_cancel_right block⟩ other

/-- A short text of a value between blanks is accepted as a whole, whatever stands behind it. -/
theorem cJSONParseWithOpts_element (supplied : Supplied (2 ^ 31)) {j : Json F} {s : Bytes}
    (text : ElementText j s) (short : s.length < 2 ^ 31) (behind : Bytes)
    : ∃ item,
        cJSONParseWithOpts (s ++ 0 :: behind) true = .ok (item, 0 :: behind)
        ∧ item.value = some j := by
  obtain ⟨child, read, -, means⟩ :=
    parses supplied text short ((s ++ 0 :: behind).length + 1) newItem (0 :: behind)
      (by rw [List.length_append]; omega) ⟨0, behind, rfl, by decide, by decide⟩
  refine ⟨.node child.1 child.2 .null, ?_, means⟩
  rw [parseElement] at read
  obtain ⟨start, skipped, read⟩ := Reading.bind_eq_ok.mp read
  obtain ⟨⟨child', finish⟩, parsed, read⟩ := Reading.bind_eq_ok.mp read
  obtain ⟨last, skipped', read⟩ := Reading.bind_eq_ok.mp read
  obtain ⟨rfl, rfl⟩ := by simpa using read
  simp only [cJSONParseWithOpts, cJSONNewItem_eq supplied, skipped, parsed, skipped',
    Reading.ok_bind, if_true, peek]
  rfl

/-- Where memory is given, a short text is accepted as a whole, as a value, exactly when it spells
the value or ends inside the string.
-/
theorem accepts_iff (supplied : Supplied (2 ^ 31)) (s : CString) (short : s.val.length < 2 ^ 31)
    (j : Json F)
    : (∃ item finish,
        cJSONParseWithOpts (s.val ++ [0]) true = .ok (item, finish) ∧ item.value = some j)
      ↔ Accepted j s.val := by
  constructor
  · rintro ⟨item, finish, accepted, value⟩
    obtain ⟨b, start, split, blank, inner, skipped, outcome⟩ := outcome_of_text (F := F) s short
    simp only [cJSONParseWithOpts, cJSONNewItem_eq supplied, skipped, Reading.ok_bind] at accepted
    generalize parseValue ((s.val ++ [0]).length + 1) (newItem : Fields F) start = result
      at outcome accepted
    cases outcome with
    | malformed => exact absurd accepted (by simp)
    | outside => exact absurd accepted (by simp [outside])
    | memory => exact absurd accepted (by simp)
    | @read j' t rest' child split' filled text meaning =>
        rw [split'] at inner split
        obtain ⟨b', c', rest'', rfl, blank', -, -, skipped'⟩ :=
          skip_cases (inner.of_append filled).2
        simp only [Reading.ok_bind, skipped', peek, if_true] at accepted
        split at accepted
        next => exact absurd accepted (by simp)
        next last =>
          obtain rfl : c' = 0 := not_not.mp last
          obtain ⟨rfl, rfl⟩ := by simpa using accepted
          obtain rfl : j = j' := Option.some.inj (value.symm.trans meaning.2)
          have block : s.val ++ [0] = (b ++ (t ++ b')) ++ 0 :: rest'' := by rw [split]; simp
          have whole := (eq_of_terminator s.property block).1
          exact .inl (whole ▸ .element blank text blank')
    | @unclosed pre child split' isTorn =>
        obtain ⟨raw, str, rfl, escaped, means⟩ := isTorn
        have same : skip [0] = .ok [0] := rfl
        simp only [Reading.ok_bind, same, peek, if_true] at accepted
        obtain ⟨rfl, rfl⟩ := by simpa using accepted
        rw [split', ← List.append_assoc] at split
        exact .inr ⟨b, raw, str, List.append_cancel_right split, blank, escaped,
          Option.some.inj (value.symm.trans means)⟩
  · rintro (text | ⟨b, raw, str, split, blank, escaped, rfl⟩)
    · obtain ⟨item, accepted, means⟩ := cJSONParseWithOpts_element supplied text short []
      exact ⟨item, [0], accepted, means⟩
    · refine ⟨.node (withString newItem str) .null .null, [0], ?_, rfl⟩
      have block : s.val ++ [0] = b ++ Json.quote :: (raw ++ [0]) := by rw [split]; simp
      have skipped := @skip_append b blank Json.quote (by decide) (raw ++ [0])
      have fits : raw.length + 1 < 2 ^ 31 := by
        rw [split, List.length_append, List.length_cons] at short
        omega
      have read := parseString_escaped (newItem : Fields F) supplied escaped fits (.inr rfl) []
      have same : skip [0] = .ok [0] := rfl
      rw [if_neg (by decide)] at read
      rw [block]
      simp only [cJSONParseWithOpts, cJSONNewItem_eq supplied, skipped, Reading.ok_bind,
        parseValue_string, read, same, peek]
      rfl

/-- What is accepted as a whole is what spells its value in the grammar of cJSON, in which a number
has the value that `parse_number` computes. An integer that is represented exactly is read as
itself, and where nothing is rounded, a number is read as the decimal fraction that it denotes.
-/
theorem cJSONParseWithOpts_accepts_iff [ExactIntegers F] (supplied : Supplied (2 ^ 31))
    (s : CString) (short : s.val.length < 2 ^ 31) (j : Json F)
    : ((∃ item finish,
          cJSONParseWithOpts (s.val ++ [0]) true = .ok (item, finish) ∧ item.value = some j)
        ↔ Accepted j s.val)
      ∧ (∀ n : Numeral,
          n.IsInteger
          → digitsValue n.digits ≤ 2 ^ 53
          → (n.negative → digitsValue n.digits ≠ 0)
          → (n.value : F) = CDouble.ofInt n.integer)
      ∧ ∀ n : Numeral, n.ShortExponent → (n.value : ℚ) = n.rational :=
  ⟨accepts_iff supplied s short j, fun _ => Numeral.value_integer, fun _ => Numeral.value_rational⟩

omit [Supply] in
/-- A text of an array is accepted exactly if it spells the array. -/
theorem cJSONParseWithOpts_accepts_array
    : (∃ item finish,
        @cJSONParseWithOpts .unlimited ℚ _ (keyword "[7]" ++ [0]) true = .ok (item, finish)
        ∧ item.value = some (.array [.number 7]))
      ↔ Accepted (.array [.number (7 : ℚ)]) (keyword "[7]") :=
  (@cJSONParseWithOpts_accepts_iff ℚ _ .unlimited _ (supplied_unlimited _)
    ⟨keyword "[7]", by decide⟩ (by decide) _).1

end Calls

end Cvos.LibJson

import Cvos.LibJson.PrintTexts

/-! What is laid out for an item is written into memory of its size, as long as no size passes the
bound of an `int`. Where memory is refused, a null pointer is returned and nothing is written.
-/

namespace Cvos.LibJson

open Cvos.Lib Json

section Sizes

/-- As many bytes are counted for a character as are written. -/
theorem length_escapeCharacter (c : UInt8) : (escapeCharacter c).length = escapedSize c := by
  rw [escapeCharacter, escapedSize]
  split
  next plain =>
    have unlettered : escapeLetter c = none := by
      rw [escapeLetter, if_neg plain.2.2, if_neg plain.2.1]
      split_ifs with h1 h2 h3 h4 h5
      · exact absurd plain.1 (by rw [h1]; decide)
      · exact absurd plain.1 (by rw [h2]; decide)
      · exact absurd plain.1 (by rw [h3]; decide)
      · exact absurd plain.1 (by rw [h4]; decide)
      · exact absurd plain.1 (by rw [h5]; decide)
      · rfl
    have above : ¬c < 32 := fun below => by
      have low := UInt8.lt_iff_toNat_lt.mp below
      have high := UInt8.lt_iff_toNat_lt.mp plain.1
      change c.toNat < 32 at low
      change 31 < c.toNat at high
      omega
    rw [unlettered, if_neg (by simp), if_neg above, List.length_singleton]
  next special =>
    cases letter : escapeLetter c with
    | some l => simp
    | none =>
        have low := control_of_special special letter
        have small : c < 32 := by
          rw [UInt8.lt_iff_toNat_lt]
          exact Nat.lt_succ_of_le low
        simp [small, hex04]

/-- As many bytes are counted for the characters of a string as are written. -/
theorem length_flatMap_escapeCharacter (s : Bytes)
    : (s.flatMap escapeCharacter).length = (s.map escapedSize).sum := by
  induction s with
  | nil => rfl
  | cons c s ih =>
      rw [List.flatMap_cons, List.length_append, List.map_cons, List.sum_cons, ih,
        length_escapeCharacter]

/-- The bytes of a short string are counted in an `int`. -/
theorem escapedLength_eq {s : Bytes} {len : Nat} (short : len + (s.map escapedSize).sum < 2 ^ 31)
    : escapedLength s len = (len + (s.map escapedSize).sum : Nat) := by
  induction s generalizing len with
  | nil => rfl
  | cons c s ih =>
      rw [List.map_cons, List.sum_cons] at short ⊢
      have some : 1 ≤ escapedSize c := by
        rw [escapedSize]
        split_ifs <;> decide
      have passed := @int32_natCast (len + escapedSize c) (by omega)
      rw [Nat.cast_add] at passed
      rw [escapedLength, int32_succ (by omega), if_neg (by omega), passed, ← Nat.cast_add,
        ih (by omega), Nat.add_assoc]

/-- A short string asks for its bytes and a terminator. -/
theorem needed_printStringPtr {str : Option CString}
    (short : (printStringPtr str).text.length + 1 < 2 ^ 31)
    : (printStringPtr str).needed = (printStringPtr str).text.length + 1 := by
  cases str with
  | none => rfl
  | some str =>
      rw [printStringPtr] at short ⊢
      split at short
      next special =>
        rw [if_pos special]
        simp only [List.length_cons, List.length_append, List.length_nil,
          length_flatMap_escapeCharacter] at short ⊢
        have counted := @escapedLength_eq str.val 0 (by omega)
        rw [Nat.cast_zero, Nat.zero_add] at counted
        rw [counted, int32_eq_self (by omega) (by omega)]
        omega
      next plain =>
        rw [if_neg plain]
        simp only [List.length_cons, List.length_append, List.length_nil] at short ⊢
        rw [int32_natCast (by omega), int32_eq_self (by omega) (by omega)]
        omega

/-- A short object without members asks for its bytes and a terminator. -/
theorem needed_emptyObject {fmt : Bool} {depth : Nat}
    (short : (objectText fmt depth []).length + 1 < 2 ^ 31)
    : (if fmt then int32 (depth + 4) else 3) = ((objectText fmt depth []).length : Int) + 1 := by
  cases fmt with
  | true =>
      have length : (objectText true depth []).length = depth + 3 := by
        simp [objectText, objectBody, formatted, tabs]
      rw [if_pos rfl, int32_eq_self (by omega) (by omega), length]
      omega
  | false => rfl

/-- The elements of an array, with what stands behind the first one. -/
theorem arrayBody_cons (fmt : Bool) (text : Bytes) (rest : List Bytes)
    : arrayBody fmt (text :: rest)
      = text
        ++ ((if rest.isEmpty then [] else ','.toUInt8 :: formatted fmt [' '.toUInt8])
          ++ arrayBody fmt rest) := by
  cases rest <;> simp [arrayBody]

/-- What is only written if the output is formatted. -/
theorem length_formatted (fmt : Bool) (bytes : Bytes)
    : (formatted fmt bytes).length = if fmt then bytes.length else 0 := by
  cases fmt <;> rfl

/-- The bytes that are counted for the elements of an array, against those between its brackets. -/
theorem sizes_arrayBody (fmt : Bool) (entries : List (Bytes × Bytes))
    : (arrayBody fmt (entries.map Prod.snd)).length
        ≤ (entries.map fun entry => entry.2.length + 2 + if fmt then 1 else 0).sum
      ∧ (entries.map fun entry => entry.2.length + 2 + if fmt then 1 else 0).sum
        ≤ 2 * (arrayBody fmt (entries.map Prod.snd)).length + 3
      ∧ entries.length ≤ (arrayBody fmt (entries.map Prod.snd)).length + 1
      ∧ ∀ entry ∈ entries, entry.2.length ≤ (arrayBody fmt (entries.map Prod.snd)).length := by
  induction entries with
  | nil => exact ⟨Nat.le_refl 0, Nat.zero_le _, Nat.zero_le _, nofun⟩
  | cons entry entries ih =>
      have one : (if fmt then 1 else 0) ≤ 1 := by split <;> decide
      obtain ⟨above, below, count, members⟩ := ih
      simp only [List.map_cons, List.sum_cons, arrayBody_cons, List.isEmpty_map,
        List.length_append, List.length_cons]
      cases entries with
      | nil =>
          simp only [List.isEmpty_nil, if_true, List.map_nil, List.sum_nil, List.length_nil,
            arrayBody]
          refine ⟨by omega, by omega, by omega, fun e member => ?_⟩
          obtain rfl := List.mem_singleton.mp member
          omega
      | cons second entries =>
          simp only [List.isEmpty_cons, Bool.false_eq_true, if_false, List.length_cons,
            length_formatted, List.length_nil, Nat.zero_add] at above below count members ⊢
          refine ⟨by omega, by omega, by omega, fun e member => ?_⟩
          rcases List.mem_cons.mp member with rfl | behind
          · omega
          · have inside := members e behind
            omega

/-- The sizes of the elements of an array, against the length of its text. -/
theorem sizes_arrayText (fmt : Bool) (entries : List (Bytes × Bytes))
    : (arrayText fmt (entries.map Prod.snd)).length < arrayLength fmt entries
      ∧ arrayLength fmt entries ≤ 2 * (arrayText fmt (entries.map Prod.snd)).length + 4
      ∧ entries.length ≤ (arrayText fmt (entries.map Prod.snd)).length
      ∧ ∀ entry ∈ entries, entry.2.length ≤ (arrayText fmt (entries.map Prod.snd)).length := by
  obtain ⟨above, below, count, members⟩ := sizes_arrayBody fmt entries
  simp only [arrayText, arrayLength, List.length_cons, List.length_append, List.length_nil]
  refine ⟨by omega, by omega, by omega, fun entry member => ?_⟩
  have inside := members entry member
  omega

/-- Each tab is a byte. -/
theorem length_tabs (depth : Nat) : (tabs depth).length = depth := List.length_replicate

/-- The tabs, the tab behind a name and the end of the line are counted together. -/
theorem formattedSize_eq (fmt : Bool) (depth : Nat)
    : (if fmt then 2 + depth else 0) = (if fmt then depth else 0) + 2 * if fmt then 1 else 0 := by
  cases fmt with
  | true => exact Nat.add_comm 2 depth
  | false => rfl

/-- The bytes that are counted for the members of an object, against those of their lines. -/
theorem sizes_objectBody (fmt : Bool) (depth : Nat) (entries : List (Bytes × Bytes))
    : (objectBody fmt depth entries).length
        ≤ (entries.map fun entry =>
            entry.2.length + entry.1.length + 2 + if fmt then 2 + depth else 0).sum
      ∧ (entries.map fun entry =>
            entry.2.length + entry.1.length + 2 + if fmt then 2 + depth else 0).sum
        ≤ 2 * (objectBody fmt depth entries).length
      ∧ entries.length ≤ (objectBody fmt depth entries).length
      ∧ ∀ entry ∈ entries,
          entry.1.length ≤ (objectBody fmt depth entries).length
          ∧ entry.2.length ≤ (objectBody fmt depth entries).length := by
  induction entries with
  | nil => exact ⟨Nat.le_refl 0, Nat.zero_le _, Nat.zero_le _, nofun⟩
  | cons entry entries ih =>
      obtain ⟨name, text⟩ := entry
      have comma : (if entries.isEmpty then [] else [','.toUInt8]).length ≤ 1 := by
        split <;> simp
      obtain ⟨above, below, count, members⟩ := ih
      simp only [objectBody, List.map_cons, List.sum_cons, List.length_append, List.length_cons,
        List.length_nil, Nat.zero_add, length_formatted, length_tabs, formattedSize_eq]
        at above below ⊢
      refine ⟨by omega, by omega, by omega, fun e member => ?_⟩
      rcases List.mem_cons.mp member with rfl | behind
      · exact ⟨show name.length ≤ _ by omega, show text.length ≤ _ by omega⟩
      · have inside := members e behind
        exact ⟨by omega, by omega⟩

/-- The sizes of the members of an object, against the length of its text. -/
theorem sizes_objectText (fmt : Bool) (depth : Nat) (entries : List (Bytes × Bytes))
    : (objectText fmt depth entries).length < objectLength fmt (depth + 1) entries
      ∧ objectLength fmt (depth + 1) entries ≤ 2 * (objectText fmt depth entries).length + 4
      ∧ entries.length ≤ (objectText fmt depth entries).length
      ∧ ∀ entry ∈ entries,
          entry.1.length ≤ (objectText fmt depth entries).length
          ∧ entry.2.length ≤ (objectText fmt depth entries).length := by
  obtain ⟨above, below, count, members⟩ := sizes_objectBody fmt (depth + 1) entries
  have deeper
      : (if fmt then depth + 1 else 0)
        = (if fmt then depth else 0) + if fmt then 1 else 0 := by
    cases fmt <;> rfl
  simp only [objectText, objectLength, List.length_cons, List.length_append, List.length_nil,
    Nat.zero_add, length_formatted, length_tabs, deeper]
  refine ⟨by omega, by omega, by omega, fun entry member => ?_⟩
  have inside := members entry member
  exact ⟨by omega, by omega⟩

end Sizes

section Numbers

variable {F : Type} [CDouble F]

/-- The item is no number, or its text fits into the bytes that are asked for. -/
def NumberFits (fields : Fields F) : Prop :=
  fields.type = .number → (printNumber fields).text.length < (printNumber fields).needed

/-- The texts of all numbers of a chain fit. -/
def NumbersFit : Item F → Prop
  | .null => True
  | .node fields child next => NumberFits fields ∧ NumbersFit child ∧ NumbersFit next

/-- The text of a number that is an `int` fits. -/
theorem WholeNumbers.fit [ExactIntegers F] {item : Item F} (whole : WholeNumbers item)
    : NumbersFit item := by
  induction item with
  | null => trivial
  | node fields child next ih ih' =>
      obtain ⟨number, below, behind⟩ := whole
      exact ⟨fun type => (printNumber_eq number type).2, ih below, ih' behind⟩

/-- A number asks for few bytes. -/
theorem needed_printNumber (fields : Fields F) : (printNumber fields).needed ≤ 64 := by
  rw [printNumber]
  split_ifs <;> simp

omit [CDouble F] in
/-- Only in an empty chain no items are counted, if it is not too long. -/
theorem numentries_eq_zero_iff {child : Item F} (few : child.chain.length < 2 ^ 31)
    : numentries child = 0 ↔ child.chain = [] := by
  rw [numentries, int32_natCast few, Int.natCast_eq_zero, List.length_eq_zero_iff]

omit [CDouble F] in
/-- In an empty chain no items are counted. -/
theorem numentries_null : numentries (.null : Item F) = 0 :=
  (numentries_eq_zero_iff (by rw [Item.chain, List.length_nil]; decide)).mpr rfl

omit [CDouble F] in
/-- In a chain that is not too long an item is counted. -/
theorem numentries_node {fields : Fields F} {child next : Item F}
    (few : (Item.node fields child next).chain.length < 2 ^ 31)
    : numentries (.node fields child next) ≠ 0 :=
  mt (numentries_eq_zero_iff few).mp (by simp [Item.chain])

/-- There is a text for each item of a chain. -/
theorem length_texts (fmt : Bool) (parent : ItemType) (depth : Nat) (chain : Item F)
    : (chain.texts fmt parent depth).length = chain.chain.length := by
  induction chain generalizing parent depth with
  | null => rfl
  | node fields child next _ ih =>
      rw [Item.texts, Item.chain, List.length_cons, List.length_cons, ih]

/-- An element has no name. -/
theorem name_eq_nil (fmt : Bool) {parent : ItemType} (isArray : parent ≠ .object) (depth : Nat)
    (chain : Item F) {entry : Bytes × Bytes} (member : entry ∈ chain.texts fmt parent depth)
    : entry.1 = [] := by
  induction chain with
  | null => exact absurd member (by simp [Item.texts])
  | node fields child next _ ih =>
      rw [Item.texts, nameText, if_neg isArray] at member
      rcases List.mem_cons.mp member with rfl | behind
      · rfl
      · exact ih behind

end Numbers

section Delivery

variable [Supply]

/-- Something is delivered, unless memory is refused. -/
def Delivers {α : Type} (result : Checked (Option α)) (a : α) : Prop :=
  result = .ok (some a) ∨ result = .ok none ∧ ¬Supplied (2 ^ 33)

/-- Where memory is given, it is delivered. -/
theorem Delivers.supplied {α : Type} {result : Checked (Option α)} {a : α}
    (delivers : Delivers result a) (supplied : Supplied (2 ^ 33))
    : result = .ok (some a) :=
  delivers.resolve_right fun refused => refused.2 supplied

/-- What is delivered is handed on, and a null pointer leads to another. -/
theorem Delivers.bind {α β : Type} {result : Checked (Option α)} {a : α}
    {next : Option α → Checked (Option β)} {b : β} (delivers : Delivers result a)
    (refused : next none = .ok none) (delivers' : Delivers (next (some a)) b)
    : Delivers (result >>= next) b := by
  rcases delivers with rfl | ⟨rfl, limited⟩
  · exact delivers'
  · exact .inr ⟨refused, limited⟩

/-- A text that fits is written. -/
theorem delivers_filled {size : Int} {text : Bytes} (fits : text.length < size)
    (small : size < 2 ^ 33)
    : Delivers (filled size text) text := by
  obtain ⟨n, rfl⟩ := Int.eq_ofNat_of_zero_le (by omega : 0 ≤ size)
  rw [filled]
  cases given : mallocInt n with
  | none => exact .inr ⟨rfl, not_supplied (by omega) given⟩
  | some given' =>
      obtain rfl : n = given' := Int.ofNat_inj.mp (mallocInt_eq_some given)
      exact .inl (if_pos (Int.ofNat_lt.mp fits))

/-- A text below a length that is an `int` is written into as many bytes. -/
theorem delivers_filled_int32 {len : Nat} {text : Bytes} (fits : text.length < len)
    (small : len < 2 ^ 31)
    : Delivers (filled (int32 len) text) text := by
  rw [int32_natCast small]
  exact delivers_filled (by omega) (by omega)

/-- A short string is written. -/
theorem delivers_string {str : Option CString}
    (short : (printStringPtr str).text.length + 64 ≤ 2 ^ 30)
    : Delivers (printStringPtr str).alone (printStringPtr str).text := by
  have needed := @needed_printStringPtr str (by omega)
  exact delivers_filled (by omega) (by omega)

/-- The name in front of a value is written. -/
theorem delivers_name {parent : ItemType} {string : Option CString}
    (short : (nameText parent string).length + 64 ≤ 2 ^ 30)
    : Delivers (printName parent string) (nameText parent string) := by
  rw [printName, nameText] at *
  split at short
  next isObject =>
    rw [if_pos isObject, if_pos isObject]
    exact delivers_string short
  next other =>
    rw [if_neg other, if_neg other]
    exact .inl rfl

variable {F : Type} [CDouble F] {fmt : Bool} {depth : Nat} {child : Item F}
  {items : Nat → Checked (Option (List (Bytes × Bytes)))} {entries : List (Bytes × Bytes)}

omit [CDouble F] in
/-- The texts of a few items are collected, in memory for as many pointers. -/
theorem delivers_items (count : entries.length = child.chain.length) (filled : entries ≠ [])
    (few : entries.length < 2 ^ 30)
    (below : ∀ slots, entries.length ≤ slots → Delivers (items slots) entries)
    : numentries child ≠ 0
      ∧ (mallocInt (numentries child * 8) = none ∧ ¬Supplied (2 ^ 33)
        ∨ ∃ size,
            mallocInt (numentries child * 8) = some size
            ∧ Delivers (items (size / 8)) entries) := by
  have some := List.length_pos_iff.mpr filled
  have counted : numentries child = entries.length := by
    rw [numentries, ← count, int32_natCast (by omega)]
  have size : (entries.length : Int) * 8 = (entries.length * 8 : Nat) := by omega
  rw [counted, size]
  refine ⟨by omega, ?_⟩
  cases given : mallocInt (entries.length * 8 : Nat) with
  | none => exact .inl ⟨rfl, not_supplied (by omega) given⟩
  | some size' =>
      obtain rfl : entries.length * 8 = size' := Int.ofNat_inj.mp (mallocInt_eq_some given)
      exact .inr ⟨_, rfl, below _ (by omega)⟩

omit [CDouble F] in
/-- A short array is written. -/
theorem delivers_printArray (count : entries.length = child.chain.length)
    (short : (arrayText fmt (entries.map Prod.snd)).length + 64 ≤ 2 ^ 30)
    (below : ∀ slots, entries.length ≤ slots → Delivers (items slots) entries)
    : Delivers (printArray fmt (numentries child) items)
        (arrayText fmt (entries.map Prod.snd)) := by
  obtain ⟨fits, small, few, -⟩ := sizes_arrayText fmt entries
  rw [printArray]
  cases entries with
  | nil =>
      have none : numentries child = 0 :=
        (numentries_eq_zero_iff (by omega)).mpr (List.length_eq_zero_iff.mp count.symm)
      rw [if_pos none]
      exact delivers_filled (by decide) (by decide)
  | cons entry entries =>
      obtain ⟨some, refused | ⟨size, given, delivers⟩⟩ :=
        delivers_items count (by simp) (by omega) below
      · rw [if_neg some, refused.1]
        exact .inr ⟨rfl, refused.2⟩
      · rw [if_neg some, given]
        exact delivers.bind rfl (delivers_filled_int32 fits (by omega))

omit [CDouble F] in
/-- A short object is written. -/
theorem delivers_printObject (count : entries.length = child.chain.length)
    (short : (objectText fmt depth entries).length + 64 ≤ 2 ^ 30)
    (below : ∀ slots, entries.length ≤ slots → Delivers (items slots) entries)
    : Delivers (printObject fmt depth (numentries child) items)
        (objectText fmt depth entries) := by
  obtain ⟨fits, small, few, -⟩ := sizes_objectText fmt depth entries
  rw [printObject]
  cases entries with
  | nil =>
      have none : numentries child = 0 :=
        (numentries_eq_zero_iff (by omega)).mpr (List.length_eq_zero_iff.mp count.symm)
      rw [if_pos none, needed_emptyObject (by omega)]
      exact delivers_filled (Int.lt_succ _) (by omega)
  | cons entry entries =>
      obtain ⟨some, refused | ⟨size, given, delivers⟩⟩ :=
        delivers_items count (by simp) (by omega) below
      · rw [if_neg some, refused.1]
        exact .inr ⟨rfl, refused.2⟩
      · rw [if_neg some, given]
        exact delivers.bind rfl (delivers_filled_int32 fits (by omega))

/-- A short item is written. -/
theorem delivers_printFields (fmt : Bool) (depth : Nat) {fields : Fields F}
    (fits : NumberFits fields)
    (below : ∀ values slots,
      child.values = some values
      → child.chain.length ≤ slots
      → (∀ entry ∈ child.texts fmt fields.type (depth + 1),
          entry.1.length + 64 ≤ 2 ^ 30 ∧ entry.2.length + 64 ≤ 2 ^ 30)
      → Delivers (items slots) (child.texts fmt fields.type (depth + 1)))
    {j : Json F} (known : fields.value child.values = some j)
    (short : (fields.text fmt depth (child.texts fmt fields.type (depth + 1))).length + 64 ≤ 2 ^ 30)
    : Delivers (printFields fmt depth fields child items)
        (fields.text fmt depth (child.texts fmt fields.type (depth + 1))) := by
  have count := length_texts fmt fields.type (depth + 1) child
  rw [Fields.value] at known
  rw [printFields]
  rw [Fields.text] at short ⊢
  cases type : fields.type with
  | unset => simp [type] at known
  | null => exact delivers_filled (by decide) (by decide)
  | false => exact delivers_filled (by decide) (by decide)
  | true => exact delivers_filled (by decide) (by decide)
  | number =>
      have small := needed_printNumber fields
      exact delivers_filled (fits type) (by omega)
  | string =>
      simp only [type] at short
      exact delivers_string short
  | array =>
      obtain ⟨values, some, -⟩ := Option.map_eq_some_iff.mp (by simpa [type] using known)
      simp only [type] at short count below ⊢
      obtain ⟨-, -, -, inside⟩ := sizes_arrayText fmt (child.texts fmt .array (depth + 1))
      refine delivers_printArray count short fun slots room =>
        below values slots some (count ▸ room) fun entry member => ?_
      have within := inside entry member
      have nameless := @name_eq_nil F _ fmt .array (by decide) (depth + 1) child entry member
      rw [nameless, List.length_nil]
      exact ⟨by decide, by omega⟩
  | object =>
      obtain ⟨values, some, -⟩ := Option.map_eq_some_iff.mp (by simpa [type] using known)
      simp only [type] at short count below ⊢
      obtain ⟨-, -, -, inside⟩ := sizes_objectText fmt depth (child.texts fmt .object (depth + 1))
      refine delivers_printObject count short fun slots room =>
        below values slots some (count ▸ room) fun entry member => ?_
      have within := inside entry member
      exact ⟨by omega, by omega⟩

/-- The texts of the items of a chain are collected, if each is short. -/
theorem delivers_printChain (fmt : Bool) {chain : Item F} (fits : NumbersFit chain)
    (parent : ItemType) (depth : Nat) {slots : Nat} {values : List (Option CString × Json F)}
    (known : chain.values = some values) (room : chain.chain.length ≤ slots)
    (short : ∀ entry ∈ chain.texts fmt parent depth,
      entry.1.length + 64 ≤ 2 ^ 30 ∧ entry.2.length + 64 ≤ 2 ^ 30)
    : Delivers (printChain fmt parent depth slots chain) (chain.texts fmt parent depth) := by
  induction chain generalizing parent depth slots values with
  | null =>
      rw [printChain]
      exact .inl rfl
  | node fields child next ih ih' =>
      obtain ⟨number, below, behind⟩ := fits
      rw [Item.values] at known
      obtain ⟨j, value, known⟩ := Option.bind_eq_some_iff.mp known
      obtain ⟨rest, others, -⟩ := Option.bind_eq_some_iff.mp known
      rw [Item.chain, List.length_cons] at room
      obtain ⟨slots, rfl⟩ : ∃ left, slots = left + 1 := ⟨slots - 1, by omega⟩
      obtain ⟨⟨shortName, shortText⟩, shortRest⟩ := List.forall_mem_cons.mp short
      have text := @delivers_printFields _ F _ child _ fmt depth fields number
        (fun _ _ known room short => ih below fields.type (depth + 1) known room short) j value
        shortText
      have more := ih' behind parent depth others (Nat.le_of_succ_le_succ room) shortRest
      rw [printChain]
      rcases delivers_name shortName with named | ⟨named, limited⟩
      · rcases text with printed | ⟨printed, limited⟩
        · rw [named, Checked.ok_bind, printed, Checked.ok_bind]
          exact more.bind rfl (.inl rfl)
        · rw [named, Checked.ok_bind, printed, Checked.ok_bind]
          exact .inr ⟨rfl, limited⟩
      · rcases text with printed | ⟨printed, -⟩
        · rw [named, Checked.ok_bind, printed, Checked.ok_bind]
          exact .inr ⟨rfl, limited⟩
        · rw [named, Checked.ok_bind, printed, Checked.ok_bind]
          exact .inr ⟨rfl, limited⟩

/-- What is laid out for an item is delivered, if it is short. Where memory is refused, a null
pointer is returned.
-/
theorem delivers_printValue (fmt : Bool) (depth : Nat) {item : Item F} (fits : NumbersFit item)
    {j : Json F} (known : item.value = some j)
    (short : (item.text fmt depth).length + 64 ≤ 2 ^ 30)
    : Delivers (printValue fmt depth item) (item.text fmt depth) := by
  cases item with
  | null => simp [Item.value] at known
  | node fields child next =>
      obtain ⟨number, below, -⟩ := fits
      exact delivers_printFields fmt depth number
        (fun _ _ known room short => delivers_printChain fmt below _ _ known room short) known short

end Delivery

end Cvos.LibJson

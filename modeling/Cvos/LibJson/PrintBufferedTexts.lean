import Cvos.LibJson.PrintBuffered
import Cvos.LibJson.RoundTrip

/-! The buffered printer writes what the other one returns, whatever the size of the buffer at first
and whatever new memory holds.
-/

namespace Cvos.LibJson

open Cvos.Lib Json

/-- A line of `pow2gt` makes a number larger, but not longer. -/
theorem orShifted_bounds {x : BitVec 32} (small : x.toNat < 2 ^ 30) (shift : Nat)
    : x.toNat ≤ (orShifted shift x).toNat ∧ (orShifted shift x).toNat < 2 ^ 30 := by
  have positive : x.msb = false := BitVec.msb_eq_false_iff_two_mul_lt.mpr (by omega)
  rw [orShifted, BitVec.sshiftRight_eq_of_msb_false positive, BitVec.toNat_or,
    BitVec.toNat_ushiftRight]
  refine ⟨Nat.left_le_or, Nat.or_lt_two_pow small ?_⟩
  rw [Nat.shiftRight_eq_div_pow]
  exact Nat.lt_of_le_of_lt (Nat.div_le_self _ _) small

/-- Up to the largest power of two that is an `int`, one is found that is not too small. -/
theorem pow2gt_bounds {x : Nat} (positive : 0 < x) (small : x ≤ 2 ^ 30)
    : ∃ size : Nat, pow2gt x = size ∧ x ≤ size ∧ size ≤ 2 ^ 30 := by
  have start : (BitVec.ofInt 32 (x - 1)).toNat = x - 1 := by
    rw [BitVec.toNat_ofInt]
    omega
  obtain ⟨up₁, small₁⟩ := orShifted_bounds (by omega : (BitVec.ofInt 32 (x - 1)).toNat < 2 ^ 30) 1
  obtain ⟨up₂, small₂⟩ := orShifted_bounds small₁ 2
  obtain ⟨up₄, small₄⟩ := orShifted_bounds small₂ 4
  obtain ⟨up₈, small₈⟩ := orShifted_bounds small₄ 8
  obtain ⟨up, bound⟩ := orShifted_bounds small₈ 16
  rw [pow2gt]
  generalize orShifted 16 _ = y at up bound
  have next : (y + 1).toNat = y.toNat + 1 := by
    rw [BitVec.toNat_add]
    have one : (1 : BitVec 32).toNat = 1 := rfl
    omega
  refine ⟨y.toNat + 1, ?_, by omega, by omega⟩
  rw [BitVec.toInt_eq_toNat_of_lt (by omega), next]

/-- New memory has its size. -/
theorem length_fresh (contents : Nat → Nat → UInt8) (size : Nat)
    : (fresh contents size).length = size := by
  simp [fresh]

/-- The buffer holds a text up to its offset. -/
def PrintBuffer.Ends (p : PrintBuffer) (text : Bytes) : Prop :=
  ∃ spare, p.mem = some (text ++ spare) ∧ p.offset = text.length

/-- The buffer holds a string, of which a part at the end may lie behind the offset. -/
def PrintBuffer.Holds (p : PrintBuffer) (text : Bytes) : Prop :=
  ∃ spare, p.mem = some (text ++ 0 :: spare) ∧ p.offset ≤ text.length

section Buffer

/-- The offset is moved behind the string. -/
theorem update_holds {p : PrintBuffer} {text : Bytes} (holds : p.Holds text)
    (nulFree : ∀ c ∈ text, c ≠ 0)
    : ∃ p', update p = .ok p' ∧ p'.Ends text := by
  obtain ⟨mem, offset⟩ := p
  obtain ⟨spare, rfl, within⟩ := holds
  simp only at within
  have split : text ++ 0 :: spare = text.take offset ++ (text.drop offset ++ 0 :: spare) := by
    rw [← List.append_assoc, List.take_append_drop]
  have filled : ∀ c ∈ text.drop offset, (c != 0) = true := fun c member => by
    simpa using nulFree c (List.mem_of_mem_drop member)
  have scanned := scanWhile_append (text.take offset) spare filled (c := 0) rfl
  rw [← split, List.length_take, Nat.min_eq_left within] at scanned
  have updated
      : update ⟨some (text ++ 0 :: spare), offset⟩
        = .ok ⟨some (text ++ 0 :: spare), offset + (text.drop offset).length⟩ := by
    simp only [update, strlen, scanned, Checked.ok_bind, Nat.add_sub_cancel_left]
  refine ⟨_, updated, 0 :: spare, rfl, ?_⟩
  simp only [List.length_drop]
  omega

variable [Supply] (supplied : Supplied (2 ^ 31)) (contents : Nat → Nat → UInt8) {p : PrintBuffer}
  {text : Bytes}

include supplied

/-- Room is made behind the text. -/
theorem ensure_ends (ends : p.Ends text) {needed : Int} (positive : 0 ≤ needed)
    (small : needed + text.length ≤ 2 ^ 30)
    : ∃ spare,
        ensure contents needed p = .ok ⟨some (text ++ spare), text.length⟩
        ∧ needed ≤ spare.length := by
  obtain ⟨mem, offset⟩ := p
  obtain ⟨spare, rfl, rfl⟩ := ends
  obtain ⟨n, rfl⟩ := Int.eq_ofNat_of_zero_le positive
  have sum : int32 (n + text.length) = (n + text.length : Nat) := by
    rw [int32_eq_self (by omega) (by omega), Nat.cast_add]
  rw [ensure]
  simp only [sum]
  by_cases room : n + text.length ≤ (text ++ spare).length
  · rw [if_pos (Int.ofNat_le.mpr room)]
    rw [List.length_append] at room
    exact ⟨spare, rfl, by omega⟩
  · obtain ⟨size, found, above, below⟩ :=
      @pow2gt_bounds (n + text.length) (by omega) (by omega)
    rw [if_neg (mt Int.ofNat_le.mp room), found, mallocInt_eq supplied (by omega)]
    rw [List.length_append] at room
    refine ⟨spare ++ (fresh contents size).drop (text ++ spare).length, ?_, ?_⟩
    · simp only [copyTo, length_fresh, Nat.zero_add]
      rw [if_pos (by rw [List.length_append]; omega)]
      simp
    · rw [List.length_append, List.length_drop, length_fresh, List.length_append]
      omega

/-- Bytes are written behind the text. -/
theorem emit_ends (ends : p.Ends text) {needed : Int} (bytes : Bytes)
    (fits : bytes.length ≤ needed) (small : needed + text.length ≤ 2 ^ 30) (advance : Nat)
    : ∃ spare,
        emit contents needed bytes advance p
        = .ok ⟨some (text ++ (bytes ++ spare)), text.length + advance⟩ := by
  obtain ⟨spare, ensured, room⟩ := ensure_ends supplied contents ends (by omega) small
  have split : spare = spare.take bytes.length ++ spare.drop bytes.length :=
    (List.take_append_drop _ _).symm
  refine ⟨spare.drop bytes.length, ?_⟩
  rw [split] at ensured
  have size : bytes.length = (spare.take bytes.length).length :=
    (List.length_take_of_le (by omega)).symm
  have copied := copyTo_append text (spare.take bytes.length) (spare.drop bytes.length) size
  rw [emit, ensured, Checked.ok_bind]
  simp only [copied]
  rfl

end Buffer

/-- A step writes a part of the text and passes it, as long as the text is not too long. -/
def Appends (step : PrintBuffer → Checked PrintBuffer) (part : Bytes) : Prop :=
  ∀ p text,
    PrintBuffer.Ends p text
    → (∀ c ∈ text, c ≠ 0)
    → (text ++ part).length + 64 ≤ 2 ^ 30
    → ∃ p', step p = .ok p' ∧ p'.Ends (text ++ part)

/-- A step writes a part of the text as a string, as long as the text is not too long. -/
def Leaves (step : PrintBuffer → Checked PrintBuffer) (part : Bytes) : Prop :=
  ∀ p text,
    PrintBuffer.Ends p text
    → (∀ c ∈ text, c ≠ 0)
    → (text ++ part).length + 64 ≤ 2 ^ 30
    → ∃ p', step p = .ok p' ∧ p'.Holds (text ++ part)

section Steps

variable {step next : PrintBuffer → Checked PrintBuffer} {part part' : Bytes}

/-- In front of a part, the text is not too long either. -/
theorem short_front {text : Bytes} (short : (text ++ (part ++ part')).length + 64 ≤ 2 ^ 30)
    : (text ++ part).length + 64 ≤ 2 ^ 30 := by
  rw [← List.append_assoc, List.length_append] at short
  omega

/-- A step that does nothing writes nothing. -/
theorem Appends.nil : Appends .ok [] := fun p text ends _ _ => ⟨p, rfl, by simpa using ends⟩

/-- Parts are written one after the other. -/
theorem Appends.append (appends : Appends step part) (nulFree : ∀ c ∈ part, c ≠ 0)
    (appends' : Appends next part')
    : Appends (fun p => step p >>= next) (part ++ part') := by
  intro p text ends filled short
  have front := short_front short
  rw [← List.append_assoc] at short ⊢
  obtain ⟨q, stepped, ends⟩ := appends p text ends filled front
  obtain ⟨q', stepped', ends⟩ :=
    appends' q _ ends (List.forall_mem_append.mpr ⟨filled, nulFree⟩) short
  exact ⟨q', Checked.bind_eq_ok.mpr ⟨q, stepped, stepped'⟩, ends⟩

/-- The last part may be left as a string. -/
theorem Appends.leaves (appends : Appends step part) (nulFree : ∀ c ∈ part, c ≠ 0)
    (leaves : Leaves next part')
    : Leaves (fun p => step p >>= next) (part ++ part') := by
  intro p text ends filled short
  have front := short_front short
  rw [← List.append_assoc] at short ⊢
  obtain ⟨q, stepped, ends⟩ := appends p text ends filled front
  obtain ⟨q', stepped', holds⟩ :=
    leaves q _ ends (List.forall_mem_append.mpr ⟨filled, nulFree⟩) short
  exact ⟨q', Checked.bind_eq_ok.mpr ⟨q, stepped, stepped'⟩, holds⟩

/-- A string is passed before the next part is written. -/
theorem Leaves.append (leaves : Leaves step part) (nulFree : ∀ c ∈ part, c ≠ 0)
    (appends : Appends next part')
    : Appends (fun p => step p >>= fun p => update p >>= next) (part ++ part') := by
  intro p text ends filled short
  have front := short_front short
  rw [← List.append_assoc] at short ⊢
  obtain ⟨q, stepped, holds⟩ := leaves p text ends filled front
  have inside := List.forall_mem_append.mpr ⟨filled, nulFree⟩
  obtain ⟨q', updated, ends⟩ := update_holds holds inside
  obtain ⟨q'', stepped', ends⟩ := appends q' _ ends inside short
  exact ⟨q'', Checked.bind_eq_ok.mpr ⟨q, stepped, Checked.bind_eq_ok.mpr ⟨q', updated, stepped'⟩⟩,
    ends⟩

end Steps

section Printing

variable [Supply] (supplied : Supplied (2 ^ 31)) (contents : Nat → Nat → UInt8)

include supplied

/-- Bytes are emitted in front of others that are overwritten. -/
theorem appends_emit {needed : Int} (part more : Bytes) (fits : (part ++ more).length ≤ needed)
    (small : needed ≤ part.length + 64)
    : Appends (emit contents needed (part ++ more) part.length) part := by
  intro p text ends _ short
  rw [List.length_append] at short
  obtain ⟨spare, emitted⟩ :=
    emit_ends supplied contents ends (part ++ more) fits (by omega) part.length
  exact ⟨_, emitted, more ++ spare, by simp, by simp⟩

/-- A string is emitted. -/
theorem leaves_emit {needed : Int} (part : Bytes) (fits : part.length < needed)
    (small : needed ≤ part.length + 64)
    : Leaves (emit contents needed (part ++ [0]) 0) part := by
  intro p text ends _ short
  rw [List.length_append] at short
  have room : (part ++ [0]).length ≤ needed := by
    rw [List.length_append, List.length_singleton]
    omega
  obtain ⟨spare, emitted⟩ := emit_ends supplied contents ends (part ++ [0]) room (by omega) 0
  exact ⟨_, emitted, spare, by simp, by simp⟩

/-- A string is written. -/
theorem leaves_string (str : Option CString)
    : Leaves ((printStringPtr str).buffered contents) (printStringPtr str).text := by
  intro p text ends filled short
  have needed := @needed_printStringPtr str (by rw [List.length_append] at short; omega)
  exact leaves_emit supplied contents _ (by omega) (by omega) p text ends filled short

/-- The comma behind an element. -/
theorem appends_behindElement (fmt last : Bool)
    : Appends (behindElement contents fmt last)
        (if last then [] else ','.toUInt8 :: formatted fmt [' '.toUInt8]) := by
  cases last with
  | true => exact .nil
  | false =>
      cases fmt with
      | true =>
          exact appends_emit supplied contents [','.toUInt8, ' '.toUInt8] [0] (by decide)
            (by decide)
      | false => exact appends_emit supplied contents [','.toUInt8] [0] (by decide) (by decide)

/-- The end of the line of a member. -/
theorem appends_behindMember (fmt last : Bool)
    : Appends (behindMember contents fmt last)
        ((if last then [] else [','.toUInt8]) ++ formatted fmt ['\n'.toUInt8]) := by
  cases last <;> cases fmt
  · exact appends_emit supplied contents [','.toUInt8] [0] (by decide) (by decide)
  · exact appends_emit supplied contents [','.toUInt8, '\n'.toUInt8] [0] (by decide) (by decide)
  · exact appends_emit supplied contents [] [0] (by decide) (by decide)
  · exact appends_emit supplied contents ['\n'.toUInt8] [0] (by decide) (by decide)

/-- The name of a member, behind the start of its line. -/
theorem appends_beforeMember (fmt : Bool) (depth : Nat) {string : Option CString}
    (nulFree : ∀ c ∈ (printStringPtr string).text, c ≠ 0)
    : Appends (beforeMember contents fmt depth string)
        (formatted fmt (tabs depth)
          ++ ((printStringPtr string).text
            ++ ':'.toUInt8 :: formatted fmt ['\t'.toUInt8])) := by
  have line : Appends (startLine contents fmt depth) (formatted fmt (tabs depth)) := by
    cases fmt with
    | true =>
        have size := length_tabs depth
        have emitted := @appends_emit _ supplied contents depth (tabs depth) []
          (by rw [List.append_nil, size]) (by rw [size]; omega)
        rw [List.append_nil, size] at emitted
        exact emitted
    | false => exact .nil
  have colon : Appends (emit contents ((if fmt then 2 else 1 : Nat) : Int)
      (':'.toUInt8 :: formatted fmt ['\t'.toUInt8]) (if fmt then 2 else 1))
      (':'.toUInt8 :: formatted fmt ['\t'.toUInt8]) := by
    cases fmt with
    | true =>
        exact appends_emit supplied contents [':'.toUInt8, '\t'.toUInt8] [] (by decide)
          (by decide)
    | false => exact appends_emit supplied contents [':'.toUInt8] [] (by decide) (by decide)
  have filled : ∀ c ∈ formatted fmt (tabs depth), c ≠ 0 := fun c member =>
    (blank_formatted fmt (blank_tabs depth) c member).1
  exact line.append filled ((leaves_string supplied contents string).append nulFree colon)

variable {F : Type} [CDouble F] {fmt : Bool} {depth : Nat} {child : Item F}

/-- What stands between the brackets of an array or an object. -/
def bodyText (fmt : Bool) (parent : ItemType) (depth : Nat) (entries : List (Bytes × Bytes))
    : Bytes :=
  if parent = .object then objectBody fmt depth entries else arrayBody fmt (entries.map Prod.snd)

/-- A loop over the items of a chain writes what stands between the brackets. -/
def Loops (fmt : Bool) (parent : ItemType) (depth : Nat) (chain : Item F) : Prop :=
  (∀ c ∈ bodyText fmt parent depth (chain.texts fmt parent depth), c ≠ 0)
  → Appends (printChainBuffered contents fmt parent depth chain)
      (bodyText fmt parent depth (chain.texts fmt parent depth))

/-- An array is written. -/
theorem leaves_printArray (loops : Loops contents fmt .array depth child)
    (nulFree : ∀ c ∈ arrayText fmt ((child.texts fmt .array depth).map Prod.snd), c ≠ 0)
    : Leaves
        (printArrayBuffered contents child (printChainBuffered contents fmt .array depth child))
        (arrayText fmt ((child.texts fmt .array depth).map Prod.snd)) := by
  obtain ⟨-, inside⟩ := List.forall_mem_cons.mp nulFree
  have body := (List.forall_mem_append.mp inside).1
  have opening := appends_emit supplied contents ['['.toUInt8] [] (Int.le_refl 1) (by decide)
  have closing := @leaves_emit _ supplied contents 2 [']'.toUInt8] (by decide) (by decide)
  have steps := opening.leaves (by decide) ((loops body).leaves body closing)
  intro p text ends filled short
  cases child with
  | null =>
      rw [printArrayBuffered, if_pos numentries_null]
      exact leaves_emit supplied contents _ (by decide) (by decide) p text ends filled short
  | node fields child next =>
      obtain ⟨-, -, few, -⟩ :=
        sizes_arrayText fmt (Item.texts fmt .array depth (.node fields child next))
      rw [length_texts] at few
      rw [List.length_append] at short
      rw [printArrayBuffered, if_neg (numentries_node (by omega))]
      exact steps p text ends filled (by rwa [List.length_append])

/-- An object is written. -/
theorem leaves_printObject (loops : Loops contents fmt .object (depth + 1) child)
    (nulFree : ∀ c ∈ objectText fmt depth (child.texts fmt .object (depth + 1)), c ≠ 0)
    : Leaves
        (printObjectBuffered contents fmt depth child
          (printChainBuffered contents fmt .object (depth + 1) child))
        (objectText fmt depth (child.texts fmt .object (depth + 1))) := by
  obtain ⟨-, inside⟩ := List.forall_mem_cons.mp nulFree
  have body := (List.forall_mem_append.mp (List.forall_mem_append.mp inside).2).1
  have opening
      : Appends
          (emit contents ((if fmt then 2 else 1 : Nat) + 1)
            ('\x7b'.toUInt8 :: (formatted fmt ['\n'.toUInt8] ++ [0])) (if fmt then 2 else 1))
          ('\x7b'.toUInt8 :: formatted fmt ['\n'.toUInt8]) := by
    cases fmt with
    | true =>
        exact appends_emit supplied contents ['\x7b'.toUInt8, '\n'.toUInt8] [0] (by decide)
          (by decide)
    | false => exact appends_emit supplied contents ['\x7b'.toUInt8] [0] (by decide) (by decide)
  have bracket : ∀ c ∈ '\x7b'.toUInt8 :: formatted fmt ['\n'.toUInt8], c ≠ 0 := by
    cases fmt <;> decide
  have closing
      : Leaves
          (emit contents (if fmt then (depth + 1 : Nat) + 1 else 2)
            (formatted fmt (tabs depth) ++ ['\x7d'.toUInt8, 0]) 0)
          (formatted fmt (tabs depth) ++ ['\x7d'.toUInt8]) := by
    have length
        : ((formatted fmt (tabs depth) ++ ['\x7d'.toUInt8]).length : Int) + 1
          = (if fmt then ((depth + 1 : Nat) : Int) + 1 else 2 : Int) := by
      cases fmt <;> simp [formatted, tabs]
    rw [← length]
    have emitted := leaves_emit supplied contents (formatted fmt (tabs depth) ++ ['\x7d'.toUInt8])
      (Int.lt_succ _) (by omega)
    rwa [List.append_assoc] at emitted
  have steps := opening.leaves bracket ((loops body).leaves body closing)
  intro p text ends filled short
  cases child with
  | null =>
      have needed := @needed_emptyObject fmt depth (by
        rw [List.length_append, Item.texts] at short
        omega)
      rw [printObjectBuffered, if_pos numentries_null, needed]
      exact leaves_emit supplied contents (objectText fmt depth []) (Int.lt_succ _) (by omega) p
        text ends filled short
  | node fields child next =>
      obtain ⟨-, -, few, -⟩ :=
        sizes_objectText fmt depth (Item.texts fmt .object (depth + 1) (.node fields child next))
      rw [length_texts] at few
      rw [List.length_append] at short
      rw [printObjectBuffered, if_neg (numentries_node (by omega))]
      exact steps p text ends filled (by rwa [List.length_append])

/-- An item is written. -/
theorem leaves_printFields (fmt : Bool) (depth : Nat) {fields : Fields F} (fits : NumberFits fields)
    {values : Option (List (Option CString × Json F))}
    (loops : ∀ known, values = some known → Loops contents fmt fields.type (depth + 1) child)
    {j : Json F} (known : fields.value values = some j)
    (nulFree : ∀ c ∈ fields.text fmt depth (child.texts fmt fields.type (depth + 1)), c ≠ 0)
    : Leaves
        (printFieldsBuffered contents fmt depth fields child
          (printChainBuffered contents fmt fields.type (depth + 1) child))
        (fields.text fmt depth (child.texts fmt fields.type (depth + 1))) := by
  have same
      : printFieldsBuffered contents fmt depth fields child
          (printChainBuffered contents fmt fields.type (depth + 1) child)
        = fun p => printFieldsBuffered contents fmt depth fields child
            (printChainBuffered contents fmt fields.type (depth + 1) child) p := rfl
  rw [Fields.value] at known
  rw [Fields.text] at nulFree ⊢
  rw [same]
  simp only [printFieldsBuffered]
  cases type : fields.type with
  | unset => simp [type] at known
  | null => exact @leaves_emit _ supplied contents 5 (word "null") (by decide) (by decide)
  | false => exact @leaves_emit _ supplied contents 6 (word "false") (by decide) (by decide)
  | true => exact @leaves_emit _ supplied contents 5 (word "true") (by decide) (by decide)
  | number =>
      have small := needed_printNumber fields
      exact leaves_emit supplied contents _ (fits type) (by omega)
  | string => exact leaves_string supplied contents _
  | array =>
      obtain ⟨known, some, -⟩ := Option.map_eq_some_iff.mp (by simpa [type] using known)
      simp only [type] at nulFree loops
      exact leaves_printArray supplied contents (loops known some) nulFree
  | object =>
      obtain ⟨known, some, -⟩ := Option.map_eq_some_iff.mp (by simpa [type] using known)
      simp only [type] at nulFree loops
      exact leaves_printObject supplied contents (loops known some) nulFree

omit supplied in
omit [Supply] in
/-- Behind the last item of a chain there is no other. -/
theorem isEmpty_texts (fmt : Bool) (parent : ItemType) (depth : Nat) (chain : Item F)
    : (chain.texts fmt parent depth).isEmpty = isLast chain := by
  cases chain <;> rfl

/-- A loop over the items of a chain writes what stands between the brackets. -/
theorem loops_printChain (fmt : Bool) {chain : Item F} (fits : NumbersFit chain)
    (parent : ItemType) (depth : Nat) {values : List (Option CString × Json F)}
    (known : chain.values = some values)
    : Loops contents fmt parent depth chain := by
  induction chain generalizing parent depth values with
  | null =>
      intro _
      rw [Item.texts, bodyText]
      split
      · exact .nil
      · exact .nil
  | node fields child next ih ih' =>
      obtain ⟨number, below, behind⟩ := fits
      rw [Item.values] at known
      obtain ⟨j, value, known⟩ := Option.bind_eq_some_iff.mp known
      obtain ⟨rest, others, -⟩ := Option.bind_eq_some_iff.mp known
      have last := isEmpty_texts fmt parent depth next
      have item := leaves_printFields supplied contents fmt depth number
        (fun _ known => ih below fields.type (depth + 1) known) value
      have more := ih' behind parent depth others
      rw [Loops, bodyText, Item.texts] at *
      by_cases isObject : parent = .object
      · subst isObject
        rw [if_pos rfl] at *
        have parts (name text : Bytes) (entries : List (Bytes × Bytes))
            : objectBody fmt depth ((name, text) :: entries)
              = (formatted fmt (tabs depth)
                  ++ (name ++ ':'.toUInt8 :: formatted fmt ['\t'.toUInt8]))
                ++ (text
                  ++ (((if entries.isEmpty then [] else [','.toUInt8])
                      ++ formatted fmt ['\n'.toUInt8])
                    ++ objectBody fmt depth entries)) := by
          simp [objectBody]
        rw [parts, last, nameText, if_pos rfl]
        intro nulFree
        obtain ⟨front, nulFree⟩ := List.forall_mem_append.mp nulFree
        obtain ⟨filled, nulFree⟩ := List.forall_mem_append.mp nulFree
        obtain ⟨comma, nulFree⟩ := List.forall_mem_append.mp nulFree
        have name := (List.forall_mem_append.mp (List.forall_mem_append.mp front).2).1
        exact (appends_beforeMember supplied contents fmt depth name).append front
          ((item filled).append filled
            ((appends_behindMember supplied contents fmt (isLast next)).append comma
              (more nulFree)))
      · rw [if_neg isObject] at *
        rw [List.map_cons, arrayBody_cons, List.isEmpty_map, last]
        intro nulFree
        obtain ⟨filled, nulFree⟩ := List.forall_mem_append.mp nulFree
        obtain ⟨comma, nulFree⟩ := List.forall_mem_append.mp nulFree
        have steps := (item filled).append filled
          ((appends_behindElement supplied contents fmt (isLast next)).append comma
            (more nulFree))
        have same
            : printChainBuffered contents fmt parent depth (.node fields child next)
              = fun p =>
                  printFieldsBuffered contents fmt depth fields child
                    (printChainBuffered contents fmt fields.type (depth + 1) child) p
                  >>= fun p =>
                    update p
                    >>= fun p =>
                      behindElement contents fmt (isLast next) p
                      >>= printChainBuffered contents fmt parent depth next := by
          funext p
          rw [printChainBuffered, beforeItem, if_neg isObject]
          simp only [behindItem, if_neg isObject]
          rfl
        rw [same]
        exact steps

end Printing

/-- What is printed into a buffer of any size at first is what is printed without one, if it is not
too long.
-/
theorem cJSONPrintBuffered_eq [Supply] (supplied : Supplied (2 ^ 33))
    (contents : Nat → Nat → UInt8) {F : Type} [CDouble F] {item : Item F}
    (fits : NumbersFit item) {j : Json F} (known : item.value = some j) (fmt : Bool)
    {text : CString} (laid : text.val = item.text fmt 0) (short : text.val.length + 64 ≤ 2 ^ 30)
    {prebuffer : Int} (positive : 0 ≤ prebuffer) (small : prebuffer < 2 ^ 31)
    : printValue fmt 0 item = .ok (some text.val)
      ∧ cJSONPrintBuffered contents item prebuffer fmt = .ok (some text) := by
  obtain ⟨size, rfl⟩ := Int.eq_ofNat_of_zero_le positive
  have given := mallocInt_eq (supplied.mono (by decide : 2 ^ 31 ≤ 2 ^ 33)) (Int.ofNat_lt.mp small)
  have nulFree := text.property
  rw [laid] at short nulFree
  refine ⟨laid ▸ (delivers_printValue fmt 0 fits known short).supplied supplied, ?_⟩
  cases item with
  | null => simp [Item.value] at known
  | node fields child next =>
      obtain ⟨number, below, -⟩ := fits
      have typed : fields.type ≠ .unset := by
        intro unset
        simp [Item.value, Fields.value, unset] at known
      have leaves := leaves_printFields (supplied.mono (by decide)) contents fmt 0 number
        (fun _ known => loops_printChain (supplied.mono (by decide)) contents fmt below _ 1 known)
        known nulFree
      obtain ⟨p, written, spare, held, -⟩ :=
        leaves ⟨some (fresh contents size), 0⟩ [] ⟨fresh contents size, rfl, rfl⟩ (by simp) short
      change p.mem = some (Item.text fmt 0 (.node fields child next) ++ 0 :: spare) at held
      rw [← laid] at held
      rw [cJSONPrintBuffered, given, Option.map_some, written, Checked.ok_bind, if_neg typed, held,
        Option.map_some, CString.startOf_append]

/-- An object is printed into a buffer that is too small at first. -/
theorem cJSONPrintBuffered_sample
    : @printValue ℚ _ .unlimited false 0 sample
        = .ok (some (word "\x7b\"a\":[-7,\"\\n\"]\x7d"))
      ∧ @cJSONPrintBuffered .unlimited (fun _ _ => 7) ℚ _ sample 2 false
        = .ok (some ⟨word "\x7b\"a\":[-7,\"\\n\"]\x7d", by decide⟩) :=
  @cJSONPrintBuffered_eq .unlimited (supplied_unlimited _) (fun _ _ => 7) ℚ _ sample
    wholeNumbers_sample.fit _ rfl false ⟨word "\x7b\"a\":[-7,\"\\n\"]\x7d", by decide⟩
    (by decide +kernel) (by decide) 2 (by decide) (by decide)

end Cvos.LibJson

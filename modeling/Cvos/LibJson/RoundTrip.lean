import Cvos.LibJson.ParseOutcomes
import Cvos.LibJson.PrintMemory

/-! What cJSON prints, it reads back. -/

namespace Cvos.LibJson

open Cvos.Lib Json

/-- Where memory is given, what is printed of an item, formatted or not, is the string that is laid
out for it, if this is not too long. It is accepted as a whole, as an item of the same value.
-/
theorem parse_printValue [Supply] {F : Type} [CDouble F] [ExactIntegers F]
    (supplied : Supplied (2 ^ 33)) (fmt : Bool) {item : Item F} (whole : WholeNumbers item)
    {j : Json F} (known : item.value = some j) (short : (item.text fmt 0).length + 64 ≤ 2 ^ 30)
    : ∃ text : CString,
        ∃ again,
          text.val = item.text fmt 0
          ∧ printValue fmt 0 item = .ok (some text.val)
          ∧ cJSONParseWithOpts (text.val ++ [0]) true = .ok (again, [0])
          ∧ again.value = some j := by
  have printed := (delivers_printValue fmt 0 whole.fit known short).supplied supplied
  have none : Blank [] := by simp [Blank]
  have element : ElementText j ([] ++ (item.text fmt 0 ++ [])) :=
    .element none (spells_text fmt 0 whole known) none
  rw [List.nil_append, List.append_nil] at element
  obtain ⟨again, accepted, value⟩ :=
    cJSONParseWithOpts_element (supplied.mono (by decide)) element (by omega) []
  exact ⟨⟨item.text fmt 0, nulFree_text fmt 0 whole known⟩, again, rfl, printed, accepted, value⟩

/-- The object of a member whose value is an array of a negative number and a string with a newline.
-/
def sample : Item ℚ :=
  .node { (newItem : Fields ℚ) with type := .object }
    (.node
      { (newItem : Fields ℚ) with
        type := .array
        string := some ⟨['a'.toUInt8], by decide⟩ }
      (.node
        { (newItem : Fields ℚ) with
          type := .number
          valueint := -7
          valuedouble := CDouble.ofInt (-7) }
        .null
        (.node
          { (newItem : Fields ℚ) with
            type := .string
            valuestring := some ⟨['\n'.toUInt8], by decide⟩ }
          .null .null))
      .null)
    .null

example
    : @cJSONPrintUnformatted ℚ _ .unlimited sample
      = .ok (some (word "\x7b\"a\":[-7,\"\\n\"]\x7d")) := by
  decide +kernel

/-- Its number is an `int`. -/
theorem wholeNumbers_sample : WholeNumbers sample := by
  refine ⟨nofun, ⟨nofun, ⟨fun _ => ⟨rfl, by decide, by decide⟩, trivial, nofun, trivial, trivial⟩,
    trivial⟩, trivial⟩

/-- It is printed and read back. -/
theorem parse_printValue_sample
    : ∃ text : CString,
        ∃ again,
          text.val = sample.text true 0
          ∧ @printValue ℚ _ .unlimited true 0 sample = .ok (some text.val)
          ∧ @cJSONParseWithOpts .unlimited ℚ _ (text.val ++ [0]) true = .ok (again, [0])
          ∧ again.value = sample.value :=
  @parse_printValue .unlimited ℚ _ _ (supplied_unlimited _) true sample wholeNumbers_sample _ rfl
    (by decide +kernel)

end Cvos.LibJson

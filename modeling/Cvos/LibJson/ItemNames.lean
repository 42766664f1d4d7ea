import Cvos.LibJson.ItemRuns

/-! The functions of cJSON that look for an item of an object by its name. They do what the
functions with a number do, with the number of the first item of that name.
-/

namespace Cvos.LibJson

open Cvos.Lib

variable {F : Type} {m : Memory F} {forest : Forest} {object x : Nat} {cell : Cell F}
  {string : Option CString}

/-- The name of an item, if it has one. -/
def Memory.nameAt (m : Memory F) (x : Nat) : Option CString :=
  ((m.items.lookup x).bind fun cell => cell.data.string).bind fun p =>
    (m.texts.lookup p).map TextBlock.text

/-- The name of an item stands in memory, if it has one. -/
def Memory.Readable (m : Memory F) (x : Nat) : Prop :=
  ∀ {cell p},
    m.items.lookup x = some cell
    → cell.data.string = some p
    → ∃ block, m.texts.lookup p = some block

/-- An item has a name. -/
def Memory.hasName (m : Memory F) (string : Option CString) (x : Nat) : Bool :=
  cJSONStrcasecmp (m.nameAt x) string = 0

/-- A name that is to be freed with its item stands in memory. -/
theorem Tidy.readable (tidy : Tidy m)
    (own : ∀ {cell}, m.items.lookup x = some cell → cell.data.stringIsConst = false)
    : m.Readable x := by
  intro cell p stands named
  have member : p ∈ textsAt m.items x := by
    rw [textsAt_eq stands, Record.texts, own stands, named]
    exact List.mem_append_right _ (List.mem_singleton.mpr rfl)
  obtain ⟨block, there, -⟩ := tidy.allocated member
  exact ⟨block, there⟩

/-- The names are compared as they stand in memory. -/
theorem nameDiffers_eq (stands : m.items.lookup x = some cell) (readable : m.Readable x)
    : m.nameDiffers string cell = .ok (!m.hasName string x) := by
  rw [Memory.nameDiffers, Memory.textAt, Memory.hasName, Memory.nameAt, stands, Option.bind_some]
  cases named : cell.data.string with
  | none => simp [Except.map]
  | some p =>
      obtain ⟨block, there⟩ := readable stands named
      rw [if_pos Option.isSome_some, Heap.read_eq there, Option.bind_some, there, Option.map_some]
      simp [Except.map]

section Objects

variable (holds : Holds Record.owns m.items forest) (stands : m.items.lookup object = some cell)
  (owns : cell.data.owns = true) (readable : ∀ x ∈ forest.children object, m.Readable x)

include holds stands owns readable

/-- The walk over the names reaches the first item of the name. -/
theorem seekName_eq (string : Option CString)
    : m.seekName (some object) string
      = .ok ⟨(forest.children object).find? (m.hasName string),
          int32 ((forest.children object).findIdx (m.hasName string))⟩ := by
  have linked := holds.linked object
  have unique := forest.nodup object
  rw [Memory.seekName, Heap.read_eq stands, Checked.ok_bind, holds.child stands owns,
    List.find?_eq_getElem?_findIdx]
  generalize forest.children object = xs at linked unique readable
  have enough := linked.length_le unique
  generalize place : xs.findIdx (m.hasName string) = n
  have inside : n ≤ xs.length := place ▸ List.findIdx_le_length
  have on : ∀ x ∈ xs.take n, ∀ {cell},
      m.items.lookup x = some cell → m.nameDiffers string cell = .ok true := by
    intro x member cell stands
    obtain ⟨i, small, rfl⟩ := List.mem_take_iff_getElem.mp member
    have early : i < xs.findIdx (m.hasName string) := place.symm ▸ (by omega)
    rw [nameDiffers_eq stands (readable _ (List.getElem_mem _)), List.not_of_lt_findIdx early]
    rfl
  have stops : ∀ {x}, (xs.drop n).head? = some x → ∀ {cell},
      m.items.lookup x = some cell → m.nameDiffers string cell = .ok false := by
    intro x first cell stands
    rw [List.head?_drop] at first
    obtain ⟨small, here⟩ := List.getElem?_eq_some_iff.mp first
    subst place
    have named : m.hasName string x = true := here ▸ List.findIdx_getElem
    rw [nameDiffers_eq stands (readable x (here ▸ List.getElem_mem small)), named]
    rfl
  have walk := seek_linked (List.take_append_drop n xs ▸ linked) on stops
    (List.take_append_drop n xs ▸ enough) 0
  rw [List.take_append_drop, Nat.zero_add, List.length_take_of_le inside, List.head?_drop] at walk
  exact walk

/-- `cJSON_GetObjectItem` returns the first item of the name. -/
theorem cJSONGetObjectItem_eq (string : Option CString)
    : cJSONGetObjectItem m (some object) string
      = .ok ((forest.children object).find? (m.hasName string)) := by
  rw [cJSONGetObjectItem, if_pos Option.isSome_some, seekName_eq holds stands owns readable]
  rfl

/-- `cJSON_HasObjectItem` tells whether an item has the name. -/
theorem cJSONHasObjectItem_eq (string : Option CString)
    : cJSONHasObjectItem m (some object) string
      = .ok ((forest.children object).any (m.hasName string)) := by
  rw [cJSONHasObjectItem, cJSONGetObjectItem_eq holds stands owns readable, ← List.isSome_find?]
  rfl

section Numbers

variable (few : (forest.children object).length < 2 ^ 31)

include few

omit holds stands owns readable in
/-- The number of the first item of a name is an `int`, if there are not too many items. -/
theorem int32_findIdx (string : Option CString)
    : int32 ((forest.children object).findIdx (m.hasName string))
      = (forest.children object).findIdx (m.hasName string) :=
  int32_natCast (Nat.lt_of_le_of_lt List.findIdx_le_length few)

/-- `cJSON_DetachItemFromObject` detaches the item with the number of the name. -/
theorem cJSONDetachItemFromObject_eq (string : Option CString)
    : cJSONDetachItemFromObject m (some object) string
      = cJSONDetachItemFromArray m.items (some object)
          ((forest.children object).findIdx (m.hasName string)) := by
  rw [cJSONDetachItemFromObject, seekName_eq holds stands owns readable, Checked.ok_bind,
    int32_findIdx few]
  cases found : (forest.children object).find? (m.hasName string) with
  | some c => exact if_pos Option.isSome_some
  | none =>
      rw [List.find?_eq_getElem?_findIdx] at found
      have walk := advance_linked (holds.linked object)
        ((forest.children object).findIdx (m.hasName string))
      rw [List.head?_drop, found] at walk
      rw [cJSONDetachItemFromArray, Heap.read_eq stands, Checked.ok_bind, holds.child stands owns,
        Int.toNat_natCast, walk]
      rfl

/-- `cJSON_DeleteItemFromObject` deletes the item with the number of the name. -/
theorem cJSONDeleteItemFromObject_eq (string : Option CString)
    : cJSONDeleteItemFromObject m (some object) string
      = cJSONDeleteItemFromArray m (some object)
          ((forest.children object).findIdx (m.hasName string)) := by
  rw [cJSONDeleteItemFromObject, cJSONDetachItemFromObject_eq holds stands owns readable few]
  rfl

/-- `cJSON_ReplaceItemInObject` names an item and puts it in the place of the one of that name, if
there is one.
-/
theorem cJSONReplaceItemInObject_eq (malloc : Allocator) (name : CString) (item : Option Nat)
    : cJSONReplaceItemInObject malloc m (some object) name item
      = if (forest.children object).any (m.hasName (some name)) then do
          let m' ← m.rename malloc item name
          cJSONReplaceItemInArray m' (some object)
            ((forest.children object).findIdx (m.hasName (some name))) item
        else
          .ok m := by
  rw [cJSONReplaceItemInObject, seekName_eq holds stands owns readable, Checked.ok_bind,
    ← List.isSome_find?, int32_findIdx few]

end Numbers

end Objects

section Worlds

variable {w : World F} (sound : w.Sound) (owner : w.Owner object)
  (own
    : ∀ x ∈ w.forest.children object, ∀ {cell},
        w.memory.items.lookup x = some cell → cell.data.stringIsConst = false)

include sound owner own

/-- In a sound world, the names are compared without a fault if none is a constant. -/
theorem World.Sound.getObjectItem (string : Option CString)
    : cJSONGetObjectItem w.memory (some object) string
        = .ok ((w.forest.children object).find? (w.memory.hasName string))
      ∧ cJSONHasObjectItem w.memory (some object) string
        = .ok ((w.forest.children object).any (w.memory.hasName string)) := by
  obtain ⟨cell, stands, owns⟩ := owner
  have readable : ∀ x ∈ w.forest.children object, w.memory.Readable x :=
    fun x listed => sound.tidy.readable (own x listed)
  exact ⟨cJSONGetObjectItem_eq sound.holds stands owns readable string,
    cJSONHasObjectItem_eq sound.holds stands owns readable string⟩

/-- In a sound world, the first item of a name leaves the list of its object and is deleted. -/
theorem World.Sound.deleteItemFromObject (few : (w.forest.children object).length < 2 ^ 31)
    (string : Option CString)
    : ∃ m' forest',
        cJSONDeleteItemFromObject w.memory (some object) string = .ok m'
        ∧ forest'.children
          = dropBelow w.forest ((w.forest.children object).find? (w.memory.hasName string))
              (Function.update w.forest.children object
                ((w.forest.children object).eraseIdx
                  ((w.forest.children object).findIdx (w.memory.hasName string))))
        ∧ World.Sound ⟨m', forest'⟩ := by
  obtain ⟨m', forest', deleted, lists, sound'⟩ := sound.deleteItemFromArray owner
    ((w.forest.children object).findIdx (w.memory.hasName string))
  rw [Int.toNat_natCast, ← List.find?_eq_getElem?_findIdx] at lists
  obtain ⟨cell, stands, owns⟩ := owner
  have number := cJSONDeleteItemFromObject_eq sound.holds stands owns
    (fun x listed => sound.tidy.readable (own x listed)) few string
  exact ⟨m', forest', number.trans deleted, lists, sound'⟩

end Worlds

end Cvos.LibJson

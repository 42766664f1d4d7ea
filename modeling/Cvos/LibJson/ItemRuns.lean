import Cvos.Lib.Transition
import Cvos.LibJson.ItemTexts

/-! Programs that build and take apart items with cJSON. A world is the memory, with the forest that
its links are to hold. Whatever calls are made, as long as each is allowed, none of them faults, the
memory holds the forest, and each text that is allocated belongs to one item.
-/

namespace Cvos.LibJson

open Cvos.Lib

variable {F : Type}

/-- A memory, and the forest of its items. -/
structure World (F : Type) where
  memory : Memory F
  forest : Forest

/-- The calls of a program, and what it keeps as a text of its own. The items and texts are those at
the addresses that it got from earlier calls.
-/
inductive ItemCall (F : Type) where
  | keepText (text : CString)
  | createNull
  | createTrue
  | createFalse
  | createBool (b : Int)
  | createNumber (num : F)
  | createString (string : CString)
  | createArray
  | createObject
  | createReference (item : Nat)
  | addItemToArray (array item : Nat)
  | addItemToObject (object string item : Nat)
  | addItemToObjectCS (object string item : Nat)
  | insertItemInArray (array : Nat) (which : Int) (item : Nat)
  | detachItemFromArray (array : Nat) (which : Int)
  | delete (item : Nat)
  | deleteItemFromArray (array : Nat) (which : Int)
  | replaceItemInArray (array : Nat) (which : Int) (item : Nat)

/-- Before any call. -/
def World.empty : World F where
  memory := ⟨∅, ∅⟩
  forest := .empty

/-- The memory holds the forest, and each text that is allocated belongs to one item. -/
structure World.Sound (w : World F) : Prop where
  holds : Holds Record.owns w.memory.items w.forest
  tidy : Tidy w.memory

/-- An item with a list of its own. -/
def World.Owner (w : World F) (array : Nat) : Prop :=
  ∃ cell, w.memory.items.lookup array = some cell ∧ cell.data.owns = true

/-- An item may be listed below another one: it is listed nowhere, and the other is not below it. -/
structure World.Listable (w : World F) (array item : Nat) : Prop where
  owner : w.Owner array
  stands : ∃ cell, w.memory.items.lookup item = some cell
  loose : w.forest.Loose item
  apart : ¬ w.forest.Below item array

/-- At first, there is nothing to be held or freed. -/
theorem World.sound_empty : (World.empty : World F).Sound where
  holds := .empty
  tidy := by
    refine ⟨fun {a t} member => ?_, fun a => ?_, fun {a b t} member => ?_, fun {t} given => ?_⟩
    · exact absurd member List.not_mem_nil
    · exact List.nodup_nil
    · exact absurd member List.not_mem_nil
    · exact absurd given (not_allocated (Finmap.lookup_empty t))

/-- A new item without texts is one more tree. -/
theorem World.Sound.place {w : World F} (malloc : Allocator) (sound : w.Sound)
    {record : Record F} (nothing : record.texts = [])
    : World.Sound ⟨(w.memory.place malloc record).memory, w.forest⟩ where
  holds := sound.holds.place (Heap.lookup_place malloc _) rfl fun _ => rfl
  tidy := sound.tidy.insert (Heap.lookup_place malloc _) nothing

/-- The calls that a program may make. An item with a name of the caller's is given no other one by
`cJSON_AddItemToObject`, which would free it, and none is given its own name again, which is freed
before it is read.
-/
def ItemCall.Allowed (w : World F) : ItemCall F → Prop
  | .createReference item => ∃ cell, w.memory.items.lookup item = some cell
  | .addItemToArray array item => w.Listable array item
  | .addItemToObject object string item =>
      w.Listable object item
      ∧ (∃ name, w.memory.texts.lookup string = some name)
      ∧ ∀ {cell},
          w.memory.items.lookup item = some cell
          → cell.data.stringIsConst = false ∧ cell.data.string ≠ some string
  | .addItemToObjectCS object _ item => w.Listable object item
  | .insertItemInArray array _ item => w.Listable array item
  | .detachItemFromArray array _ => w.Owner array
  | .delete item => (∃ cell, w.memory.items.lookup item = some cell) ∧ w.forest.Loose item
  | .deleteItemFromArray array _ => w.Owner array
  | .replaceItemInArray array _ item => w.Listable array item
  | _ => True

section Additions

variable {w : World F} {m₂ : Memory F} {array item : Nat} {cell : Cell F}

/-- `cJSON_AddItemToArray` lists a loose item behind the last one. -/
theorem World.Sound.addItemToArray (sound : w.Sound) (listable : w.Listable array item)
    : ∃ items' forest',
        cJSONAddItemToArray w.memory.items (some array) (some item) = .ok items'
        ∧ forest'.children
          = Function.update w.forest.children array (w.forest.children array ++ [item])
        ∧ World.Sound ⟨{ w.memory with items := items' }, forest'⟩ := by
  obtain ⟨⟨cell, stands, owns⟩, ⟨new, there⟩, loose, apart⟩ := listable
  obtain ⟨items', added, holds, data⟩ :=
    cJSONAddItemToArray_inserts sound.holds stands owns there loose apart (Nat.le_refl _)
  refine ⟨items', _, added, ?_, holds, sound.tidy.relink data⟩
  refine congrArg (Function.update w.forest.children array) ?_
  rw [List.take_length, List.drop_length]

/-- A sound world is sound after an item was given another name. -/
theorem World.Sound.renamed (sound : w.Sound) (stands : w.memory.items.lookup item = some cell)
    (renamed : Renamed w.memory m₂ item cell)
    : World.Sound ⟨m₂, w.forest⟩ := by
  obtain ⟨tidy, record, same, items⟩ := renamed
  refine ⟨?_, tidy⟩
  rw [items]
  exact sound.holds.write stands same

/-- An item may be listed under its new name where it might have been under the old one. -/
theorem World.Listable.renamed (listable : w.Listable array item)
    (renamed : Renamed w.memory m₂ item cell)
    : World.Listable ⟨m₂, w.forest⟩ array item := by
  obtain ⟨⟨owner, stands, owns⟩, -, loose, apart⟩ := listable
  obtain ⟨-, record, -, items⟩ := renamed
  have other : array ≠ item := fun same => apart (same ▸ .refl)
  refine ⟨⟨owner, ?_, owns⟩, ⟨{ cell with data := record }, ?_⟩, loose, apart⟩
  · rw [items, Heap.lookup_insert, if_neg other, stands]
  · rw [items, Heap.lookup_insert, if_pos rfl]

end Additions

open Classical in
/-- Some lists, without those of an item and of the items below it. -/
noncomputable def dropBelow (forest : Forest) (c : Option Nat) (lists : Nat → List Nat)
    : Nat → List Nat :=
  fun a => if ∃ x ∈ c, forest.Below x a then [] else lists a

/-- The lists after a call. -/
noncomputable def ItemCall.lists (forest : Forest) : ItemCall F → Nat → List Nat
  | .addItemToArray array item =>
      Function.update forest.children array (forest.children array ++ [item])
  | .addItemToObject object _ item =>
      Function.update forest.children object (forest.children object ++ [item])
  | .addItemToObjectCS object _ item =>
      Function.update forest.children object (forest.children object ++ [item])
  | .insertItemInArray array which item =>
      Function.update forest.children array
        ((forest.children array).take which.toNat
          ++ item :: (forest.children array).drop which.toNat)
  | .detachItemFromArray array which =>
      Function.update forest.children array ((forest.children array).eraseIdx which.toNat)
  | .delete item => dropBelow forest (some item) forest.children
  | .deleteItemFromArray array which =>
      dropBelow forest (forest.children array)[which.toNat]?
        (Function.update forest.children array ((forest.children array).eraseIdx which.toNat))
  | .replaceItemInArray array which item =>
      dropBelow forest (forest.children array)[which.toNat]?
        (Function.update forest.children array ((forest.children array).set which.toNat item))
  | _ => forest.children

/-- What a call returns: a text or an item that was not there before, or the item with a number, or
nothing.
-/
def ItemCall.Returns (w : World F) (result : Option Nat) : ItemCall F → Prop
  | .keepText _ => ∃ a, result = some a ∧ w.memory.texts.lookup a = none
  | .addItemToArray _ _ => result = none
  | .addItemToObject _ _ _ => result = none
  | .addItemToObjectCS _ _ _ => result = none
  | .insertItemInArray _ _ _ => result = none
  | .detachItemFromArray array which => result = (w.forest.children array)[which.toNat]?
  | .delete _ => result = none
  | .deleteItemFromArray _ _ => result = none
  | .replaceItemInArray _ _ _ => result = none
  | _ => ∃ a, result = some a ∧ w.memory.items.lookup a = none

section Deletions

variable {w : World F} {forest' : Forest} {array c item : Nat}

/-- Without an item, all lists stay. -/
theorem dropBelow_none (forest : Forest) (lists : Nat → List Nat)
    : dropBelow forest none lists = lists := by
  funext a
  exact if_neg (by simp)

/-- What is below an item is the same after a change to a list that is not below it. -/
theorem dropBelow_update {forest : Forest} (apart : ¬ forest.Below c array) {list : List Nat}
    (lists : forest'.children = Function.update forest.children array list)
    : dropBelow forest' (some c) forest'.children
      = dropBelow forest (some c) (Function.update forest.children array list) := by
  classical
  funext a
  have same : forest'.Below c a ↔ forest.Below c a := by
    refine Forest.below_congr fun b below => ?_
    rw [lists, Function.update_of_ne]
    rintro rfl
    exact apart below
  rw [dropBelow, dropBelow, lists]
  exact if_congr (by simp [same]) rfl rfl

/-- `cJSON_Delete` of a loose item. -/
theorem World.Sound.delete (sound : w.Sound)
    (stands : ∃ cell, w.memory.items.lookup c = some cell) (loose : w.forest.Loose c)
    : ∃ m' forest',
        cJSONDelete w.memory (some c) = .ok m'
        ∧ forest'.children = dropBelow w.forest (some c) w.forest.children
        ∧ World.Sound ⟨m', forest'⟩ := by
  obtain ⟨cell, stands⟩ := stands
  obtain ⟨gone, m', spans, -, -, deleted, -, holds, tidy⟩ :=
    cJSONDelete_frees sound.holds sound.tidy stands loose
  refine ⟨m', w.forest.prune gone, deleted, ?_, holds, tidy⟩
  classical
  funext a
  have same : a ∈ gone ↔ ∃ x ∈ some c, w.forest.Below x a := by simp [spans.mem_iff]
  exact if_congr same rfl rfl

/-- An item that was taken out of its list is loose. -/
theorem loose_of_removed {forest : Forest} {front back : List Nat}
    (list : forest.children array = front ++ c :: back)
    (same : ∀ b, b ≠ array → forest'.children b = forest.children b)
    (missing : c ∉ forest'.children array)
    : forest'.Loose c := by
  intro b listed
  by_cases here : b = array
  · exact missing (here ▸ listed)
  · rw [same b here] at listed
    refine here (forest.unique listed ?_)
    rw [list]
    exact List.mem_append_right _ List.mem_cons_self

/-- `cJSON_DeleteItemFromArray` takes an item out of its list and deletes it. -/
theorem World.Sound.deleteItemFromArray (sound : w.Sound) (owner : w.Owner array) (which : Int)
    : ∃ m' forest',
        cJSONDeleteItemFromArray w.memory (some array) which = .ok m'
        ∧ forest'.children
          = dropBelow w.forest (w.forest.children array)[which.toNat]?
              (Function.update w.forest.children array
                ((w.forest.children array).eraseIdx which.toNat))
        ∧ World.Sound ⟨m', forest'⟩ := by
  obtain ⟨cell, stands, owns⟩ := owner
  obtain ⟨items', detached, holds, data⟩ :=
    cJSONDetachItemFromArray_erases sound.holds stands owns which
  have sound'
      : World.Sound ⟨{ w.memory with items := items' }, w.forest.eraseAt array which.toNat⟩ :=
    ⟨holds, sound.tidy.relink data⟩
  rw [cJSONDeleteItemFromArray, detached, Checked.ok_bind]
  cases found : (w.forest.children array)[which.toNat]? with
  | none =>
      refine ⟨_, _, ?_, (dropBelow_none _ _).symm, sound'⟩
      rw [cJSONDelete]
      cases enoughTurns items' <;> rfl
  | some c =>
      obtain ⟨list, place⟩ := split_at found
      have listed : c ∈ w.forest.children array := by
        rw [list]
        exact List.mem_append_right _ List.mem_cons_self
      have removed := Forest.children_eraseAt list
      rw [place] at removed
      have unique := w.forest.nodup array
      rw [list] at unique
      have missing : c ∉ (w.forest.eraseAt array which.toNat).children array := by
        rw [removed]
        exact (List.nodup_middle.mp unique).notMem
      have loose := loose_of_removed list (fun b other => Function.update_of_ne other ..) missing
      obtain ⟨node, there⟩ := sound.holds.stands listed
      have there' := data c
      rw [there, Option.map_some] at there'
      obtain ⟨node', there', -⟩ := Option.map_eq_some_iff.mp there'
      obtain ⟨m', forest', deleted, lists, sound''⟩ := sound'.delete ⟨node', there'⟩ loose
      exact ⟨m', forest', deleted, lists.trans (dropBelow_update (Forest.not_below listed) rfl),
        sound''⟩

/-- `cJSON_ReplaceItemInArray` lists a loose item in the place of another one, which it deletes. -/
theorem World.Sound.replaceItemInArray (sound : w.Sound) (listable : w.Listable array item)
    (which : Int)
    : ∃ m' forest',
        cJSONReplaceItemInArray w.memory (some array) which (some item) = .ok m'
        ∧ forest'.children
          = dropBelow w.forest (w.forest.children array)[which.toNat]?
              (Function.update w.forest.children array
                ((w.forest.children array).set which.toNat item))
        ∧ World.Sound ⟨m', forest'⟩ := by
  obtain ⟨⟨cell, stands, owns⟩, ⟨new, standsNew⟩, looseNew, apartNew⟩ := listable
  have walk := advance_linked (sound.holds.linked array) which.toNat
  have first := sound.holds.child stands owns
  rw [cJSONReplaceItemInArray, Heap.read_eq stands, Checked.ok_bind, first, walk, Checked.ok_bind,
    List.head?_drop]
  cases found : (w.forest.children array)[which.toNat]? with
  | none =>
      refine ⟨w.memory, w.forest, if_pos rfl, ?_, sound⟩
      rw [dropBelow_none, List.set_eq_of_length_le (List.getElem?_eq_none_iff.mp found),
        Function.update_eq_self]
  | some c =>
      obtain ⟨list, place⟩ := split_at found
      generalize (w.forest.children array).take which.toNat = front at list place
      generalize (w.forest.children array).drop (which.toNat + 1) = back at list
      have listed : c ∈ w.forest.children array := by
        rw [list]
        exact List.mem_append_right _ List.mem_cons_self
      have linked := sound.holds.linked array
      have unique := w.forest.nodup array
      have missing := looseNew array
      rw [list] at linked unique first missing
      obtain ⟨items', written, rechained⟩ :=
        relink_eq linked unique stands first
          (linked_singleton standsNew (sound.holds.loose standsNew looseNew)) missing
      have list' : (w.forest.children array).set which.toNat item = front ++ item :: back := by
        rw [list, ← place, List.set_append_right _ _ (Nat.le_refl _), Nat.sub_self,
          List.set_cons_zero]
      obtain ⟨forest', lists⟩ := w.forest.exists_replaced looseNew apartNew list
      have children : forest'.children array = front ++ item :: back := by
        rw [lists, Function.update_self]
      have same (b : Nat) (other : b ≠ array) : forest'.children b = w.forest.children b := by
        rw [lists, Function.update_of_ne other]
      have holds : Holds Record.owns items' forest' := by
        refine sound.holds.relist same ⟨cell, stands, owns⟩ (fun y => ?_)
          (children.symm ▸ rechained)
        rw [children, list]
        simp only [List.mem_append, List.mem_cons]
        tauto
      have sound' : World.Sound ⟨{ w.memory with items := items' }, forest'⟩ :=
        ⟨holds, sound.tidy.relink rechained.touched.data⟩
      have gone : c ∉ forest'.children array := by
        rw [children, List.mem_append, List.mem_cons]
        have none := (List.nodup_middle.mp unique).notMem
        rintro (inside | rfl | inside)
        · exact none (List.mem_append_left _ inside)
        · exact looseNew array listed
        · exact none (List.mem_append_right _ inside)
      obtain ⟨node, there⟩ := sound.holds.stands listed
      obtain ⟨node', there', -⟩ := rechained.touched.stands there
      obtain ⟨m', forest'', deleted, lists', sound''⟩ :=
        sound'.delete ⟨node', there'⟩ (loose_of_removed list same gone)
      refine ⟨m', forest'', ?_, ?_, sound''⟩
      · rw [if_neg (by simp), written]
        exact deleted
      · rw [list']
        exact lists'.trans (dropBelow_update (Forest.not_below listed) lists)

end Deletions

variable [CDouble F] (malloc : Allocator)

/-- A call on a memory. -/
def ItemCall.perform (m : Memory F) : ItemCall F → Checked (Made F (Option Nat))
  | .keepText text => .ok (m.keepText malloc text)
  | .createNull => .ok (m.cJSONCreateNull malloc)
  | .createTrue => .ok (m.cJSONCreateTrue malloc)
  | .createFalse => .ok (m.cJSONCreateFalse malloc)
  | .createBool b => .ok (m.cJSONCreateBool malloc b)
  | .createNumber num => .ok (m.cJSONCreateNumber malloc num)
  | .createString string => .ok (m.cJSONCreateString malloc string)
  | .createArray => .ok (m.cJSONCreateArray malloc)
  | .createObject => .ok (m.cJSONCreateObject malloc)
  | .createReference item => m.createReference malloc (some item)
  | .addItemToArray array item =>
      (cJSONAddItemToArray m.items (some array) (some item)).map fun items =>
        ⟨none, { m with items }⟩
  | .addItemToObject object string item =>
      (cJSONAddItemToObject malloc m (some object) (some string) (some item)).map fun m =>
        ⟨none, m⟩
  | .addItemToObjectCS object string item =>
      (cJSONAddItemToObjectCS m (some object) (some string) (some item)).map fun m => ⟨none, m⟩
  | .insertItemInArray array which item =>
      (cJSONInsertItemInArray m.items (some array) which (some item)).map fun items =>
        ⟨none, { m with items }⟩
  | .detachItemFromArray array which =>
      (cJSONDetachItemFromArray m.items (some array) which).map fun detached =>
        ⟨detached.1, { m with items := detached.2 }⟩
  | .delete item => (cJSONDelete m (some item)).map fun m => ⟨none, m⟩
  | .deleteItemFromArray array which =>
      (cJSONDeleteItemFromArray m (some array) which).map fun m => ⟨none, m⟩
  | .replaceItemInArray array which item =>
      (cJSONReplaceItemInArray m (some array) which (some item)).map fun m => ⟨none, m⟩

/-- A call is allowed, has a result, and does to the links what it does to the lists. -/
structure Performs (w : World F) (call : ItemCall F) (w' : World F) : Prop where
  allowed : call.Allowed w
  performed : ∃ result,
    call.perform malloc w.memory = .ok ⟨result, w'.memory⟩ ∧ call.Returns w result
  lists : w'.forest.children = call.lists w.forest

section Steps

variable {malloc} {w w' : World F} {call : ItemCall F}

/-- An allowed call of a sound world has a result, and leads to a sound world. -/
theorem World.Sound.performs (sound : w.Sound) (allowed : call.Allowed w)
    : ∃ w', Performs malloc w call w' ∧ w'.Sound := by
  have vacant := Heap.lookup_place malloc w.memory.items
  cases call with
  | keepText text =>
      exact ⟨⟨_, w.forest⟩, ⟨trivial, ⟨_, rfl, _, rfl, Heap.lookup_place malloc _⟩, rfl⟩,
        sound.holds, sound.tidy.keepText malloc text⟩
  | createReference item =>
      obtain ⟨cell, stands⟩ := allowed
      refine ⟨⟨_, w.forest⟩,
        ⟨⟨cell, stands⟩, ⟨_, createReference_eq malloc stands, _, rfl, vacant⟩, rfl⟩,
        sound.holds.place vacant rfl (fun own => absurd own ?_), sound.tidy.insert vacant ?_⟩
      · simp [Record.owns, Record.reference]
      · simp [Record.texts, Record.reference, ownedText]
  | createNull | createTrue | createFalse | createArray | createObject =>
      exact ⟨⟨_, w.forest⟩, ⟨trivial, ⟨_, rfl, _, rfl, vacant⟩, rfl⟩, sound.place malloc rfl⟩
  | createBool b =>
      exact ⟨⟨_, w.forest⟩, ⟨trivial, ⟨_, rfl, _, rfl, vacant⟩, rfl⟩, sound.place malloc rfl⟩
  | createNumber num =>
      exact ⟨⟨_, w.forest⟩, ⟨trivial, ⟨_, rfl, _, rfl, vacant⟩, rfl⟩, sound.place malloc rfl⟩
  | createString string =>
      exact ⟨⟨_, w.forest⟩, ⟨trivial, ⟨_, rfl, _, rfl, vacant⟩, rfl⟩,
        ⟨sound.holds.place (Heap.lookup_place malloc _) rfl fun _ => rfl,
          sound.tidy.createString malloc string⟩⟩
  | addItemToArray array item =>
      obtain ⟨items', forest', added, lists, sound'⟩ := sound.addItemToArray allowed
      refine ⟨⟨_, forest'⟩, ⟨allowed, ⟨none, ?_, rfl⟩, lists⟩, sound'⟩
      rw [ItemCall.perform, added]
      rfl
  | addItemToObject object string item =>
      obtain ⟨listable, ⟨name, readable⟩, own⟩ := allowed
      obtain ⟨new, there⟩ := listable.stands
      obtain ⟨m₁, m₂, freed, read, named, renamed⟩ :=
        exists_renamed malloc sound.tidy there (own there).1 readable (own there).2
      obtain ⟨items', forest', added, lists, sound'⟩ :=
        (sound.renamed there renamed).addItemToArray (listable.renamed renamed)
      refine ⟨⟨_, forest'⟩, ⟨⟨listable, ⟨name, readable⟩, own⟩, ⟨none, ?_, rfl⟩, lists⟩, sound'⟩
      rw [ItemCall.perform, cJSONAddItemToObject, if_neg (by simp), Heap.read_eq there,
        Checked.ok_bind, freed, Checked.ok_bind, read, Checked.ok_bind, named, Checked.ok_bind,
        added]
      rfl
  | addItemToObjectCS object string item =>
      obtain ⟨new, there⟩ := allowed.stands
      obtain ⟨m₁, items₂, freed, named, renamed⟩ :=
        exists_renamed_constant sound.tidy there (some string)
      obtain ⟨items', forest', added, lists, sound'⟩ :=
        (sound.renamed there renamed).addItemToArray (World.Listable.renamed allowed renamed)
      refine ⟨⟨_, forest'⟩, ⟨allowed, ⟨none, ?_, rfl⟩, lists⟩, sound'⟩
      rw [ItemCall.perform, cJSONAddItemToObjectCS, if_neg (by simp), Heap.read_eq there,
        Checked.ok_bind, freed, Checked.ok_bind, named, Checked.ok_bind, added]
      rfl
  | insertItemInArray array which item =>
      obtain ⟨⟨cell, stands, owns⟩, ⟨new, there⟩, loose, apart⟩ := allowed
      obtain ⟨items', added, holds, data⟩ :=
        cJSONInsertItemInArray_inserts sound.holds stands owns there loose apart which
      refine ⟨⟨_, _⟩, ⟨⟨⟨cell, stands, owns⟩, ⟨new, there⟩, loose, apart⟩, ⟨none, ?_, rfl⟩, rfl⟩,
        holds, sound.tidy.relink data⟩
      rw [ItemCall.perform, added]
      rfl
  | detachItemFromArray array which =>
      obtain ⟨cell, stands, owns⟩ := allowed
      obtain ⟨items', detached, holds, data⟩ :=
        cJSONDetachItemFromArray_erases sound.holds stands owns which
      refine ⟨⟨_, _⟩, ⟨⟨cell, stands, owns⟩, ⟨_, ?_, rfl⟩, rfl⟩, holds,
        sound.tidy.relink data⟩
      rw [ItemCall.perform, detached]
      rfl
  | delete item =>
      obtain ⟨m', forest', deleted, lists, sound'⟩ := sound.delete allowed.1 allowed.2
      refine ⟨⟨m', forest'⟩, ⟨allowed, ⟨none, ?_, rfl⟩, lists⟩, sound'⟩
      rw [ItemCall.perform, deleted]
      rfl
  | deleteItemFromArray array which =>
      obtain ⟨m', forest', deleted, lists, sound'⟩ := sound.deleteItemFromArray allowed which
      refine ⟨⟨m', forest'⟩, ⟨allowed, ⟨none, ?_, rfl⟩, lists⟩, sound'⟩
      rw [ItemCall.perform, deleted]
      rfl
  | replaceItemInArray array which item =>
      obtain ⟨m', forest', replaced, lists, sound'⟩ := sound.replaceItemInArray allowed which
      refine ⟨⟨m', forest'⟩, ⟨allowed, ⟨none, ?_, rfl⟩, lists⟩, sound'⟩
      rw [ItemCall.perform, replaced]
      rfl

/-- What a call that is allowed makes of a sound world is sound. -/
theorem Performs.sound (step : Performs malloc w call w') (sound : w.Sound) : w'.Sound := by
  obtain ⟨w'', step', sound'⟩ := @World.Sound.performs F _ malloc w call sound step.allowed
  obtain ⟨result, performed, -⟩ := step.performed
  obtain ⟨result', performed', -⟩ := step'.performed
  have made := Except.ok.inj (performed.symm.trans performed')
  have memory : w'.memory = w''.memory := congrArg Made.memory made
  have forest : w'.forest = w''.forest := Forest.ext (step.lists.trans step'.lists.symm)
  exact ⟨memory ▸ forest ▸ sound'.holds, memory ▸ sound'.tidy⟩

end Steps

section Runs

variable {malloc} {w : World F}

/-- All worlds that allowed calls lead to are sound. -/
theorem World.Sound.of_reachable (reached : Reachable (Performs malloc) World.empty w) : w.Sound :=
  reached.invariant World.Sound World.sound_empty Performs.sound

/-- An array with one item can be built. -/
theorem exists_listed (F : Type) [CDouble F] (malloc : Allocator)
    : ∃ (w : World F) (a b : Nat),
        Reachable (Performs malloc) World.empty w ∧ w.forest.children a = [b] := by
  obtain ⟨w₁, step₁, sound₁⟩ :=
    @World.Sound.performs F _ malloc World.empty .createArray World.sound_empty trivial
  obtain ⟨w₂, step₂, sound₂⟩ := @World.Sound.performs F _ malloc w₁ .createNull sound₁ trivial
  obtain ⟨-, performed₁, a, rfl, -⟩ := step₁.performed
  obtain ⟨-, performed₂, b, rfl, vacant⟩ := step₂.performed
  have made₁ := Except.ok.inj performed₁
  have made₂ := Except.ok.inj performed₂
  have here : malloc.place World.empty.memory.items.keys = a :=
    Option.some.inj (congrArg Made.result made₁)
  have there : malloc.place w₁.memory.items.keys = b :=
    Option.some.inj (congrArg Made.result made₂)
  have items₁ := congrArg (fun made => made.memory.items.lookup a) made₁
  have items₂ (x : Nat) := congrArg (fun made => made.memory.items.lookup x) made₂
  simp only [Memory.cJSONCreateArray, Memory.cJSONCreateNull, Memory.place, Heap.lookup_insert,
    here, there, if_true] at items₁ items₂
  have other : a ≠ b := by
    rintro rfl
    rw [vacant] at items₁
    exact absurd items₁ (by simp)
  have lists₁ : w₁.forest.children = fun _ => [] := step₁.lists
  have lists₂ : w₂.forest.children = w₁.forest.children := step₂.lists
  have noLists (x : Nat) : w₂.forest.children x = [] := by rw [lists₂, lists₁]
  have stands := items₂ a
  rw [if_neg other, ← items₁] at stands
  have allowed : (ItemCall.addItemToArray a b : ItemCall F).Allowed w₂ :=
    ⟨⟨_, stands.symm, rfl⟩, ⟨_, (items₂ b).symm.trans (if_pos rfl)⟩,
      fun x member => by simp [noLists x] at member,
      fun below => other (below.eq_of_nil (noLists b))⟩
  obtain ⟨w₃, step₃, -⟩ := @World.Sound.performs F _ malloc w₂ _ sound₂ allowed
  refine ⟨w₃, a, b, ⟨_, ((Run.start.extend step₁).extend step₂).extend step₃⟩, ?_⟩
  rw [step₃.lists, ItemCall.lists, Function.update_self, noLists]
  rfl

end Runs

end Cvos.LibJson

import Cvos.LibJson.ItemRuns

/-! The functions of cJSON that make several items or calls at once: references that are listed, and
arrays of the items for some values. Each does what a run of the single calls does.
-/

namespace Cvos.LibJson

open Cvos.Lib

variable {F : Type} [CDouble F] {malloc : Allocator} {w : World F}

/-- A world after an item was placed where none stood, and the lists stayed. -/
structure Placed (malloc : Allocator) (w : World F) (call : ItemCall F) (a : Nat) (m : Memory F)
    : Prop where
  vacant : w.memory.items.lookup a = none
  items : ∃ node, m.items = w.memory.items.insert a node
  step : Performs malloc w call ⟨m, w.forest⟩

section Listings

variable {call : ItemCall F} {array a : Nat} {m : Memory F}

/-- A new item may be listed below the ones that were there before. -/
theorem Placed.listable (placed : Placed malloc w call a m) (sound : w.Sound)
    (owner : w.Owner array)
    : World.Listable ⟨m, w.forest⟩ array a := by
  obtain ⟨cell, stands, owns⟩ := owner
  obtain ⟨node, items⟩ := placed.items
  obtain ⟨nothing, loose⟩ := sound.holds.dead placed.vacant
  have other : array ≠ a := by
    rintro rfl
    rw [placed.vacant] at stands
    exact absurd stands (by simp)
  refine ⟨⟨cell, ?_, owns⟩, ⟨node, ?_⟩, loose, fun below => other (below.eq_of_nil nothing)⟩
  · rw [items, Heap.lookup_insert, if_neg other, stands]
  · rw [items, Heap.lookup_insert, if_pos rfl]

/-- A new item is listed behind the last one. -/
theorem Placed.exists_listed (placed : Placed malloc w call a m)
    (reached : Reachable (Performs malloc) World.empty w) (owner : w.Owner array)
    : ∃ items' forest',
        cJSONAddItemToArray m.items (some array) (some a) = .ok items'
        ∧ forest'.children
          = Function.update w.forest.children array (w.forest.children array ++ [a])
        ∧ Reachable (Performs malloc) World.empty ⟨{ m with items := items' }, forest'⟩ := by
  have sound := World.Sound.of_reachable reached
  have listable := placed.listable sound owner
  obtain ⟨items', forest', added, lists, -⟩ := (placed.step.sound sound).addItemToArray listable
  have step : Performs malloc ⟨m, w.forest⟩ (.addItemToArray array a)
      ⟨{ m with items := items' }, forest'⟩ := by
    refine ⟨listable, ⟨none, ?_, rfl⟩, lists⟩
    rw [ItemCall.perform, added]
    rfl
  exact ⟨items', forest', added, lists, (reached.extend placed.step).extend step⟩

/-- `create_reference` places an item with the fields of another one, but no name. -/
theorem placed_createReference {item : Nat} {cell : Cell F}
    (stands : w.memory.items.lookup item = some cell)
    : ∃ ref items,
        w.memory.createReference malloc (some item) = .ok ⟨some ref, { w.memory with items }⟩
        ∧ Placed malloc w (.createReference item) ref { w.memory with items }
        ∧ items.lookup ref = some ⟨none, none, cell.child, cell.data.reference⟩ := by
  have vacant := Heap.lookup_place malloc w.memory.items
  have created := createReference_eq malloc stands
  refine ⟨_, _, created, ⟨vacant, ⟨_, rfl⟩, ⟨cell, stands⟩, ⟨_, created, _, rfl, vacant⟩, rfl⟩, ?_⟩
  rw [Heap.lookup_insert, if_pos rfl]

section References

variable (reached : Reachable (Performs malloc) World.empty w) (owner : w.Owner array) {item : Nat}
  {cell : Cell F} (stands : w.memory.items.lookup item = some cell)

include reached owner stands

/-- `cJSON_AddItemReferenceToArray` lists a new reference behind the last item. -/
theorem cJSONAddItemReferenceToArray_reachable
    : ∃ ref m' forest',
        cJSONAddItemReferenceToArray malloc w.memory (some array) (some item) = .ok m'
        ∧ w.memory.items.lookup ref = none
        ∧ forest'.children
          = Function.update w.forest.children array (w.forest.children array ++ [ref])
        ∧ Reachable (Performs malloc) World.empty ⟨m', forest'⟩ := by
  obtain ⟨ref, items, created, placed, -⟩ := @placed_createReference F _ malloc w item cell stands
  obtain ⟨items', forest', added, lists, reached'⟩ := placed.exists_listed reached owner
  refine ⟨ref, _, forest', ?_, placed.vacant, lists, reached'⟩
  rw [cJSONAddItemReferenceToArray, created, Checked.ok_bind, added]
  rfl

/-- `cJSON_AddItemReferenceToObject` lists a new reference with a name. The reference keeps the flag
of a name of the caller's, so with such a name it would not own its own.
-/
theorem cJSONAddItemReferenceToObject_reachable (own : cell.data.stringIsConst = false)
    {string : Nat} {name : TextBlock} (readable : w.memory.texts.lookup string = some name)
    : ∃ ref m' forest',
        cJSONAddItemReferenceToObject malloc w.memory (some array) (some string) (some item)
          = .ok m'
        ∧ w.memory.items.lookup ref = none
        ∧ forest'.children
          = Function.update w.forest.children array (w.forest.children array ++ [ref])
        ∧ Reachable (Performs malloc) World.empty ⟨m', forest'⟩ := by
  obtain ⟨ref, items, created, placed, there⟩ :=
    @placed_createReference F _ malloc w item cell stands
  have sound := World.Sound.of_reachable reached
  have allowed : ItemCall.Allowed ⟨{ w.memory with items }, w.forest⟩
      (.addItemToObject array string ref : ItemCall F) := by
    refine ⟨placed.listable sound owner, ⟨name, readable⟩, fun {new} found => ?_⟩
    obtain rfl := Option.some.inj (there.symm.trans found)
    exact ⟨own, by simp [Record.reference]⟩
  obtain ⟨w', step, -⟩ :=
    @World.Sound.performs F _ malloc _ _ (placed.step.sound sound) allowed
  obtain ⟨result, performed, -⟩ := step.performed
  obtain ⟨m', added, made⟩ := Checked.map_eq_ok.mp performed
  have memory : m' = w'.memory := congrArg Made.memory made
  refine ⟨ref, w'.memory, w'.forest, ?_, placed.vacant, step.lists,
    (reached.extend placed.step).extend step⟩
  rw [cJSONAddItemReferenceToObject, created, Checked.ok_bind, ← memory]
  exact added

end References

end Listings

section Arrays

variable {α : Type} {create : Memory F → α → Made F (Option Nat)} {call : α → ItemCall F} {a : Nat}

/-- Each value is made into an item by a call. -/
def Creates (malloc : Allocator) (create : Memory F → α → Made F (Option Nat))
    (call : α → ItemCall F)
    : Prop :=
  ∀ (w : World F) (value : α), ∃ a m,
    create w.memory value = ⟨some a, m⟩ ∧ Placed malloc w (call value) a m

omit [CDouble F] in
/-- `cJSON_AddItemToArray` starts the list of an item, or continues it. -/
theorem cJSONAddItemToArray_eq {array : Nat} (sound : w.Sound) (owner : w.Owner array)
    (item : Nat)
    : cJSONAddItemToArray w.memory.items (some array) (some item)
      = if (w.forest.children array).getLast?.isNone then
          w.memory.items.change (some array) fun cell => { cell with child := some item }
        else
          suffixObject w.memory.items (w.forest.children array).getLast? (some item) := by
  obtain ⟨cell, stands, owns⟩ := owner
  have first := sound.holds.child stands owns
  rw [cJSONAddItemToArray, Heap.read_eq stands, Checked.ok_bind, if_neg (by simp), first]
  by_cases empty : w.forest.children array = []
  · rw [empty]
    rfl
  · rw [if_neg (by simpa using empty), if_neg (by simpa using empty),
      suffixLast_eq_suffixObject (sound.holds.linked array) (w.forest.nodup array) empty]

/-- The loop over the values lists an item for each behind the ones that are there. -/
theorem createItems_reachable (creates : Creates malloc create call) (values : List α)
    (reached : Reachable (Performs malloc) World.empty w) (owner : w.Owner a)
    : ∃ items m' forest',
        createItems create (some a) values (w.forest.children a).getLast? w.memory = .ok m'
        ∧ items.length = values.length
        ∧ forest'.children
          = Function.update w.forest.children a (w.forest.children a ++ items)
        ∧ Reachable (Performs malloc) World.empty ⟨m', forest'⟩ := by
  induction values generalizing w with
  | nil =>
      refine ⟨[], w.memory, w.forest, rfl, rfl, ?_, reached⟩
      rw [List.append_nil, Function.update_eq_self]
  | cons value values ih =>
      have sound := World.Sound.of_reachable reached
      obtain ⟨b, m, made, placed⟩ := creates w value
      obtain ⟨items', forest', added, lists, reached'⟩ := placed.exists_listed reached owner
      rw [cJSONAddItemToArray_eq (placed.step.sound sound) (placed.listable sound owner).owner]
        at added
      have list : forest'.children a = w.forest.children a ++ [b] := by
        rw [lists, Function.update_self]
      have owner' : World.Owner ⟨{ m with items := items' }, forest'⟩ a :=
        (World.Sound.of_reachable reached').holds.owner (by rw [list]; simp)
      obtain ⟨items, m', forest'', created, length, lists', reached''⟩ := ih reached' owner'
      refine ⟨b :: items, m', forest'', ?_, congrArg Nat.succ length, ?_, reached''⟩
      · rw [list, List.getLast?_append, List.getLast?_singleton, Option.some_or] at created
        rw [createItems, made, ← created]
        exact congrArg (· >>= _) added
      · rw [lists', list, lists, Function.update_idem, List.append_assoc, List.singleton_append]

/-- By a run of calls, a new array of a number of items was made. -/
def MakesArray (malloc : Allocator) (w : World F) (made : Checked (Made F (Option Nat)))
    (count : Nat)
    : Prop :=
  ∃ a items m' forest',
    made = .ok ⟨some a, m'⟩
    ∧ w.memory.items.lookup a = none
    ∧ items.length = count
    ∧ forest'.children = Function.update w.forest.children a items
    ∧ Reachable (Performs malloc) World.empty ⟨m', forest'⟩

/-- An array of the items for some values is made by a run of calls. -/
theorem createArrayOf_reachable (creates : Creates malloc create call) (values : List α)
    (reached : Reachable (Performs malloc) World.empty w)
    : MakesArray malloc w (w.memory.createArrayOf malloc create values) values.length := by
  have sound := World.Sound.of_reachable reached
  have vacant := Heap.lookup_place malloc w.memory.items
  have step : Performs malloc w .createArray ⟨_, w.forest⟩ :=
    ⟨trivial, ⟨_, rfl, _, rfl, vacant⟩, rfl⟩
  have nothing := (sound.holds.dead vacant).1
  have owner : World.Owner ⟨(w.memory.cJSONCreateArray malloc).memory, w.forest⟩
      (malloc.place w.memory.items.keys) :=
    ⟨_, (Heap.lookup_insert ..).trans (if_pos rfl), rfl⟩
  obtain ⟨items, m', forest', created, length, lists, reached'⟩ :=
    createItems_reachable creates values (reached.extend step) owner
  refine ⟨_, items, m', forest', ?_, vacant, length, ?_, reached'⟩
  · simp only [nothing, List.getLast?_nil] at created
    rw [Memory.createArrayOf]
    exact congrArg (Except.map _) created
  · simpa only [nothing, List.nil_append] using lists

/-- Each number is made into an item. -/
theorem creates_number (toDouble : α → F)
    : Creates malloc (fun m value => m.cJSONCreateNumber malloc (toDouble value))
        fun value => .createNumber (toDouble value) := by
  intro w value
  have vacant := Heap.lookup_place malloc w.memory.items
  exact ⟨_, _, rfl, vacant, ⟨_, rfl⟩, trivial, ⟨_, rfl, _, rfl, vacant⟩, rfl⟩

/-- Each text is made into an item. -/
theorem creates_string
    : Creates malloc (fun (m : Memory F) string => m.cJSONCreateString malloc string)
        .createString := by
  intro w string
  have vacant := Heap.lookup_place malloc w.memory.items
  exact ⟨_, _, rfl, vacant, ⟨_, rfl⟩, trivial, ⟨_, rfl, _, rfl, vacant⟩, rfl⟩

/-- `cJSON_CreateIntArray`, `cJSON_CreateDoubleArray` and `cJSON_CreateStringArray` make an item for
each value and list them in an array.
-/
theorem createArrays_reachable (reached : Reachable (Performs malloc) World.empty w)
    : (∀ numbers,
        MakesArray malloc w (w.memory.cJSONCreateIntArray malloc numbers) numbers.length)
      ∧ (∀ numbers,
        MakesArray malloc w (w.memory.cJSONCreateDoubleArray malloc numbers) numbers.length)
      ∧ ∀ strings,
        MakesArray malloc w (w.memory.cJSONCreateStringArray malloc strings) strings.length :=
  ⟨fun numbers => createArrayOf_reachable (creates_number CDouble.ofInt) numbers reached,
    fun numbers => createArrayOf_reachable (creates_number id) numbers reached,
    fun strings => createArrayOf_reachable creates_string strings reached⟩

end Arrays

end Cvos.LibJson

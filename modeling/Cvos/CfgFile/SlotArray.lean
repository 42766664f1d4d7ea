import Cvos.CfgFile.Slots

/-! What the changes of the entry array in memory do to the slots that hold its entries.
-/

namespace Cvos.CfgFile

open Cvos.Lib

/-- The array holds the given slots with entries, in front of some spare slots. -/
structure EntryArray.Holds (a : EntryArray) (live : List Slot) (spare : List (Option Slot)) : Prop
    where
  slots : a.slots = live.map some ++ spare
  count : a.numEntries = live.length

section Arrays

variable {a : EntryArray} {live : List Slot} {spare : List (Option Slot)}

/-- The entries of an array are those of its slots. -/
theorem EntryArray.Holds.entries (holds : a.Holds live spare)
    : a.entries = live.map Slot.view := by
  rw [EntryArray.entries, holds.slots, holds.count, ← List.length_map (f := some), List.take_left,
    List.filterMap_map]
  exact congrFun (List.filterMap_eq_map (f := Slot.view)) live

/-- The pool of an array has its entries and its capacity. -/
theorem EntryArray.Holds.pool_eq (holds : a.Holds live spare) {p : Pool}
    (entries : p.entries = live.map Slot.view) (maxEntries : p.maxEntries = a.slots.length)
    : a.pool = p := by
  obtain ⟨es, max, room⟩ := p
  have same : a.pool.entries = live.map Slot.view := holds.entries
  obtain rfl : es = _ := entries
  obtain rfl : max = a.slots.length := maxEntries
  rw [EntryArray.pool]
  simp [holds.entries]

/-- Reading a slot that holds an entry. -/
theorem EntryArray.Holds.entry_eq {before behind : List Slot} {slot : Slot}
    (holds : a.Holds (before ++ slot :: behind) spare)
    : a.entry before.length = .ok slot := by
  have block : a.slots = before.map some ++ some slot :: (behind.map some ++ spare) := by
    simp [holds.slots]
  have below : (before.map some).length < a.numEntries := by simp [holds.count]
  have read := slotAt_append_cons below (some slot) (behind.map some ++ spare)
  rw [List.length_map] at read
  rw [EntryArray.entry, block, read]
  rfl

/-- Writing a slot that holds an entry. -/
theorem EntryArray.Holds.set {before behind : List Slot} {slot : Slot}
    (holds : a.Holds (before ++ slot :: behind) spare) (slot' : Slot)
    : EntryArray.Holds { a with slots := a.slots.set before.length (some slot') }
        (before ++ slot' :: behind) spare where
  slots := by simp [holds.slots]
  count := by simp [holds.count]

/-- A new slot is the one behind those with entries, of an array that has grown if it was full.
-/
theorem EntryArray.Holds.poolalloc (holds : a.Holds live spare)
    : ∃ stale spare',
        cfgPoolalloc a
        = (live.length,
            ⟨if spare = [] then a.base + 1 else a.base, live.map some ++ stale :: spare',
              live.length + 1⟩)
        ∧ (live.map some ++ stale :: spare').length = a.pool.reserved
        ∧ (spare ≠ [] → spare = stale :: spare') := by
  have max : a.slots.length = live.length + spare.length := by simp [holds.slots]
  have entries : a.pool.entries.length = live.length :=
    (congrArg List.length holds.entries).trans (List.length_map ..)
  have capacity : a.pool.maxEntries = a.slots.length := rfl
  cases spare with
  | cons stale spare =>
      have room : ¬live.length + 1 > a.slots.length := by simp [max]
      refine ⟨stale, spare, ?_, ?_, fun _ => rfl⟩
      · rw [cfgPoolalloc, holds.count, if_neg room]
        simp [holds.slots]
      · rw [Pool.reserved, entries, capacity, if_neg room, max]
        simp
  | nil =>
      have full : live.length + 1 > a.slots.length := by simp [max]
      have kept : a.slots.take live.length = live.map some := by
        rw [holds.slots, ← List.length_map (f := some), List.take_left]
      have grown : live.length < a.pool.reserved := entries ▸ a.pool.length_lt_reserved
      refine ⟨none, List.replicate (a.pool.reserved - live.length - 1) none, ?_, ?_, by simp⟩
      · rw [← List.replicate_succ, Nat.sub_add_cancel (by omega), cfgPoolalloc, holds.count,
          if_pos full, if_pos rfl, kept, Pool.reserved, entries, capacity, if_pos full]
      · rw [← List.replicate_succ, Nat.sub_add_cancel (by omega), List.length_append,
          List.length_map, List.length_replicate]
        omega

/-- Storing into a new slot puts its entry behind the others. -/
theorem EntryArray.Holds.store (holds : a.Holds live spare) (slot : Slot)
    : ∃ spare',
        EntryArray.Holds
          { (cfgPoolalloc a).2 with
            slots := (cfgPoolalloc a).2.slots.set (cfgPoolalloc a).1 (some slot) }
          (live ++ [slot]) spare'
        ∧ ((cfgPoolalloc a).2.slots.set (cfgPoolalloc a).1 (some slot)).length
          = a.pool.reserved := by
  obtain ⟨stale, spare', allocated, length, -⟩ := holds.poolalloc
  rw [allocated]
  refine ⟨spare', ⟨?_, by simp⟩, by simpa using length⟩
  simp

end Arrays

-----------------------------------------------------------------------------------------
-- What each change of the array does to its slots
-----------------------------------------------------------------------------------------

/-- The slot that `cfg_storeentry` fills with duplicates, and the strings then. -/
def dynamicSlot (strings : Strings) (sectionName id value : Option Bytes) : Slot × Strings :=
  let (sectionName, strings) := strings.strdupAny sectionName
  let (id, strings) := strings.strdupAny id
  let (value, strings) := strings.strdupAny value
  (⟨⟨sectionName, id, value, none⟩, sectionName.isSome, id.isSome, value.isSome, false⟩, strings)

/-- The slot with another, duplicated value. -/
def Slot.updated (slot : Slot) (value : Bytes) (n : Nat) : Slot :=
  { slot with
    entry := { slot.entry with value := some ⟨value, some n⟩ }
    mustFreeValue := true }

/-- The slot of a new key, in the place of a header whose flags remain. -/
def Slot.inserted (header : Slot) (id value : Bytes) (n : Nat) : Slot :=
  { header with
    entry := ⟨none, some ⟨id, some n⟩, some ⟨value, some (n + 1)⟩, none⟩
    mustFreeId := true
    mustFreeValue := true }

/-- The value that is freed before it is replaced. -/
def Slot.replaced (slot : Slot) : List CfgString :=
  if slot.mustFreeValue then slot.entry.value.toList else []

section Changes

variable {c : SlotConfig} {live : List Slot} {spare : List (Option Slot)}

/-- Storing duplicates puts a slot behind the others. -/
theorem cfgStoreentryDynamic_eq (holds : c.array.Holds live spare)
    (sectionName id value : Option Bytes)
    : ∃ a spare',
        cfgStoreentryDynamic c sectionName id value none
          = .ok
              { c with array := a, strings := (dynamicSlot c.strings sectionName id value).2 }
        ∧ a.Holds (live ++ [(dynamicSlot c.strings sectionName id value).1]) spare'
        ∧ a.slots.length = c.array.pool.reserved := by
  obtain ⟨spare', stored, length⟩ := holds.store (dynamicSlot c.strings sectionName id value).1
  exact ⟨_, spare', rfl, stored, length⟩

/-- Storing strings of the image puts a slot behind the others. -/
theorem cfgStoreentry_eq (holds : c.array.Holds live spare) (e : CfgEntry CfgString)
    : ∃ a spare',
        cfgStoreentry c e = { c with array := a }
        ∧ a.Holds (live ++ [⟨e, false, false, false, false⟩]) spare'
        ∧ a.slots.length = c.array.pool.reserved := by
  obtain ⟨spare', stored, length⟩ := holds.store ⟨e, false, false, false, false⟩
  exact ⟨_, spare', rfl, stored, length⟩

/-- Updating a value changes the slot, and frees the old value if that is to be freed. -/
theorem slotUpdate_eq {before behind : List Slot} {slot : Slot}
    (holds : c.array.Holds (before ++ slot :: behind) spare) (value : Bytes)
    : ∃ a,
        slotUpdate c before.length (some value)
          = .ok
              (0,
                { c with
                  array := a
                  strings := ⟨c.strings.next + 1, c.strings.freed ++ slot.replaced⟩
                  dirty := true })
        ∧ a.Holds (before ++ slot.updated value c.strings.next :: behind) spare
        ∧ a.slots.length = c.array.slots.length := by
  refine ⟨_, ?_, holds.set (slot.updated value c.strings.next), by simp⟩
  rw [slotUpdate, holds.entry_eq, Checked.ok_bind, Slot.replaced]
  cases slot.entry.value <;> cases slot.mustFreeValue <;>
    simp [Strings.strdup, Strings.free, Slot.updated]

/-- Updating without a value passes a null pointer to `strdup`. -/
theorem slotUpdate_null {before behind : List Slot} {slot : Slot}
    (holds : c.array.Holds (before ++ slot :: behind) spare)
    : slotUpdate c before.length none = .error .nullPointer := by
  rw [slotUpdate, holds.entry_eq, Checked.ok_bind]

/-- Inserting into a full array uses the array that was freed. -/
theorem slotInsert_full (holds : c.array.Holds live []) (e : Nat) (id value : Bytes)
    : slotInsert c e id value = .error .useAfterFree := by
  obtain ⟨stale, spare', allocated, -, -⟩ := holds.poolalloc
  simp [slotInsert, allocated]

/-- Inserting with one spare slot moves a slot out of the array. -/
theorem slotInsert_one {stale : Option Slot} (holds : c.array.Holds live [stale]) {e : Nat}
    (inside : e < live.length) (id value : Bytes)
    : slotInsert c e id value = .error .outOfBounds := by
  obtain ⟨stale', spare', allocated, -, same⟩ := holds.poolalloc
  obtain ⟨rfl, rfl⟩ : stale = stale' ∧ [] = spare' := by simpa using same
  have beyond
      : ¬(e + (live.length + 1 - e) ≤ (live.map some ++ [stale]).length
          ∧ e + 1 + (live.length + 1 - e) ≤ (live.map some ++ [stale]).length) := by
    simp only [List.length_append, List.length_map, List.length_singleton]
    omega
  rw [slotInsert, allocated]
  simp only [List.cons_ne_nil, if_false, ne_eq, not_true_eq_false, memmove, if_neg beyond,
    Checked.error_bind]

/-- Inserting with two spare slots puts the new slot in front of a header. -/
theorem slotInsert_eq {above below : List Slot} {header : Slot} {stale last : Option Slot}
    (holds : c.array.Holds (above ++ header :: below) (stale :: last :: spare)) (id value : Bytes)
    : ∃ a,
        slotInsert c above.length id value
          = .ok
              (0,
                { c with
                  array := a
                  strings := ⟨c.strings.next + 2, c.strings.freed⟩
                  dirty := true })
        ∧ a.Holds (above ++ header.inserted id value c.strings.next :: header :: below)
            (stale :: spare)
        ∧ a.slots.length = c.array.slots.length := by
  obtain ⟨stale', spare', allocated, -, same⟩ := holds.poolalloc
  obtain ⟨rfl, rfl⟩ : stale = stale' ∧ last :: spare = spare' := by simpa using same
  have block
      : (above ++ header :: below).map some ++ stale :: last :: spare
        = above.map some ++ (some header :: (below.map some ++ [stale]) ++ last :: spare) := by
    simp
  have count
      : (above ++ header :: below).length + 1 - above.length
        = (below.map some ++ [stale]).length + 1 := by
    simp only [List.length_append, List.length_cons, List.length_map, List.length_nil]
    omega
  generalize size
      : (above.map some ++ (some header :: (below.map some ++ [stale]) ++ last :: spare)).length
        = limit
  have large : above.length + below.length + 3 ≤ limit := by
    simp only [List.length_append, List.length_cons, List.length_map, List.length_nil] at size
    omega
  have moved := memmove_up limit (above.map some) (some header) last spare count (by
    simp only [List.length_append, List.length_cons, List.length_map]
    omega)
  have inside : (above.map some).length < limit := by
    rw [List.length_map]
    omega
  have read :=
    slotAt_append_cons inside (some header) (some header :: (below.map some ++ [stale]) ++ spare)
  rw [List.length_map] at moved read
  refine ⟨⟨c.array.base, above.map some ++ some (header.inserted id value c.strings.next)
    :: (some header :: (below.map some ++ [stale]) ++ spare),
    (above ++ header :: below).length + 1⟩, ?_, ⟨by simp, by simp [Nat.add_assoc]⟩,
    by simp [holds.slots, Nat.add_assoc]⟩
  rw [slotInsert, allocated]
  simp only [block, size, moved, read, Checked.ok_bind]
  simp [Slot.inserted, Strings.strdup]

/-- The strings that some entries give to `free`. -/
def releaseAll (slots : List Slot) : List CfgString := slots.flatMap Slot.release

/-- A loop that frees entries gives all their flagged strings to `free`. -/
theorem freeEntries_eq {before gone behind : List Slot}
    (holds : c.array.Holds (before ++ (gone ++ behind)) spare) (strings : Strings)
    : freeEntries c.array gone.length before.length strings
      = .ok ⟨strings.next, strings.freed ++ releaseAll gone⟩ := by
  induction gone generalizing before strings with
  | nil => simp [freeEntries, releaseAll]
  | cons slot gone ih =>
      have holds' : c.array.Holds ((before ++ [slot]) ++ (gone ++ behind)) spare := by
        simpa using holds
      have further := ih holds' ⟨strings.next, strings.freed ++ slot.release⟩
      rw [List.length_append, List.length_singleton] at further
      rw [List.length_cons, freeEntries, holds.entry_eq, Checked.ok_bind, further, releaseAll,
        releaseAll, List.flatMap_cons, List.append_assoc]

/-- Deleting entries frees their strings and moves those behind them. -/
theorem slotDelete_eq {kept block gone rest : List Slot}
    (holds : c.array.Holds (kept ++ (block ++ (gone ++ rest))) spare)
    (moved : moveUp c.array.pool (kept ++ block).length = .ok kept.length)
    : ∃ a left,
        slotDelete c (kept ++ block).length (kept ++ block ++ gone).length
          = .ok
              (0,
                { c with
                  array := a
                  strings := ⟨c.strings.next, c.strings.freed ++ releaseAll (block ++ gone)⟩
                  dirty := true })
        ∧ a.Holds (kept ++ rest) left
        ∧ a.slots.length = c.array.slots.length := by
  have holds : c.array.Holds (kept ++ ((block ++ gone) ++ rest)) spare := by simpa using holds
  have freed := freeEntries_eq holds c.strings
  have count : c.array.numEntries = kept.length + (block ++ gone).length + rest.length := by
    rw [holds.count, List.length_append, List.length_append, Nat.add_assoc]
  obtain ⟨left, length, shifted⟩ :=
    memmove_down c.array.numEntries (kept.map some) ((block ++ gone).map some)
      (rest.map some) spare (by simp only [List.length_map]; omega)
  simp only [List.length_map] at length shifted
  have place : (kept ++ block ++ gone).length = kept.length + (block ++ gone).length := by
    simp
  have behind : c.array.numEntries - (kept.length + (block ++ gone).length) = rest.length := by
    omega
  have fewer : c.array.numEntries - (block ++ gone).length = (kept ++ rest).length := by
    simp only [List.length_append] at count ⊢
    omega
  have slots : c.array.slots
      = kept.map some ++ ((block ++ gone).map some ++ (rest.map some ++ spare)) := by
    simp [holds.slots]
  refine ⟨
    ⟨c.array.base, kept.map some ++ (rest.map some ++ (left ++ spare)), (kept ++ rest).length⟩,
    left ++ spare, ?_, ⟨by simp, rfl⟩, by simp [slots, length]; omega⟩
  rw [slotDelete, moved, Checked.ok_bind, place, Nat.add_sub_cancel_left, freed, Checked.ok_bind,
    behind, slots, shifted, Checked.ok_bind, fewer]

end Changes

end Cvos.CfgFile

import Cvos.CfgFile.SlotArray
import Cvos.CfgFile.WriteEffect

/-! The entry array in memory represents the pool of entries: each change of a slot is the change of
an entry, and `cfg_write` faults on the slots exactly when it does on the entries.
-/

namespace Cvos.CfgFile

open Cvos.Lib

/-- A search for any entry with the key finds one of the given ones, or counts them all. -/
theorem anyKeyFrom_bounds {id : Option Bytes} {e : Nat} {rest : List Entry} {key : Option Nat}
    {i : Int} (found : anyKeyFrom id rest.length e rest = .ok (key, i))
    : (∀ k, key = some k → e ≤ k ∧ k < e + rest.length) ∧ (key = none → i = -1) := by
  induction rest generalizing e with
  | nil =>
      obtain ⟨rfl, rfl⟩ : none = key ∧ -1 = i := by simpa [anyKeyFrom] using found
      exact ⟨by simp, fun _ => rfl⟩
  | cons entry rest ih =>
      have onward (found : anyKeyFrom id rest.length (e + 1) rest = .ok (key, i))
          : (∀ k, key = some k → e ≤ k ∧ k < e + (entry :: rest).length)
            ∧ (key = none → i = -1) := by
        obtain ⟨bounds, none⟩ := ih found
        refine ⟨fun k known => ?_, none⟩
        have := bounds k known
        simp only [List.length_cons]
        omega
      rw [anyKeyFrom_cons] at found
      cases stored : entry.id with
      | none => exact onward (by simpa [stored] using found)
      | some k =>
          cases same : strcmpEq (some k) id with
          | error f => simp [stored, same] at found
          | ok here =>
              cases here with
              | false => exact onward (by simpa [stored, same] using found)
              | true =>
                  obtain ⟨rfl, rfl⟩ : some e = key ∧ (rest.length : Int) = i := by
                    simpa [stored, same] using found
                  refine ⟨?_, by simp⟩
                  rintro k ⟨⟩
                  simp

/-- Moving up stops at the latest behind an entry that is no comment. -/
theorem moveUp_bounds {p : Pool} {e m h : Nat} (moved : moveUp p e = .ok m)
    (stops : ∀ entry, p.entry h = .ok entry → entry.isBlockComment = false) (below : h < e)
    : h < m ∧ m ≤ e := by
  induction e with
  | zero => omega
  | succ e ih =>
      rw [moveUp] at moved
      obtain ⟨entry, read, moved⟩ := Checked.bind_eq_ok.mp moved
      split at moved
      next comment =>
        by_cases here : h = e
        · subst here
          rw [stops entry read] at comment
          contradiction
        · have := ih moved (by omega)
          omega
      next =>
        obtain rfl := Except.ok.inj moved
        omega

/-- Moving up does not move down. -/
theorem moveUp_le {p : Pool} {e m : Nat} (moved : moveUp p e = .ok m) : m ≤ e := by
  induction e with
  | zero => simp [moveUp] at moved
  | succ e ih =>
      rw [moveUp] at moved
      obtain ⟨entry, -, moved⟩ := Checked.bind_eq_ok.mp moved
      split at moved
      next => exact Nat.le_succ_of_le (ih moved)
      next => exact Nat.le_of_eq (Except.ok.inj moved).symm

section Calls

variable {c : SlotConfig} {n : Nat} (count : c.array.entries.length = n)
  {P : Checked (Int × SlotConfig) → Checked (Int × Config) → Prop}
  (fault : ∀ f, P (.error f) (.error f)) (keep : ∀ ret, P (.ok (ret, c)) (.ok (ret, c.view)))
  (update : ∀ e value, e < n → P (slotUpdate c e value) (updateEntry c.view e value))
  (insert
    : ∀ e id value,
        e < n
        → P (slotInsert c e id value)
            (do
              let pool ← c.view.pool.insertBefore e id value
              .ok (0, c.view.edited pool)))
  (append
    : ∀ id value,
        P
          (do
            let c ← cfgStoreentryDynamic c none (some id) (some value) none
            .ok (0, { c with dirty := true }))
          (.ok (0, c.view.edited (c.view.pool.storeentry (defineEntry id value)))))
  (create
    : ∀ s id value,
        P
          (do
            let c ← cfgStoreentryDynamic c (some s) none none none
            let c ← cfgStoreentryDynamic c none (some id) (some value) none
            .ok (0, { c with dirty := true }))
          (.ok
            (0,
              c.view.edited
                ((c.view.pool.storeentry ⟨some s, none, none, none⟩).storeentry
                  (defineEntry id value)))))
  (delete
    : ∀ m eSect e,
        moveUp c.array.pool eSect = .ok m
        → m ≤ eSect
        → eSect ≤ e
        → e ≤ n
        → P (slotDelete c eSect e) (doDelete c.view eSect e))

include fault delete in
/-- A delete faults where moving up does, or deletes. -/
theorem slotDelete_rule {eSect e : Nat} (order : eSect ≤ e) (inside : e ≤ n)
    : P (slotDelete c eSect e) (doDelete c.view eSect e) := by
  cases moved : moveUp c.array.pool eSect with
  | ok m => exact delete m eSect e moved (moveUp_le moved) order inside
  | error f =>
      have moved' : moveUp c.view.pool eSect = .error f := moved
      rw [slotDelete, moved, doDelete, moved']
      exact fault f

include count fault keep update insert append delete in
/-- Within a section, `cfg_write` on the slots makes the change that it makes on the entries. -/
theorem slotFound_rule {before behind : List Entry} {header : Entry}
    (parts : c.array.entries = before ++ header :: behind) (named : header.sectionName.isSome)
    (id value : Option Bytes)
    : P (slotFound c before.length behind.length id value)
        (writeFound c.view before.length behind.length id value) := by
  have behind' : c.array.entries.drop (before.length + 1) = behind := by
    simp [parts, List.drop_append]
  have same : c.view.pool.entries = c.array.entries := rfl
  have size : before.length + 1 + behind.length = n := by
    rw [← count, parts, List.length_append, List.length_cons]
    omega
  -- A section is deleted from its header up to where moving up from its end stops.
  have deleteSection (e : Nat) (above : before.length < e) (inside : e ≤ n)
      : P
          (do
            let e ← moveUp c.array.pool e
            slotDelete c before.length e)
          (do
            let e ← moveUp c.array.pool e
            doDelete c.view before.length e) := by
    cases moved : moveUp c.array.pool e with
    | error f => exact fault f
    | ok m =>
        have stops : ∀ entry, c.array.pool.entry before.length = .ok entry
            → entry.isBlockComment = false := by
          intro entry read
          have read' : c.array.pool.entry before.length = .ok header := by
            have entries : c.array.pool.entries = before ++ header :: behind := parts
            simp [Pool.entry, entries]
          obtain rfl := Except.ok.inj (read'.symm.trans read)
          exact isBlockComment_of_header named
        obtain ⟨bound, within⟩ := moveUp_bounds moved stops above
        exact slotDelete_rule fault delete (Nat.le_of_lt bound) (Nat.le_trans within inside)
  rw [slotFound, writeFound, same, behind']
  rcases stopFrom_eq id (before.length + 1) behind with
    ⟨body, after, rfl, -, -, -, stop⟩ | ⟨pre, entry, post, rfl, -, -, -, asked, -, stop⟩
  · rw [stop]
    simp only [Checked.ok_bind]
    rw [List.length_append] at size
    by_cases final : after = []
    · subst final
      match id, value with
      | none, value => exact deleteSection _ (by omega) (by omega)
      | some id, none => exact keep 0
      | some id, some value => exact append id value
    · have inside : before.length + 1 + body.length < n := by
        have := List.length_pos_iff.mpr final
        omega
      rw [if_neg final]
      match id, value with
      | none, value => exact deleteSection _ (by omega) (by omega)
      | some id, none => exact keep 0
      | some id, some value => exact insert _ id value inside
  · rw [stop]
    simp only [Checked.ok_bind]
    have inside : before.length + 1 + pre.length < n := by
      rw [List.length_append, List.length_cons] at size
      omega
    match id, value with
    | none, value => simp at asked
    | some id, none => exact slotDelete_rule fault delete (Nat.le_succ _) inside
    | some id, some value => exact update _ (some value) inside

include count fault keep update insert append create delete in
/-- `cfg_write` on the slots makes the change that it makes on the entries. -/
theorem slotWrite_rule (sectionName id value : Option Bytes)
    : P (slotWrite c sectionName id value) (cfgWrite c.view sectionName id value) := by
  have same : c.view.pool.entries = c.array.entries := rfl
  have valid : c.view.valid = c.valid := rfl
  unfold slotWrite cfgWrite
  rw [same, valid]
  cases c.valid with
  | false => exact keep (-1)
  | true =>
      cases sectionName with
      | none =>
          simp only [Bool.not_true, Bool.false_eq_true, if_false, Option.isNone_none, if_true,
            List.drop_length]
          cases search : anyKeyFrom id c.array.entries.length 0 c.array.entries with
          | error f => exact fault f
          | ok result =>
              obtain ⟨key, i⟩ := result
              obtain ⟨bounds, none⟩ := anyKeyFrom_bounds search
              cases key with
              | some e =>
                  have inside := (bounds e rfl).2
                  exact update e value (by omega)
              | none =>
                  obtain rfl := none rfl
                  exact fault .outOfBounds
      | some s =>
          simp only [Bool.not_true, Bool.false_eq_true, if_false, Option.isNone_some,
            List.drop_zero, Checked.ok_bind]
          rcases sectionFrom_eq s 0 c.array.entries with
            ⟨missing, search⟩ | ⟨before, header, behind, parts, first, named, search⟩
          · rw [search]
            cases id with
            | none => exact keep 0
            | some id =>
                cases value with
                | none => exact keep 0
                | some value => exact create s id value
          · rw [search, Nat.zero_add]
            exact slotFound_rule count fault keep update insert append delete parts
              (by simp [named]) id value

end Calls

-----------------------------------------------------------------------------------------
-- The slots represent the entries
-----------------------------------------------------------------------------------------

/-- The results are the same, and what is left on the slots represents what is left on the entries.
-/
def Represents (result : Checked (Int × SlotConfig)) (result' : Checked (Int × Config)) : Prop :=
  result.map (fun (ret, c) => (ret, c.view)) = result'
  ∧ ∀ ret c, result = .ok (ret, c) → ∃ live spare, c.array.Holds live spare

/-- A change that leaves an array with a pool is the change of the entries to that pool. -/
theorem represents_edited {c : SlotConfig} {a : EntryArray} {strings : Strings} {p : Pool}
    {live : List Slot} {spare : List (Option Slot)} (holds : a.Holds live spare)
    (entries : p.entries = live.map Slot.view) (maxEntries : p.maxEntries = a.slots.length)
    : Represents (.ok (0, { c with array := a, strings := strings, dirty := true }))
        (.ok (0, c.view.edited p)) := by
  have same := holds.pool_eq entries maxEntries
  subst same
  refine ⟨rfl, ?_⟩
  rintro ret c' ⟨⟩
  exact ⟨live, spare, holds⟩

/-- The list of slots in front of an index, the slot there and those behind it. -/
theorem exists_slot {live : List Slot} {e : Nat} (inside : e < live.length)
    : ∃ before slot behind, live = before ++ slot :: behind ∧ before.length = e :=
  ⟨live.take e, live[e], live.drop (e + 1),
    by rw [← List.drop_eq_getElem_cons inside, List.take_append_drop],
    List.length_take_of_le (Nat.le_of_lt inside)⟩

/-- The list of slots up to three indices in their order. -/
theorem exists_parts {live : List Slot} {m eSect e : Nat} (above : m ≤ eSect) (order : eSect ≤ e)
    (inside : e ≤ live.length)
    : ∃ kept block gone rest,
        live = kept ++ (block ++ (gone ++ rest))
        ∧ kept.length = m
        ∧ (kept ++ block).length = eSect
        ∧ (kept ++ block ++ gone).length = e := by
  have first : (live.take eSect).take m ++ (live.take eSect).drop m = live.take eSect :=
    List.take_append_drop ..
  have second : (live.take e).take eSect ++ (live.take e).drop eSect = live.take e :=
    List.take_append_drop ..
  rw [List.take_take, Nat.min_eq_left above] at first
  rw [List.take_take, Nat.min_eq_left order] at second
  refine ⟨live.take m, (live.take eSect).drop m, (live.take e).drop eSect, live.drop e, ?_, ?_, ?_,
    ?_⟩
  · rw [← List.append_assoc, first, ← List.append_assoc, second, List.take_append_drop]
  · exact List.length_take_of_le (Nat.le_trans above (Nat.le_trans order inside))
  · rw [first]
    exact List.length_take_of_le (Nat.le_trans order inside)
  · rw [first, second]
    exact List.length_take_of_le inside

section Represented

variable {c : SlotConfig} {live : List Slot} {spare : List (Option Slot)}
  (holds : c.array.Holds live spare)

include holds in
/-- Updating a slot updates its entry. -/
theorem slotUpdate_represents (e : Nat) (value : Option Bytes) (inside : e < live.length)
    : Represents (slotUpdate c e value) (updateEntry c.view e value) := by
  obtain ⟨before, slot, behind, rfl, rfl⟩ := exists_slot inside
  cases value with
  | none =>
      rw [slotUpdate_null holds]
      exact ⟨rfl, by simp⟩
  | some value =>
      obtain ⟨a, updated, holds', length⟩ := slotUpdate_eq holds value
      have entries
          : c.view.pool.entries = before.map Slot.view ++ slot.view :: behind.map Slot.view :=
        holds.entries.trans (by simp)
      have changed := setValue_entries entries value
      rw [List.length_map] at changed
      rw [updated]
      refine represents_edited holds' ?_ length.symm
      rw [changed]
      simp [Slot.updated, Slot.view, CfgEntry.map]

include holds in
/-- Inserting a slot inserts its entry. -/
theorem slotInsert_represents (e : Nat) (id value : Bytes) (inside : e < live.length)
    : Represents (slotInsert c e id value)
        (do
          let pool ← c.view.pool.insertBefore e id value
          .ok (0, c.view.edited pool)) := by
  have entries : c.view.pool.entries = live.map Slot.view := holds.entries
  have maxEntries : c.view.pool.maxEntries = live.length + spare.length := by
    have capacity : c.view.pool.maxEntries = c.array.slots.length := rfl
    rw [capacity, holds.slots, List.length_append, List.length_map]
  have size : c.view.pool.entries.length = live.length := by rw [entries, List.length_map]
  rw [Pool.insertBefore]
  rcases spare with _ | ⟨stale, _ | ⟨last, spare⟩⟩
  case nil =>
      rw [slotInsert_full holds, if_pos (by simp [size, maxEntries])]
      exact ⟨rfl, by simp⟩
  case cons.nil =>
      rw [slotInsert_one holds inside, if_neg (by simp [size, maxEntries]),
        dif_neg (by simp [size, maxEntries])]
      exact ⟨rfl, by simp⟩
  case cons.cons =>
      obtain ⟨above, header, below, rfl, rfl⟩ := exists_slot inside
      obtain ⟨a, inserted, holds', length⟩ := slotInsert_eq holds id value
      rw [inserted, if_neg (by simp [size, maxEntries]), dif_pos (by simp [size, maxEntries])]
      refine represents_edited holds' ?_ length.symm
      simp only [entries, List.map_append, List.map_cons]
      rw [← List.length_map (f := Slot.view), List.take_left, List.drop_left]
      rfl

include holds in
/-- Storing duplicates stores their entry. -/
theorem append_represents (id value : Bytes)
    : Represents
        (do
          let c ← cfgStoreentryDynamic c none (some id) (some value) none
          .ok (0, { c with dirty := true }))
        (.ok (0, c.view.edited (c.view.pool.storeentry (defineEntry id value)))) := by
  obtain ⟨a, spare', stored, holds', length⟩ :=
    cfgStoreentryDynamic_eq holds none (some id) (some value)
  rw [stored, Checked.ok_bind]
  refine represents_edited holds' ?_ length.symm
  rw [Pool.storeentry_entries, List.map_append, ← holds.entries]
  rfl

include holds in
/-- Storing a new section and its key stores their entries. -/
theorem create_represents (s id value : Bytes)
    : Represents
        (do
          let c ← cfgStoreentryDynamic c (some s) none none none
          let c ← cfgStoreentryDynamic c none (some id) (some value) none
          .ok (0, { c with dirty := true }))
        (.ok
          (0,
            c.view.edited
              ((c.view.pool.storeentry ⟨some s, none, none, none⟩).storeentry
                (defineEntry id value)))) := by
  obtain ⟨a, spare', stored, holds', length⟩ := cfgStoreentryDynamic_eq holds (some s) none none
  rw [stored, Checked.ok_bind]
  have opened : a.pool = c.view.pool.storeentry ⟨some s, none, none, none⟩ := by
    refine holds'.pool_eq ?_ length.symm
    rw [Pool.storeentry_entries, List.map_append, ← holds.entries]
    rfl
  rw [← opened]
  exact append_represents (c := { c with
    array := a
    strings := (dynamicSlot c.strings (some s) none none).2 }) holds' id value

include holds in
/-- Deleting slots deletes their entries. -/
theorem slotDelete_represents {m eSect e : Nat} (moved : moveUp c.array.pool eSect = .ok m)
    (above : m ≤ eSect) (order : eSect ≤ e) (inside : e ≤ live.length)
    : Represents (slotDelete c eSect e) (doDelete c.view eSect e) := by
  obtain ⟨kept, block, gone, rest, rfl, rfl, rfl, rfl⟩ := exists_parts above order inside
  obtain ⟨a, left, deleted, holds', length⟩ := slotDelete_eq holds moved
  have moved' : moveUp c.view.pool (kept ++ block).length = .ok kept.length := moved
  have entries
      : c.view.pool.entries
        = kept.map Slot.view ++ ((block ++ gone).map Slot.view ++ rest.map Slot.view) :=
    holds.entries.trans (by simp)
  have removed := remove_entries entries
  rw [List.length_map, List.length_map, List.length_append, ← Nat.add_assoc, ← List.length_append,
    ← List.length_append] at removed
  rw [deleted, doDelete, moved', Checked.ok_bind]
  refine represents_edited holds' ?_ length.symm
  rw [removed, List.map_append]

include holds in
/-- `cfg_write` on the slots of the array is `cfg_write` on its entries, with the same faults. -/
theorem slotWrite_represents (sectionName id value : Option Bytes)
    : Represents (slotWrite c sectionName id value) (cfgWrite c.view sectionName id value) := by
  have count : c.array.entries.length = live.length := by rw [holds.entries, List.length_map]
  exact slotWrite_rule count (fun f => ⟨rfl, by simp⟩)
    (fun ret => ⟨rfl, by rintro ret c ⟨⟩; exact ⟨live, spare, holds⟩⟩)
    (slotUpdate_represents holds) (slotInsert_represents holds) (append_represents holds)
    (create_represents holds) (fun _ _ _ => slotDelete_represents holds) sectionName id value

end Represented

/-- The slot of an entry that was parsed. -/
def imageSlot (e : Entry) : Slot := ⟨e.map fun s => ⟨s, none⟩, false, false, false, false⟩

/-- The slot of a parsed entry has that entry. -/
theorem imageSlot_view (e : Entry) : (imageSlot e).view = e := by
  obtain ⟨sectionName, id, value, comment⟩ := e
  cases sectionName <;> cases id <;> cases value <;> cases comment <;> rfl

/-- Storing parsed entries one by one puts their slots behind the others. -/
theorem cfgStoreentry_all (es : List Entry) {c : SlotConfig} {live : List Slot}
    {spare : List (Option Slot)} (holds : c.array.Holds live spare)
    : ∃ a spare',
        es.foldl (fun c e => cfgStoreentry c (e.map fun s => ⟨s, none⟩)) c = { c with array := a }
        ∧ a.Holds (live ++ es.map imageSlot) spare'
        ∧ a.pool = c.array.pool.storeAll es := by
  induction es generalizing c live spare with
  | nil => exact ⟨c.array, spare, rfl, by simpa using holds, rfl⟩
  | cons e es ih =>
      obtain ⟨a, spare', stored, holds', length⟩ :=
        cfgStoreentry_eq holds (e.map fun s => ⟨s, none⟩)
      have pool : a.pool = c.array.pool.storeentry e := by
        refine holds'.pool_eq ?_ length.symm
        have entries : c.array.pool.entries = live.map Slot.view := holds.entries
        rw [Pool.storeentry_entries, entries, List.map_append]
        exact congrArg (live.map Slot.view ++ [·]) (imageSlot_view e).symm
      obtain ⟨a', spare'', all, holds'', pool'⟩ := ih (c := { c with array := a }) holds'
      refine ⟨a', spare'', ?_, ?_, ?_⟩
      · rw [List.foldl_cons, stored, all]
      · rw [List.map_cons, List.append_cons]
        exact holds''
      · rw [pool']
        exact congrArg (Pool.storeAll · es) pool

/-- An opened configuration holds the slots of its entries, and its only duplicate is the name of
the file.
-/
theorem cfgOpen_eq (fileName : Bytes) (es : List Entry)
    : ∃ a spare,
        cfgOpen fileName es = ⟨true, false, ⟨fileName, some 0⟩, a, ⟨1, []⟩⟩
        ∧ a.Holds (es.map imageSlot) spare
        ∧ a.pool = Pool.empty.storeAll es := by
  have empty : EntryArray.Holds ⟨0, [], 0⟩ [] [] := ⟨rfl, rfl⟩
  obtain ⟨a, spare, opened, holds, pool⟩ :=
    cfgStoreentry_all es (c := ⟨true, false, ⟨fileName, some 0⟩, ⟨0, [], 0⟩, ⟨1, []⟩⟩) empty
  exact ⟨a, spare, opened, holds, pool⟩

end Cvos.CfgFile

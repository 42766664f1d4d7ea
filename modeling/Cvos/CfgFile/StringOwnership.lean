import Cvos.CfgFile.LineGrammar
import Cvos.CfgFile.SlotRefinement
import Cvos.Lib.Ledger
import Cvos.Lib.Transition

/-! Who frees the strings that `strdup` has made for a configuration. An entry owns the strings
whose flags are set, and these are its duplicates; what `cfg_write` replaces or removes is freed,
and `cfg_done` frees the rest.
-/

namespace Cvos.CfgFile

open Cvos.Lib

/-- The strings that a slot points to. -/
def Slot.strings (slot : Slot) : List CfgString :=
  slot.entry.sectionName.toList ++ slot.entry.id.toList ++ slot.entry.value.toList
  ++ slot.entry.comment.toList

/-- The numbers of the strings that `strdup` has made. -/
def Strings.created (strings : Strings) : List (Option Nat) := (List.range strings.next).map some

/-- The numbers of some strings. -/
def dups (strings : List CfgString) : List (Option Nat) := strings.map CfgString.dup

/-- No string of the image was freed, no duplicate twice, and none to which an entry still points.
-/
structure FreesDuplicates (c : SlotConfig) : Prop where
  duplicates : ∀ s ∈ c.strings.freed, s.dup.isSome
  once : (dups c.strings.freed).Nodup
  unreferenced
    : ∀ i slot,
        c.array.entry i = .ok slot
        → ∀ s ∈ slot.strings, s.dup.isSome → s.dup ∉ dups c.strings.freed

/-- A call of `cfg_write` with a section. -/
structure NamedWrite where
  sectionName : Bytes
  id : Option Bytes
  value : Option Bytes
  deriving DecidableEq, Repr

/-- A `cfg_write` that makes no fault. -/
def WriteStep (c : SlotConfig) (w : NamedWrite) (c' : SlotConfig) : Prop :=
  ∃ ret, slotWrite c (some w.sectionName) w.id w.value = .ok (ret, c')

/-- The flag of a string is set exactly if the string is a duplicate. -/
def FlagFits (mustFree : Bool) (s : Option CfgString) : Prop :=
  ∀ str, s = some str → str.dup.isSome = mustFree

/-- The flags of a slot fit its strings. -/
structure Slot.FlagsFit (slot : Slot) : Prop where
  sectionName : FlagFits slot.mustFreeSection slot.entry.sectionName
  id : FlagFits slot.mustFreeId slot.entry.id
  value : FlagFits slot.mustFreeValue slot.entry.value
  comment : FlagFits slot.mustFreeComment slot.entry.comment

/-- The strings that a configuration will free. -/
def owned (c : SlotConfig) (live : List Slot) : List CfgString := c.fileName :: releaseAll live

/-- The flags of all entries fit, and each duplicate has one owner or was freed. -/
structure Owns (c : SlotConfig) (live : List Slot) (spare : List (Option Slot)) : Prop where
  holds : c.array.Holds live spare
  fits : ∀ slot ∈ live, slot.FlagsFit
  ledger : Ledger c.strings.created (dups c.strings.freed) (dups (owned c live))

/-- A configuration in which every duplicate has its owner. -/
def Owned (c : SlotConfig) : Prop := ∃ live spare, Owns c live spare

-----------------------------------------------------------------------------------------
-- What the flags of a slot free
-----------------------------------------------------------------------------------------

/-- The numbers of a list of strings in two parts. -/
@[simp]
theorem dups_append (strings strings' : List CfgString)
    : dups (strings ++ strings') = dups strings ++ dups strings' :=
  List.map_append

/-- A missing string needs no flag. -/
theorem flagFits_none (mustFree : Bool) : FlagFits mustFree none := by
  rintro str ⟨⟩

/-- A duplicate needs its flag. -/
theorem flagFits_dup (s : Bytes) (n : Nat) : FlagFits true (some ⟨s, some n⟩) := by
  rintro str ⟨⟩
  rfl

/-- A string of the image needs its flag to be clear. -/
theorem flagFits_image (s : Option Bytes) : FlagFits false (s.map fun s => ⟨s, none⟩) := by
  intro str image
  cases s with
  | none => contradiction
  | some s =>
      obtain rfl := Option.some.inj image
      rfl

/-- The slot of a parsed entry has its flags clear. -/
theorem imageSlot_fits (e : Entry) : (imageSlot e).FlagsFit :=
  ⟨flagFits_image e.sectionName, flagFits_image e.id, flagFits_image e.value,
    flagFits_image e.comment⟩

/-- The slots of parsed entries free nothing. -/
theorem releaseAll_imageSlot (es : List Entry) : releaseAll (es.map imageSlot) = [] := by
  rw [releaseAll, List.flatMap_eq_nil_iff]
  intro slot member
  obtain ⟨e, -, rfl⟩ := List.mem_map.mp member
  rfl

/-- The duplicates of an entry are freed with it. -/
theorem Slot.FlagsFit.release {slot : Slot} (fits : slot.FlagsFit) {s : CfgString}
    (member : s ∈ slot.strings) (dup : s.dup.isSome)
    : s ∈ slot.release := by
  have freed {mustFree : Bool} {field : Option CfgString} (fits : FlagFits mustFree field)
      (member : s ∈ field.toList)
      : s ∈ if mustFree then field.toList else [] := by
    have flag : mustFree = true := (fits s (Option.mem_toList.mp member)).symm.trans dup
    rwa [if_pos flag]
  simp only [Slot.strings, List.mem_append] at member
  simp only [Slot.release, List.mem_append]
  rcases member with ((sectionName | id) | value) | comment
  · exact .inl (.inl (.inl (freed fits.sectionName sectionName)))
  · exact .inl (.inl (.inr (freed fits.id id)))
  · exact .inl (.inr (freed fits.value value))
  · exact .inr (freed fits.comment comment)

/-- A slot with another value has the flag of the value set. -/
theorem Slot.FlagsFit.updated {slot : Slot} (fits : slot.FlagsFit) (value : Bytes) (n : Nat)
    : (slot.updated value n).FlagsFit :=
  ⟨fits.sectionName, fits.id, flagFits_dup value n, fits.comment⟩

/-- Updating a slot frees the replaced value and owns the new one. -/
theorem Slot.updated_release (slot : Slot) (value : Bytes) (n : Nat)
    : (slot.release ++ [(⟨value, some n⟩ : CfgString)]).Perm
        (slot.replaced ++ (slot.updated value n).release) := by
  have updated
      : (slot.updated value n).release
        = (if slot.mustFreeSection then slot.entry.sectionName.toList else [])
          ++ (if slot.mustFreeId then slot.entry.id.toList else [])
          ++ [⟨value, some n⟩]
          ++ if slot.mustFreeComment then slot.entry.comment.toList else [] :=
    rfl
  rw [updated, Slot.release, Slot.replaced, List.perm_iff_count]
  intro s
  simp only [List.count_append]
  omega

/-- The slot of a new key has the flags of the key and its value set; those of the header that stood
there concern strings that it lacks.
-/
theorem Slot.inserted_fits (header : Slot) (id value : Bytes) (n : Nat)
    : (header.inserted id value n).FlagsFit :=
  ⟨flagFits_none _, flagFits_dup id n, flagFits_dup value (n + 1), flagFits_none _⟩

/-- The slot of a new key owns the key and its value. -/
theorem Slot.inserted_release (header : Slot) (id value : Bytes) (n : Nat)
    : (header.inserted id value n).release = [⟨id, some n⟩, ⟨value, some (n + 1)⟩] := by
  obtain ⟨entry, mustFreeSection, mustFreeId, mustFreeValue, mustFreeComment⟩ := header
  cases mustFreeSection <;> cases mustFreeComment <;> rfl

/-- The flags of a slot filled with duplicates fit. -/
theorem dynamicSlot_fits (strings : Strings) (sectionName id value : Option Bytes)
    : (dynamicSlot strings sectionName id value).1.FlagsFit := by
  have fits (strings : Strings) (s : Option Bytes)
      : FlagFits (strings.strdupAny s).1.isSome (strings.strdupAny s).1 := by
    cases s with
    | none => exact flagFits_none _
    | some s => exact flagFits_dup s strings.next
  exact ⟨fits _ sectionName, fits _ id, fits _ value, flagFits_none _⟩

/-- A slot filled with duplicates owns them. -/
theorem dynamicSlot_created (strings : Strings) (sectionName id value : Option Bytes)
    : (dynamicSlot strings sectionName id value).2.created
        = strings.created ++ dups (dynamicSlot strings sectionName id value).1.release
      ∧ (dynamicSlot strings sectionName id value).2.freed = strings.freed := by
  cases sectionName <;> cases id <;> cases value <;>
    simp [dynamicSlot, Strings.strdupAny, Strings.strdup, Strings.created, dups, Slot.release,
      List.range_succ]

-----------------------------------------------------------------------------------------
-- What each change does to the owners
-----------------------------------------------------------------------------------------

section Changes

variable {c : SlotConfig} {live : List Slot} {spare : List (Option Slot)}
  (owns : Owns c live spare)

include owns in
/-- A change that owns what it creates, and frees what it no longer owns, keeps the owners. -/
theorem Owns.change {a : EntryArray} {strings : Strings} {live' : List Slot}
    {spare' : List (Option Slot)} (new gone : List CfgString) (dirty : Bool)
    (holds : a.Holds live' spare') (fits : ∀ slot ∈ live', slot.FlagsFit)
    (created : strings.created = c.strings.created ++ dups new)
    (freed : strings.freed = c.strings.freed ++ gone)
    (same : (releaseAll live ++ new).Perm (gone ++ releaseAll live'))
    : Owns { c with array := a, strings := strings, dirty := dirty } live' spare' where
  holds := holds
  fits := fits
  ledger := by
    have moved : (owned c live ++ new).Perm (gone ++ owned c live') :=
      (same.cons c.fileName).trans List.perm_middle.symm
    have moved' : (dups (owned c live) ++ dups new).Perm (dups gone ++ dups (owned c live')) := by
      rw [← dups_append, ← dups_append]
      exact moved.map CfgString.dup
    simp only [created, freed, dups_append]
    exact ((owns.ledger.create (dups new)).reorder moved').free

include owns in
/-- Updating a value frees the old one, if that was a duplicate. -/
theorem Owns.update {e : Nat} {value : Option Bytes} (inside : e < live.length) {ret : Int}
    {c' : SlotConfig} (updated : slotUpdate c e value = .ok (ret, c'))
    : Owned c' := by
  obtain ⟨before, slot, behind, rfl, rfl⟩ := exists_slot inside
  cases value with
  | none =>
      rw [slotUpdate_null owns.holds] at updated
      contradiction
  | some value =>
      obtain ⟨a, result, holds, -⟩ := slotUpdate_eq owns.holds value
      obtain ⟨-, rfl⟩ := Prod.mk.inj (Except.ok.inj (result.symm.trans updated))
      obtain ⟨above, here, below⟩ :
          (∀ slot ∈ before, slot.FlagsFit) ∧ slot.FlagsFit ∧ ∀ slot ∈ behind, slot.FlagsFit := by
        simpa only [List.forall_mem_append, List.forall_mem_cons] using owns.fits
      refine ⟨_, _,
        owns.change [⟨value, some c.strings.next⟩] slot.replaced true holds ?_ ?_ rfl ?_⟩
      · exact List.forall_mem_append.mpr
          ⟨above, List.forall_mem_cons.mpr ⟨here.updated value c.strings.next, below⟩⟩
      · simp [Strings.created, dups, List.range_succ]
      · rw [List.perm_iff_count]
        intro s
        have count := (slot.updated_release value c.strings.next).count_eq s
        simp only [List.count_append] at count
        simp only [releaseAll, List.flatMap_append, List.flatMap_cons, List.count_append]
        omega

include owns in
/-- Inserting a key leaves the slot of the header that stood there to the strings of the key. -/
theorem Owns.insert {e : Nat} {id value : Bytes} (inside : e < live.length) {ret : Int}
    {c' : SlotConfig} (inserted : slotInsert c e id value = .ok (ret, c'))
    : Owned c' := by
  obtain ⟨above, header, below, rfl, rfl⟩ := exists_slot inside
  match spare with
  | [] =>
      rw [slotInsert_full owns.holds] at inserted
      contradiction
  | [stale] =>
      rw [slotInsert_one owns.holds inside] at inserted
      contradiction
  | stale :: last :: spare =>
      obtain ⟨a, result, holds, -⟩ := slotInsert_eq owns.holds id value
      obtain ⟨-, rfl⟩ := Prod.mk.inj (Except.ok.inj (result.symm.trans inserted))
      obtain ⟨before, behind⟩ := List.forall_mem_append.mp owns.fits
      refine ⟨_, _,
        owns.change [⟨id, some c.strings.next⟩, ⟨value, some (c.strings.next + 1)⟩] [] true holds ?_
          ?_ (by simp) ?_⟩
      · exact List.forall_mem_append.mpr ⟨before,
          List.forall_mem_cons.mpr ⟨header.inserted_fits id value c.strings.next, behind⟩⟩
      · simp [Strings.created, dups, List.range_succ]
      · rw [List.perm_iff_count]
        intro s
        simp only [releaseAll, List.flatMap_append, List.flatMap_cons, List.count_append,
          Slot.inserted_release, List.count_nil]
        omega

include owns in
/-- Storing duplicates makes the new entry their owner. -/
theorem Owns.store (sectionName id value : Option Bytes)
    : ∃ a strings spare' slot,
        cfgStoreentryDynamic c sectionName id value none
          = .ok { c with array := a, strings := strings }
        ∧ Owns { c with array := a, strings := strings } (live ++ [slot]) spare' := by
  obtain ⟨a, spare', stored, holds, -⟩ :=
    cfgStoreentryDynamic_eq owns.holds sectionName id value
  obtain ⟨created, freed⟩ := dynamicSlot_created c.strings sectionName id value
  refine ⟨a, _, spare', _, stored,
    owns.change _ [] c.dirty holds ?_ created (by simp [freed]) ?_⟩
  · rw [List.forall_mem_append, List.forall_mem_singleton]
    exact ⟨owns.fits, dynamicSlot_fits c.strings sectionName id value⟩
  · simp [releaseAll]

include owns in
/-- Deleting entries frees their duplicates. -/
theorem Owns.delete {m eSect e : Nat} (moved : moveUp c.array.pool eSect = .ok m)
    (above : m ≤ eSect) (order : eSect ≤ e) (inside : e ≤ live.length) {ret : Int} {c' : SlotConfig}
    (deleted : slotDelete c eSect e = .ok (ret, c'))
    : Owned c' := by
  obtain ⟨kept, block, gone, rest, rfl, rfl, rfl, rfl⟩ := exists_parts above order inside
  obtain ⟨a, left, result, holds, -⟩ := slotDelete_eq owns.holds moved
  obtain ⟨-, rfl⟩ := Prod.mk.inj (Except.ok.inj (result.symm.trans deleted))
  refine ⟨_, _, owns.change [] (releaseAll (block ++ gone)) true holds ?_ ?_ rfl ?_⟩
  · intro slot member
    refine owns.fits slot ?_
    simp only [List.mem_append] at member ⊢
    exact member.imp_right fun behind => .inr (.inr behind)
  · simp [Strings.created, dups]
  · rw [List.perm_iff_count]
    intro s
    simp only [releaseAll, List.flatMap_append, List.count_append, List.count_nil]
    omega

include owns in
/-- A configuration is dirty or not with the same owners. -/
theorem Owns.setDirty (dirty : Bool) : Owns { c with dirty := dirty } live spare :=
  ⟨owns.holds, owns.fits, owns.ledger⟩

include owns in
/-- A `cfg_write` keeps an owner for each duplicate. -/
theorem Owns.write {w : NamedWrite} {c' : SlotConfig} (written : WriteStep c w c') : Owned c' := by
  obtain ⟨ret, written⟩ := written
  have count : c.array.entries.length = live.length := by
    rw [owns.holds.entries, List.length_map]
  refine slotWrite_rule (P := fun r _ => ∀ ret c', r = .ok (ret, c') → Owned c') count
    ?fault ?keep ?update ?insert ?append ?create ?delete (some w.sectionName) w.id w.value ret c'
    written
  case fault => simp
  case keep =>
    rintro ret ret' c' ⟨⟩
    exact ⟨live, spare, owns⟩
  case update => exact fun e value inside ret c' => owns.update inside
  case insert => exact fun e id value inside ret c' => owns.insert inside
  case append =>
    intro id value ret c' stored
    obtain ⟨a, strings, spare', slot, result, owns'⟩ := owns.store none (some id) (some value)
    rw [result] at stored
    obtain ⟨-, rfl⟩ := Prod.mk.inj (Except.ok.inj stored)
    exact ⟨_, _, owns'.setDirty true⟩
  case create =>
    intro s id value ret c' stored
    obtain ⟨a, strings, spare', slot, result, owns'⟩ := owns.store (some s) none none
    obtain ⟨a', strings', spare'', slot', result', owns''⟩ :=
      owns'.store none (some id) (some value)
    rw [result, Checked.ok_bind, result'] at stored
    obtain ⟨-, rfl⟩ := Prod.mk.inj (Except.ok.inj stored)
    exact ⟨_, _, owns''.setDirty true⟩
  case delete =>
    exact fun m eSect e moved above order inside ret c' => owns.delete moved above order inside

end Changes

-----------------------------------------------------------------------------------------
-- From opening to closing
-----------------------------------------------------------------------------------------

/-- A configuration that was opened owns the name of its file. -/
theorem owned_cfgOpen (fileName : Bytes) (es : List Entry) : Owned (cfgOpen fileName es) := by
  obtain ⟨a, spare, opened, holds, -⟩ := cfgOpen_eq fileName es
  rw [opened]
  refine ⟨es.map imageSlot, spare, holds, ?_, ?_⟩
  · intro slot member
    obtain ⟨e, -, rfl⟩ := List.mem_map.mp member
    exact imageSlot_fits e
  · simpa [owned, releaseAll_imageSlot, Strings.created, dups, List.range_succ] using
      Ledger.empty.create [some 0]

/-- Each `strdup` makes a string of its own. -/
theorem Strings.created_nodup (strings : Strings) : strings.created.Nodup :=
  List.nodup_range.map fun _ _ => Option.some.inj

/-- A slot that can be read is one of those with entries. -/
theorem EntryArray.Holds.mem {a : EntryArray} {live : List Slot} {spare : List (Option Slot)}
    (holds : a.Holds live spare) {i : Nat} {slot : Slot} (read : a.entry i = .ok slot)
    : slot ∈ live := by
  by_cases inside : i < live.length
  · obtain ⟨before, slot', behind, rfl, rfl⟩ := exists_slot inside
    obtain rfl := Except.ok.inj (holds.entry_eq.symm.trans read)
    simp
  · have outside : ¬i < a.numEntries := by rwa [holds.count]
    simp [EntryArray.entry, slotAt, outside] at read

/-- While each duplicate has its owner, what was freed was a duplicate, and only once, and no entry
still points to it.
-/
theorem Owns.freesDuplicates {c : SlotConfig} {live : List Slot} {spare : List (Option Slot)}
    (owns : Owns c live spare)
    : FreesDuplicates c where
  duplicates := by
    intro s gone
    have created := owns.ledger.freed_created (List.mem_map_of_mem gone)
    obtain ⟨n, -, dup⟩ := List.mem_map.mp created
    simp [← dup]
  once := owns.ledger.freed_nodup c.strings.created_nodup
  unreferenced := by
    intro i slot read s member dup
    have entry := owns.holds.mem read
    have release := (owns.fits slot entry).release member dup
    have mine : s ∈ owned c live :=
      List.mem_cons_of_mem c.fileName (List.mem_flatMap.mpr ⟨slot, entry, release⟩)
    exact owns.ledger.not_freed c.strings.created_nodup (List.mem_map_of_mem mine)

/-- Closing the configuration frees all that is owned. -/
theorem Owns.done {c : SlotConfig} {live : List Slot} {spare : List (Option Slot)}
    (owns : Owns c live spare)
    : ∃ strings, cfgDone c = .ok strings ∧ (dups strings.freed).Perm strings.created := by
  have whole : c.array.Holds ([] ++ (live ++ [])) spare := by simpa using owns.holds
  have freed := freeEntries_eq whole c.strings
  rw [List.length_nil] at freed
  refine ⟨⟨c.strings.next, c.strings.freed ++ releaseAll live ++ [c.fileName]⟩, ?_, ?_⟩
  · rw [cfgDone, owns.holds.count, freed]
    rfl
  · have last : (dups (owned c live)).Perm (dups (releaseAll live ++ [c.fileName]) ++ []) := by
      rw [List.append_nil]
      exact (List.perm_append_singleton c.fileName (releaseAll live)).symm.map CfgString.dup
    have all := (owns.ledger.reorder last).free.all_freed
    rw [← dups_append, ← List.append_assoc] at all
    exact all

/-- From opening to closing a configuration, `cfg_write` frees only duplicates, none of them twice,
and none to which an entry still points; in the end, each string that `strdup` has made was freed
exactly once.
-/
theorem strings_freed_once {fileName : Bytes} {es : List Entry} {c : SlotConfig}
    {trace : List (SlotConfig × NamedWrite)} (run : Run WriteStep (cfgOpen fileName es) trace c)
    : ((∀ taken ∈ trace, FreesDuplicates taken.1) ∧ FreesDuplicates c)
      ∧ ∃ strings, cfgDone c = .ok strings ∧ (dups strings.freed).Perm strings.created := by
  obtain ⟨earlier, live, spare, owns⟩ :=
    run.throughout Owned (owned_cfgOpen fileName es) fun written ⟨_, _, owns⟩ => owns.write written
  refine ⟨⟨fun taken member => ?_, owns.freesDuplicates⟩, owns.done⟩
  obtain ⟨live, spare, owns⟩ := earlier taken member
  exact owns.freesDuplicates

/-- A configuration of two sections, of which the second has a key. -/
def twoSections : SlotConfig := cfgOpen (text "f") (parseImage (text "[a]\n[s]\nk=v\n"))

/-- Witness: a key is set twice and then deleted with its section. -/
theorem strings_freed_once_deleted
    : ∃ trace c,
        Run WriteStep twoSections trace c
        ∧ trace.length = 3
        ∧ dups c.strings.freed = [some 1, some 2]
        ∧ ((∀ taken ∈ trace, FreesDuplicates taken.1) ∧ FreesDuplicates c)
        ∧ ∃ strings, cfgDone c = .ok strings ∧ (dups strings.freed).Perm strings.created := by
  have first : WriteStep twoSections ⟨text "s", some (text "k"), some (text "1")⟩ _ := ⟨0, rfl⟩
  have run := Run.start.extend first
  have run := run.extend
    (by exact ⟨0, rfl⟩ : WriteStep _ ⟨text "s", some (text "k"), some (text "2")⟩ _)
  have run := run.extend (by exact ⟨0, rfl⟩ : WriteStep _ ⟨text "s", none, none⟩ _)
  exact ⟨_, _, run, rfl, rfl, strings_freed_once run⟩

end Cvos.CfgFile

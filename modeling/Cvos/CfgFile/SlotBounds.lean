import Cvos.CfgFile.SlotRefinement
import Cvos.CfgFile.WriteLookup

/-! Which slots of the entry array `cfg_write` accesses. A key that is put in front of a header
needs two spare slots, and a section that is deleted needs an entry above it that is no comment.
-/

namespace Cvos.CfgFile

open Cvos.Lib

-----------------------------------------------------------------------------------------
-- Inserting a key
-----------------------------------------------------------------------------------------

/-- Setting a key stays within the live array, and when it returns 0 the array has the old entries
with a new one, for the key and its value, in front of index `j`.
-/
structure InsertsAt (c : SlotConfig) (live : List Slot) (s k v : Bytes) (j : Nat) : Prop where
  inside : slotWrite c (some s) (some k) (some v) ≠ .error .outOfBounds
  alive : slotWrite c (some s) (some k) (some v) ≠ .error .useAfterFree
  exact
    : ∀ c',
        slotWrite c (some s) (some k) (some v) = .ok (0, c')
        → ∃ slot spare,
            c'.array.Holds (live.take j ++ slot :: live.drop j) spare
            ∧ slot.view = defineEntry k v

/-- There is one first header of each name. -/
theorem firstHeader_unique {es before before' rest rest' : List Entry}
    {header header' : Entry} {s : Bytes} (parts : es = before ++ header :: rest)
    (first : NoSection before s) (named : header.sectionName = some s)
    (parts' : es = before' ++ header' :: rest') (first' : NoSection before' s)
    (named' : header'.sectionName = some s)
    : before = before' ∧ header = header' ∧ rest = rest' := by
  have front {before : List Entry} (rest : List Entry) {header : Entry}
      (first : NoSection before s) (named : header.sectionName = some s)
      : (before ++ header :: rest).takeWhile (fun e => e.sectionName ≠ some s) = before := by
    have passed : ∀ e ∈ before, decide (e.sectionName ≠ some s) = true :=
      fun e member => decide_eq_true (first e member)
    rw [List.takeWhile_append_of_pos passed]
    simp [named]
  have same : before ++ header :: rest = before' ++ header' :: rest' := parts.symm.trans parts'
  have before : before = before' := by
    rw [← front rest first named, same, front rest' first' named']
  subst before
  exact ⟨rfl, List.cons.inj (List.append_cancel_left same)⟩

/-- A key that is new in a section with a header behind it is put in front of that header. -/
theorem slotWrite_inserts {c : SlotConfig} (valid : c.valid) {s k : Bytes}
    {before body after : List Entry} {header : Entry}
    (opened : SectionAt c.array.entries s before header body after) (followed : after ≠ [])
    (new : ∀ e ∈ body, e.id ≠ some k) (v : Bytes)
    : slotWrite c (some s) (some k) (some v)
      = slotInsert c (before.length + 1 + body.length) k v := by
  unfold slotWrite
  simp only [valid, Bool.not_true, Bool.false_eq_true, if_false, Option.isNone_some,
    Checked.ok_bind, List.drop_zero]
  rcases sectionFrom_eq s 0 c.array.entries with
    ⟨missing, -⟩ | ⟨before', header', behind, parts, first, named, search⟩
  · exact absurd opened.named (missing header (by simp [opened.parts]))
  · obtain ⟨rfl, rfl, rfl⟩ : before = before' ∧ header = header' ∧ body ++ after = behind :=
      firstHeader_unique opened.parts opened.first opened.named parts first named
    have behind' : c.array.entries.drop (0 + before.length + 1) = body ++ after := by
      simp [parts, List.drop_append]
    rw [search]
    simp only [Checked.ok_bind]
    unfold slotFound
    rw [behind']
    rcases stopFrom_eq (some k) (0 + before.length + 1) (body ++ after) with
      ⟨body', after', same, inside, closed, -, stop⟩
      | ⟨pre, entry, post, same, inside, earlier, noHeader, asked, key, stop⟩
    · have opened' : SectionAt c.array.entries s before header body' after' :=
        ⟨by rw [parts, same], first, named, inside, closed⟩
      obtain ⟨rfl, rfl⟩ := opened.unique opened'
      rw [stop, if_neg followed, Nat.zero_add]
      rfl
    · obtain ⟨post, after', rfl, inside', closed⟩ := exists_section_end post
      have whole : NoHeader (pre ++ entry :: post) :=
        noHeader_append.mpr ⟨inside, List.forall_mem_cons.mpr ⟨noHeader, inside'⟩⟩
      have opened' : SectionAt c.array.entries s before header (pre ++ entry :: post) after' :=
        ⟨by rw [parts, same]; simp, first, named, whole, closed⟩
      obtain ⟨rfl, -⟩ := opened.unique opened'
      exact absurd key (new entry (by simp))

/-- Setting a key that is new in a section with a header behind it, at index `j`, stays within the
live array and puts the entry there exactly when the array has two spare slots.
-/
theorem insertsAt_iff {c : SlotConfig} {live : List Slot} {spare : List (Option Slot)}
    (holds : c.array.Holds live spare) (valid : c.valid) {s k : Bytes}
    {before body after : List Entry} {header : Entry}
    (opened : SectionAt c.array.entries s before header body after) (followed : after ≠ [])
    (new : ∀ e ∈ body, e.id ≠ some k) (v : Bytes)
    : InsertsAt c live s k v (before.length + 1 + body.length)
      ↔ c.array.numEntries + 1 < c.array.slots.length := by
  have written := slotWrite_inserts valid opened followed new v
  have room : c.array.slots.length = live.length + spare.length := by simp [holds.slots]
  have inside : before.length + 1 + body.length < live.length := by
    have count : c.array.entries.length = live.length := by rw [holds.entries, List.length_map]
    have behind := List.length_pos_iff.mpr followed
    rw [← count, opened.parts]
    simp only [List.length_append, List.length_cons]
    omega
  rw [holds.count, room]
  match spare with
  | [] =>
      refine iff_of_false (fun inserts => inserts.alive ?_) (by simp)
      rw [written, slotInsert_full holds]
  | [stale] =>
      refine iff_of_false (fun inserts => inserts.inside ?_) (by simp)
      rw [written, slotInsert_one holds inside]
  | stale :: last :: spare =>
      refine iff_of_true ?_ (by simp)
      obtain ⟨above, header', below, rfl, place⟩ := exists_slot inside
      obtain ⟨a, inserted, holds', -⟩ := slotInsert_eq holds k v
      rw [← place] at written ⊢
      rw [inserted] at written
      refine ⟨by simp [written], by simp [written], fun c' returned => ?_⟩
      obtain ⟨-, rfl⟩ := Prod.mk.inj (Except.ok.inj (written.symm.trans returned))
      refine ⟨header'.inserted k v c.strings.next, stale :: spare, ?_, rfl⟩
      rw [List.take_left, List.drop_left]
      exact holds'

/-- Witness: a key is put in front of the second of two sections. -/
theorem insertsAt_iff_second
    : InsertsAt (cfgOpen (text "f") (parseImage (text "[s]\n[t]\n")))
        ((parseImage (text "[s]\n[t]\n")).map imageSlot) (text "s") (text "k") (text "v") 1 := by
  have holds
      : EntryArray.Holds (cfgOpen (text "f") (parseImage (text "[s]\n[t]\n"))).array
          ((parseImage (text "[s]\n[t]\n")).map imageSlot) (List.replicate 101 none) :=
    ⟨by decide +kernel, by decide +kernel⟩
  have opened
      : SectionAt (cfgOpen (text "f") (parseImage (text "[s]\n[t]\n"))).array.entries (text "s") []
          ⟨some (text "s"), none, none, none⟩ [] [⟨some (text "t"), none, none, none⟩] :=
    ⟨by decide +kernel, by simp [NoSection], rfl, by simp [NoHeader], by simp [AtHeader]⟩
  exact (insertsAt_iff holds rfl opened (by simp) (by simp) (text "v")).mpr (by decide +kernel)

/-- A file with two sections and 101 comments, whose entries fill the array. -/
def fullImage : Bytes := text "[s]\n[t]\n" ++ (List.replicate 101 (text ";\n")).flatten

/-- The entries of this file. -/
theorem fullImage_entries
    : (cfgOpen (text "f") (parseImage fullImage)).array.entries
      = [] ++ ⟨some (text "s"), none, none, none⟩
          :: ([] ++ ⟨some (text "t"), none, none, none⟩
            :: List.replicate 101 ⟨none, none, none, some []⟩) := by
  decide +kernel

/-- A key that is put in front of the second section of this file goes into the freed array. -/
theorem not_insertsAt_full
    : ¬ ∀ c live spare s k v before header body after,
        c.array.Holds live spare
        → c.valid
        → SectionAt c.array.entries s before header body after
        → after ≠ []
        → (∀ e ∈ body, e.id ≠ some k)
        → InsertsAt c live s k v (before.length + 1 + body.length) := by
  intro always
  obtain ⟨a, spare, opened, holds, -⟩ := cfgOpen_eq (text "f") (parseImage fullImage)
  have entries := fullImage_entries
  have reserved : (cfgOpen (text "f") (parseImage fullImage)).array.slots.length = 103 := by
    decide +kernel
  rw [opened] at entries reserved
  -- All slots that are reserved hold an entry.
  have full : spare = [] := by
    have count : a.entries.length = 103 := by rw [entries]; rfl
    rw [holds.entries, List.length_map] at count
    rw [holds.slots, List.length_append, List.length_map, count] at reserved
    exact List.eq_nil_of_length_eq_zero (by omega)
  subst full
  have sections : SectionAt a.entries (text "s") [] ⟨some (text "s"), none, none, none⟩ [] _ :=
    ⟨entries, by simp [NoSection], rfl, by simp [NoHeader], by simp [AtHeader]⟩
  have inserts :=
    always ⟨true, false, ⟨text "f", some 0⟩, a, ⟨1, []⟩⟩ _ [] (text "s") (text "k") (text "v") _ _ _
      _ holds rfl sections (by simp) (by simp)
  refine inserts.alive ?_
  rw [slotWrite_inserts rfl sections (by simp) (by simp), slotInsert_full holds]

-----------------------------------------------------------------------------------------
-- Deleting a key or a section
-----------------------------------------------------------------------------------------

/-- A delete reads, frees and moves only entries of the array, and when it returns it has taken out
some of them that stood next to each other, as many as `numEntries` has decreased by.
-/
structure DeletesInside (c : SlotConfig) (sectionName id : Option Bytes) : Prop where
  inside : slotWrite c sectionName id none ≠ .error .outOfBounds
  removed
    : ∀ ret c',
        slotWrite c sectionName id none = .ok (ret, c')
        → ∃ kept gone rest,
            c.array.entries = kept ++ (gone ++ rest)
            ∧ c'.array.entries = kept ++ rest
            ∧ c'.array.numEntries + gone.length = c.array.numEntries

/-- An entry has the id, or any id when that is null. -/
def HasKey (es : List Entry) (id : Option Bytes) : Prop :=
  ∃ e ∈ es, e.id.isSome ∧ (id.isSome → e.id = id)

/-- The entries above the first header of a section that is deleted are not all comments; without a
section, there is an entry with the id.
-/
def StaysInside (es : List Entry) (sectionName id : Option Bytes) : Prop :=
  match sectionName with
  | none => HasKey es id
  | some s =>
      ∀ before header rest,
        id = none
        → es = before ++ header :: rest
        → NoSection before s
        → header.sectionName = some s
        → ∃ e ∈ before, e.isBlockComment = false

/-- Moving up over comments only reads in front of the array. -/
theorem moveUp_comments {p : Pool} {es rest : List Entry} (holds : p.entries = es ++ rest)
    (comments : ∀ e ∈ es, e.isBlockComment)
    : moveUp p es.length = .error .outOfBounds := by
  induction es using List.reverseRecOn generalizing rest with
  | nil => rfl
  | append_singleton es entry ih =>
      have read : p.entry es.length = .ok entry := by simp [Pool.entry, holds]
      obtain ⟨above, last⟩ := List.forall_mem_append.mp comments
      rw [List.length_append, List.length_singleton, moveUp, read, Checked.ok_bind,
        if_pos (last entry (by simp)), ih (by simpa using holds) above]

/-- Moving up stops behind an entry that is no comment. -/
theorem moveUp_stops {p : Pool} {es rest : List Entry} (holds : p.entries = es ++ rest)
    (stops : ∃ e ∈ es, e.isBlockComment = false)
    : ∃ m, moveUp p es.length = .ok m := by
  induction es using List.reverseRecOn generalizing rest with
  | nil => simp at stops
  | append_singleton es entry ih =>
      have read : p.entry es.length = .ok entry := by simp [Pool.entry, holds]
      rw [List.length_append, List.length_singleton, moveUp, read, Checked.ok_bind]
      by_cases comment : entry.isBlockComment
      · rw [if_pos comment]
        refine ih (by simpa using holds) ?_
        obtain ⟨e, member, other⟩ := stops
        rcases List.mem_append.mp member with earlier | last
        · exact ⟨e, earlier, other⟩
        · rw [List.mem_singleton.mp last, comment] at other
          contradiction
      · rw [if_neg comment]
        exact ⟨_, rfl⟩

/-- A search for any entry with an id stops at one if there is one, or compares it with a null
pointer.
-/
theorem anyKeyFrom_hasKey {id : Option Bytes} {rest : List Entry} (stored : HasKey rest id)
    (e : Nat)
    : (∃ k i, anyKeyFrom id rest.length e rest = .ok (some k, i))
      ∨ anyKeyFrom id rest.length e rest = .error .nullPointer := by
  induction rest generalizing e with
  | nil => simp [HasKey] at stored
  | cons entry rest ih =>
      rw [anyKeyFrom_cons]
      obtain ⟨found, member, some, same⟩ := stored
      have behind (passed : entry.id ≠ found.id) : HasKey rest id := by
        rcases List.mem_cons.mp member with rfl | member
        · contradiction
        · exact ⟨found, member, some, same⟩
      cases key : entry.id with
      | none =>
          have passed : entry.id ≠ found.id := by
            rw [key]
            exact (Option.ne_none_iff_isSome.mpr some).symm
          simpa [key] using ih (behind passed) (e + 1)
      | some k =>
          cases id with
          | none => simp [strcmpEq]
          | some id =>
              have same := same rfl
              by_cases here : k = id
              · simp [strcmpEq, here]
              · have passed : entry.id ≠ found.id := by simp [key, same, here]
                simpa [strcmpEq, here] using ih (behind passed) (e + 1)

/-- A search for an entry with an id that there is none of counts all entries. -/
theorem anyKeyFrom_missing {id : Option Bytes} {rest : List Entry} (missing : ¬HasKey rest id)
    (e : Nat)
    : anyKeyFrom id rest.length e rest = .ok (none, -1) := by
  induction rest generalizing e with
  | nil => simp [anyKeyFrom]
  | cons entry rest ih =>
      have behind : ¬HasKey rest id := by
        rintro ⟨found, member, same⟩
        exact missing ⟨found, List.mem_cons_of_mem entry member, same⟩
      have onward := ih behind (e + 1)
      have other (k : Bytes) (key : entry.id = some k) : id.isSome ∧ some k ≠ id := by
        by_contra same
        refine missing ⟨entry, List.mem_cons_self, by simp [key], fun asked => ?_⟩
        rw [key]
        exact Classical.not_not.mp fun differs => same ⟨asked, differs⟩
      rw [anyKeyFrom_cons]
      cases key : entry.id with
      | none => simpa using onward
      | some k =>
          obtain ⟨asked, differs⟩ := other k key
          obtain ⟨id, rfl⟩ := Option.isSome_iff_exists.mp asked
          have differs : k ≠ id := fun same => differs (congrArg some same)
          simpa [strcmpEq, differs] using onward

section Deletes

variable {c : Config} (valid : c.valid)

/-- A delete goes in front of the array exactly when only comments stand above what it deletes. -/
theorem doDelete_inside {above rest : List Entry} (parts : c.pool.entries = above ++ rest) (e : Nat)
    : doDelete c above.length e ≠ .error .outOfBounds ↔ ∃ x ∈ above, x.isBlockComment = false := by
  by_cases stops : ∃ x ∈ above, x.isBlockComment = false
  · obtain ⟨m, moved⟩ := moveUp_stops parts stops
    refine iff_of_true ?_ stops
    simp [doDelete, moved]
  · have comments : ∀ x ∈ above, x.isBlockComment := by simpa using stops
    refine iff_of_false (fun inside => inside ?_) stops
    rw [doDelete, moveUp_comments parts comments, Checked.error_bind]

include valid in
/-- A delete of a key in a named section returns 0: above the key there is the header, at which the
search for comments stops.
-/
theorem cfgWrite_deleteKey (s k : Bytes)
    : ∃ c', cfgWrite c (some s) (some k) none = .ok (0, c') := by
  unfold cfgWrite
  simp only [valid, Bool.not_true, Bool.false_eq_true, if_false, Option.isNone_some,
    Checked.ok_bind, List.drop_zero]
  rcases sectionFrom_eq s 0 c.pool.entries with
    ⟨missing, search⟩ | ⟨before, header, behind, parts, first, named, search⟩
  · rw [search]
    exact ⟨c, rfl⟩
  · have header' : header.isBlockComment = false := isBlockComment_of_header (by simp [named])
    have behind' : c.pool.entries.drop (before.length + 1) = behind := by
      simp [parts, List.drop_append]
    rw [search, Checked.ok_bind, Nat.zero_add]
    simp only
    rw [writeFound, behind']
    rcases stopFrom_eq (some k) (before.length + 1) behind with
      ⟨body, after, rfl, -, -, -, stop⟩ | ⟨pre, entry, post, rfl, -, -, -, -, -, stop⟩
    · rw [stop, Checked.ok_bind]
      refine ⟨c, ?_⟩
      by_cases final : after = [] <;> simp [final]
    · have whole : c.pool.entries = (before ++ header :: pre) ++ entry :: post := by simp [parts]
      obtain ⟨m, moved⟩ := moveUp_stops whole ⟨header, by simp, header'⟩
      rw [length_upTo] at moved
      rw [stop, Checked.ok_bind]
      simp [doDelete, moved]

include valid in
/-- A delete in a named section leaves the array exactly when it deletes a section below nothing but
comments.
-/
theorem cfgWrite_inside (s : Bytes) (id : Option Bytes)
    : cfgWrite c (some s) id none ≠ .error .outOfBounds
      ↔ StaysInside c.pool.entries (some s) id := by
  cases id with
  | some k =>
      obtain ⟨c', deleted⟩ := cfgWrite_deleteKey valid s k
      refine iff_of_true (by simp [deleted]) ?_
      rintro before header rest ⟨⟩
  | none =>
      unfold cfgWrite
      simp only [valid, Bool.not_true, Bool.false_eq_true, if_false, Option.isNone_some,
        Checked.ok_bind, List.drop_zero]
      rcases sectionFrom_eq s 0 c.pool.entries with
        ⟨missing, search⟩ | ⟨before, header, behind, parts, first, named, search⟩
      · rw [search]
        refine iff_of_true (by simp) ?_
        rintro before header rest - parts - named
        exact absurd named (missing header (by simp [parts]))
      · have header' : header.isBlockComment = false := isBlockComment_of_header (by simp [named])
        have behind' : c.pool.entries.drop (before.length + 1) = behind := by
          simp [parts, List.drop_append]
        rw [search, Checked.ok_bind, Nat.zero_add]
        simp only
        rw [writeFound, behind']
        rcases stopFrom_eq none (before.length + 1) behind with
          ⟨body, after, rfl, -, -, -, stop⟩ | ⟨-, -, -, -, -, -, -, asked, -⟩
        · have whole : c.pool.entries = (before ++ header :: body) ++ after := by simp [parts]
          obtain ⟨m, moved⟩ := moveUp_stops whole ⟨header, by simp, header'⟩
          rw [length_upTo] at moved
          have deleted := doDelete_inside parts m
          have reached
              : StaysInside c.pool.entries (some s) none
                ↔ ∃ x ∈ before, x.isBlockComment = false := by
            refine ⟨fun stays => stays before header (body ++ after) rfl parts first named, ?_⟩
            rintro stops before' header' rest - parts' first' named'
            obtain ⟨rfl, -⟩ := firstHeader_unique parts first named parts' first' named'
            exact stops
          rw [stop, Checked.ok_bind, reached, ← deleted]
          by_cases final : after = [] <;> simp [final, moved]
        · simp at asked

include valid in
/-- Without a section, a delete faults: inside the array exactly when an entry has the id. -/
theorem cfgWrite_sectionless_delete (id : Option Bytes)
    : ∃ f, cfgWrite c none id none = .error f ∧ (f ≠ .outOfBounds ↔ HasKey c.pool.entries id) := by
  unfold cfgWrite
  simp only [valid, Bool.not_true, Bool.false_eq_true, if_false, Option.isNone_none, if_true,
    List.drop_length]
  by_cases stored : HasKey c.pool.entries id
  · refine ⟨.nullPointer, ?_, by simp [stored]⟩
    rcases anyKeyFrom_hasKey stored 0 with ⟨k, i, search⟩ | search
    · rw [search]
      rfl
    · rw [search]
      rfl
  · refine ⟨.outOfBounds, ?_, by simp [stored]⟩
    rw [anyKeyFrom_missing stored]
    rfl

end Deletes

/-- A finished delete has taken out some entries that stood next to each other. -/
theorem Edited.removed {s : Bytes} {es es' : List Entry} {id : Option Bytes}
    (edited : Edited s es id none es')
    : ∃ kept gone rest, es = kept ++ (gone ++ rest) ∧ es' = kept ++ rest := by
  cases edited with
  | ignore missing delete => exact ⟨es, [], [], by simp, by simp⟩
  | keep opened missing => exact ⟨es, [], [], by simp, by simp⟩
  | @deleteKey id before header after pre block e post opened comments key =>
      exact ⟨before ++ header :: pre, block ++ [e], post ++ after, by simp [opened.parts], by simp⟩
  | @deleteSection _ before block header body block' after opened comments comments' =>
      exact ⟨before, block ++ header :: body, block' ++ after, by simp [opened.parts], by simp⟩

/-- A delete stays inside the array exactly when it stops above the section that it deletes. -/
theorem deletesInside_holds {c : SlotConfig} {live : List Slot} {spare : List (Option Slot)}
    (holds : c.array.Holds live spare) (valid : c.valid) (sectionName id : Option Bytes)
    : DeletesInside c sectionName id ↔ StaysInside c.array.entries sectionName id := by
  obtain ⟨same, kept⟩ := slotWrite_represents holds sectionName id none
  have faults
      : slotWrite c sectionName id none ≠ .error .outOfBounds
        ↔ cfgWrite c.view sectionName id none ≠ .error .outOfBounds := by
    rw [← same]
    cases slotWrite c sectionName id none with
    | error f => simp [Except.map]
    | ok result => simp [Except.map]
  have valid' : c.view.valid := valid
  cases sectionName with
  | none =>
      obtain ⟨f, faulted, inside⟩ := cfgWrite_sectionless_delete valid' id
      have stays : cfgWrite c.view none id none ≠ .error .outOfBounds
          ↔ StaysInside c.array.entries none id := by
        rw [faulted]
        exact Iff.trans (by simp) inside
      refine ⟨fun deletes => stays.mp (faults.mp deletes.inside), fun within => ?_⟩
      refine ⟨faults.mpr (stays.mpr within), fun ret c' returned => ?_⟩
      rw [returned, faulted] at same
      contradiction
  | some s =>
      have stays := cfgWrite_inside valid' s id
      refine ⟨fun deletes => stays.mp (faults.mp deletes.inside), fun within => ?_⟩
      refine ⟨faults.mpr (stays.mpr within), fun ret c' returned => ?_⟩
      obtain ⟨live', spare', holds'⟩ := kept ret c' returned
      rw [returned] at same
      obtain ⟨-, -, -, edited⟩ := cfgWrite_edited valid' same.symm
      obtain ⟨above, gone, rest, parts, parts'⟩ := edited.removed
      refine ⟨above, gone, rest, parts, parts', ?_⟩
      have entries : c.array.entries.length = live.length := by rw [holds.entries, List.length_map]
      have entries' : c'.array.entries.length = live'.length := by
        rw [holds'.entries, List.length_map]
      have total : c.array.entries.length = above.length + (gone.length + rest.length) :=
        (congrArg List.length parts).trans (by simp)
      have total' : c'.array.entries.length = above.length + rest.length :=
        (congrArg List.length parts').trans (by simp)
      rw [holds.count, holds'.count]
      omega

/-- A delete in a parsed file stays inside the array exactly when the section has an entry above it
that is no comment, or a key is deleted, or the section is missing.
-/
theorem deletesInside_iff (fileName image : Bytes) (sectionName id : Option Bytes)
    : DeletesInside (cfgOpen fileName (parseImage image)) sectionName id
      ↔ StaysInside (parseImage image) sectionName id := by
  obtain ⟨a, spare, opened, holds, pool⟩ := cfgOpen_eq fileName (parseImage image)
  have entries : a.entries = parseImage image := by
    rw [holds.entries, List.map_map]
    exact (List.map_congr_left fun e _ => imageSlot_view e).trans (List.map_id _)
  rw [opened, ← entries]
  exact deletesInside_holds holds rfl sectionName id

/-- Deleting the section at the top of a file reads in front of the array. -/
theorem not_deletesInside_top
    : ¬∀ fileName image sectionName id,
        NulFree image → DeletesInside (cfgOpen fileName (parseImage image)) sectionName id := by
  intro always
  have deletes := always (text "f") (text "[s]\n") (some (text "s")) none (by decide)
  exact deletes.inside (by decide +kernel)

end Cvos.CfgFile

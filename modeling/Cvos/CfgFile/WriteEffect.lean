import Cvos.CfgFile.Write

/-! What a finished `cfg_write` in a named section has done to the entries: six edits, each
described by where it takes place in the file.
-/

namespace Cvos.CfgFile

open Cvos.Lib

/-- The entries hold no header of the name. -/
def NoSection (es : List Entry) (s : Bytes) : Prop := ∀ e ∈ es, e.sectionName ≠ some s

/-- The entries hold no header. -/
def NoHeader (es : List Entry) : Prop := ∀ e ∈ es, e.sectionName = none

/-- The entries end, or a header comes first. -/
def AtHeader (es : List Entry) : Prop := ∀ e, es.head? = some e → e.sectionName.isSome

/-- The first section of the name, between the entries before and after it. -/
structure SectionAt (es : List Entry) (s : Bytes) (before : List Entry) (header : Entry)
    (body after : List Entry) : Prop where
  parts : es = before ++ header :: (body ++ after)
  first : NoSection before s
  named : header.sectionName = some s
  inside : NoHeader body
  closed : AtHeader after

/-- What `cfg_write` in a named section does to the entries, by the id and value given. -/
inductive Edited (s : Bytes) (es : List Entry) : Option Bytes → Option Bytes → List Entry → Prop
  | create {id value : Bytes} (missing : NoSection es s)
    : Edited s es (some id) (some value)
        (es ++ [⟨some s, none, none, none⟩, defineEntry id value])
  | ignore {id value : Option Bytes} (missing : NoSection es s) (delete : id = none ∨ value = none)
    : Edited s es id value es
  | update {id value : Bytes} {before header after pre e post}
    (opened : SectionAt es s before header (pre ++ e :: post) after)
    (earlier : ∀ x ∈ pre, x.id ≠ some id) (key : e.id = some id)
    : Edited s es (some id) (some value)
        (before ++ header :: ((pre ++ { e with value := some value } :: post) ++ after))
  | add {id value : Bytes} {before header body after}
    (opened : SectionAt es s before header body after) (new : ∀ x ∈ body, x.id ≠ some id)
    : Edited s es (some id) (some value)
        (before ++ header :: ((body ++ [defineEntry id value]) ++ after))
  | keep {id : Bytes} {before header body after}
    (opened : SectionAt es s before header body after) (missing : ∀ x ∈ body, x.id ≠ some id)
    : Edited s es (some id) none es
  | deleteKey {id : Bytes} {before header after pre block e post}
    (opened : SectionAt es s before header (pre ++ block ++ e :: post) after)
    (comments : ∀ x ∈ block, x.isBlockComment) (key : e.id = some id)
    : Edited s es (some id) none (before ++ header :: ((pre ++ post) ++ after))
  | deleteSection {value : Option Bytes} {before block header body block' after}
    (opened : SectionAt es s (before ++ block) header (body ++ block') after)
    (comments : ∀ x ∈ block, x.isBlockComment) (comments' : ∀ x ∈ block', x.isBlockComment)
    : Edited s es none value (before ++ (block' ++ after))

/-- A counter that starts at the number of entries is not zero while there are entries left. -/
theorem count_cons (entry : Entry) (rest : List Entry)
    : ¬((entry :: rest).length : Int) = 0 ∧ ((entry :: rest).length : Int) - 1 = rest.length := by
  simp only [List.length_cons]
  omega

/-- The search for a key without a section looks at the first entry and goes on behind it. -/
theorem anyKeyFrom_cons (id : Option Bytes) (e : Nat) (entry : Entry) (rest : List Entry)
    : anyKeyFrom id (entry :: rest).length e (entry :: rest)
      = (if entry.id.isSome then strcmpEq entry.id id else .ok false) >>= fun found =>
          if found then .ok (some e, (rest.length : Int))
          else anyKeyFrom id rest.length (e + 1) rest := by
  obtain ⟨counts, fewer⟩ := count_cons entry rest
  rw [anyKeyFrom, if_neg counts, fewer]
  cases entry.id <;> rfl

/-- The search for a named section looks at the first entry and goes on behind it. -/
theorem sectionFrom_cons (s : Bytes) (e : Nat) (entry : Entry) (rest : List Entry)
    : sectionFrom (some s) (entry :: rest).length e (entry :: rest)
      = if entry.sectionName = some s then .ok (some e, (rest.length : Int))
        else sectionFrom (some s) rest.length (e + 1) rest := by
  obtain ⟨counts, fewer⟩ := count_cons entry rest
  rw [sectionFrom, if_neg counts, fewer]
  cases name : entry.sectionName <;> simp [strcmpEq]

/-- The search within a section looks at the first entry and goes on behind it. -/
theorem stopFrom_cons (id : Option Bytes) (e : Nat) (entry : Entry) (rest : List Entry)
    : stopFrom id (entry :: rest).length e (entry :: rest)
      = if entry.sectionName.isSome then .ok (.header e)
        else if id.isSome && entry.id == id then .ok (.key e)
        else stopFrom id rest.length (e + 1) rest := by
  obtain ⟨counts, fewer⟩ := count_cons entry rest
  rw [stopFrom, if_neg counts, fewer]

/-- The search for a named section runs through all entries or stops at its first header. -/
theorem sectionFrom_eq (s : Bytes) (e : Nat) (rest : List Entry)
    : (NoSection rest s ∧ sectionFrom (some s) rest.length e rest = .ok (none, -1))
      ∨ ∃ before header behind,
          rest = before ++ header :: behind
          ∧ NoSection before s
          ∧ header.sectionName = some s
          ∧ sectionFrom (some s) rest.length e rest
            = .ok (some (e + before.length), (behind.length : Int)) := by
  induction rest generalizing e with
  | nil => exact Or.inl ⟨by simp [NoSection], by simp [sectionFrom]⟩
  | cons entry rest ih =>
      rw [sectionFrom_cons]
      by_cases named : entry.sectionName = some s
      · right
        exact ⟨[], entry, rest, rfl, by simp [NoSection], named, by simp [named]⟩
      · rw [if_neg named]
        rcases ih (e + 1) with ⟨none, result⟩ | ⟨before, header, behind, rfl, none, found, result⟩
        · left
          exact ⟨List.forall_mem_cons.mpr ⟨named, none⟩, result⟩
        · right
          refine ⟨entry :: before, header, behind, rfl, List.forall_mem_cons.mpr ⟨named, none⟩,
            found, ?_⟩
          rw [result, List.length_cons, Nat.add_right_comm, Nat.add_assoc]

/-- The search within a section runs to its end or stops at the first entry with the key. -/
theorem stopFrom_eq (id : Option Bytes) (e : Nat) (rest : List Entry)
    : (∃ body after,
        rest = body ++ after
        ∧ NoHeader body
        ∧ AtHeader after
        ∧ (∀ x ∈ body, id.isSome → x.id ≠ id)
        ∧ stopFrom id rest.length e rest
          = .ok
              (if after = [] then .last (e + body.length) else .header (e + body.length)))
      ∨ ∃ pre entry post,
          rest = pre ++ entry :: post
          ∧ NoHeader pre
          ∧ (∀ x ∈ pre, x.id ≠ id)
          ∧ entry.sectionName = none
          ∧ id.isSome
          ∧ entry.id = id
          ∧ stopFrom id rest.length e rest = .ok (.key (e + pre.length)) := by
  induction rest generalizing e with
  | nil =>
      left
      exact ⟨[], [], rfl, by simp [NoHeader], by simp [AtHeader], by simp, by simp [stopFrom]⟩
  | cons entry rest ih =>
      rw [stopFrom_cons]
      cases header : entry.sectionName with
      | some name =>
          left
          exact ⟨[], entry :: rest, rfl, by simp [NoHeader], by simp [AtHeader, header], by simp,
            by simp⟩
      | none =>
          by_cases key : id.isSome ∧ entry.id = id
          · right
            exact ⟨[], entry, rest, rfl, by simp [NoHeader], by simp, header, key.1, key.2,
              by simp [key.1, key.2]⟩
          · have onward
                : (if (none : Option Bytes).isSome = true then (.ok (.header e) : Checked Stop)
                    else if (id.isSome && entry.id == id) = true then .ok (.key e)
                    else stopFrom id rest.length (e + 1) rest)
                  = stopFrom id rest.length (e + 1) rest := by
              simp only [Bool.and_eq_true, beq_iff_eq, key]
              simp
            have place (n : Nat) : e + 1 + n = e + (n + 1) := by omega
            rw [onward]
            rcases ih (e + 1) with ⟨body, after, rfl, inside, closed, new, result⟩
              | ⟨pre, found, post, rfl, inside, earlier, noHeader, asked, same, result⟩
            · left
              refine ⟨entry :: body, after, rfl, List.forall_mem_cons.mpr ⟨header, inside⟩, closed,
                List.forall_mem_cons.mpr ⟨fun asked same => key ⟨asked, same⟩, new⟩, ?_⟩
              rw [result, List.length_cons, place]
            · right
              refine ⟨entry :: pre, found, post, rfl, List.forall_mem_cons.mpr ⟨header, inside⟩,
                List.forall_mem_cons.mpr ⟨fun same => key ⟨asked, same⟩, earlier⟩, noHeader, asked,
                same, ?_⟩
              rw [result, List.length_cons, place]

/-- Moving up from behind some entries passes block comments only. -/
theorem moveUp_eq {p : Pool} {es rest : List Entry} {e : Nat} (holds : p.entries = es ++ rest)
    (moved : moveUp p es.length = .ok e)
    : ∃ kept block,
        es = kept ++ block ∧ (∀ x ∈ block, x.isBlockComment) ∧ e = kept.length := by
  induction es using List.reverseRecOn generalizing rest with
  | nil => simp [moveUp] at moved
  | append_singleton es entry ih =>
      have read : p.entry es.length = .ok entry := by simp [Pool.entry, holds]
      rw [List.length_append, List.length_singleton, moveUp, read, Checked.ok_bind] at moved
      by_cases comment : entry.isBlockComment
      · rw [if_pos comment] at moved
        obtain ⟨kept, block, rfl, comments, rfl⟩ := ih (by simpa using holds) moved
        refine ⟨kept, block ++ [entry], by simp, ?_, rfl⟩
        intro x member
        rcases List.mem_append.mp member with earlier | last
        · exact comments x earlier
        · rw [List.mem_singleton.mp last]
          exact comment
      · rw [if_neg comment, Except.ok.injEq] at moved
        exact ⟨es ++ [entry], [], by simp, by simp, by simp [← moved]⟩

/-- A header is no comment. -/
theorem isBlockComment_of_header {e : Entry} (header : e.sectionName.isSome)
    : e.isBlockComment = false := by
  obtain ⟨name, named⟩ := Option.isSome_iff_exists.mp header
  simp [CfgEntry.isBlockComment, named]

/-- A comment block at the end of some entries ends behind their header. -/
theorem block_behind_header {before behind kept block : List Entry} {header : Entry}
    (named : header.sectionName.isSome) (comments : ∀ x ∈ block, x.isBlockComment)
    (same : before ++ header :: behind = kept ++ block)
    : ∃ body, behind = body ++ block ∧ kept = before ++ header :: body := by
  rcases List.append_eq_append_iff.mp same with ⟨rest, rfl, tail⟩ | ⟨rest, rfl, tail⟩
  · cases rest with
    | nil =>
        rw [List.nil_append] at tail
        have bad := comments header (by simp [← tail])
        rw [isBlockComment_of_header named] at bad
        contradiction
    | cons first rest =>
        obtain ⟨rfl, rfl⟩ := List.cons.inj tail
        exact ⟨rest, rfl, rfl⟩
  · have bad := comments header (by simp [tail])
    rw [isBlockComment_of_header named] at bad
    contradiction

/-- The entries behind a key of a section are the rest of the section and what follows it. -/
theorem exists_section_end (es : List Entry)
    : ∃ post after, es = post ++ after ∧ NoHeader post ∧ AtHeader after := by
  refine ⟨es.takeWhile (fun e => !e.isHeader), es.dropWhile (fun e => !e.isHeader),
    List.takeWhile_append_dropWhile.symm, ?_, ?_⟩
  · intro e member
    simpa [CfgEntry.isHeader] using List.mem_takeWhile_imp member
  · intro e first
    have header := List.head?_dropWhile_not (fun e : Entry => !e.isHeader) es
    rw [first] at header
    exact Bool.not_eq_eq_eq_not.mp header

/-- Updating the entry behind some others keeps all the others. -/
theorem setValue_entries {p : Pool} {before behind : List Entry} {e : Entry}
    (parts : p.entries = before ++ e :: behind) (value : Bytes)
    : (p.setValue before.length value).entries
      = before ++ { e with value := some value } :: behind := by
  have entries
      : (p.setValue before.length value).entries
        = p.entries.modify before.length fun entry => { entry with value := some value } := rfl
  rw [entries, parts]
  clear parts entries
  induction before with
  | nil => simp
  | cons first before ih => simp [ih]

/-- Removing the entries between two of its parts joins the parts. -/
theorem remove_entries {p : Pool} {kept gone rest : List Entry}
    (parts : p.entries = kept ++ (gone ++ rest))
    : (p.remove kept.length (kept.length + gone.length)).entries = kept ++ rest := by
  have entries
      : (p.remove kept.length (kept.length + gone.length)).entries
        = p.entries.take kept.length
          ++ p.entries.drop (max kept.length (kept.length + gone.length)) := rfl
  rw [entries, parts, Nat.max_eq_right (Nat.le_add_right _ _), List.take_left,
    ← List.append_assoc, ← List.length_append, List.drop_left]

/-- A finished `doDelete` removes the entries from the comment block above `eSect` on. -/
theorem doDelete_entries {c c' : Config} {ret : Int} {above gone rest : List Entry}
    (parts : c.pool.entries = above ++ (gone ++ rest))
    (deleted : doDelete c above.length (above.length + gone.length) = .ok (ret, c'))
    : ∃ kept block,
        above = kept ++ block
        ∧ (∀ x ∈ block, x.isBlockComment)
        ∧ ret = 0
        ∧ c'.valid = c.valid
        ∧ c'.pool.entries = kept ++ rest := by
  rw [doDelete] at deleted
  cases moved : moveUp c.pool above.length with
  | error fault => simp [moved] at deleted
  | ok e =>
      obtain ⟨kept, block, rfl, comments, rfl⟩ := moveUp_eq parts moved
      simp only [moved, Checked.ok_bind, Except.ok.injEq, Prod.mk.injEq] at deleted
      obtain ⟨rfl, rfl⟩ := deleted
      refine ⟨kept, block, rfl, comments, rfl, rfl, ?_⟩
      have whole : c.pool.entries = kept ++ (block ++ gone ++ rest) := by simp [parts]
      have removed := remove_entries whole
      rw [List.length_append, ← Nat.add_assoc, ← List.length_append] at removed
      exact removed

/-- Inserting in front of an entry puts the new entry between the two parts. -/
theorem insertBefore_entries {p p' : Pool} {above below : List Entry} {id value : Bytes}
    (parts : p.entries = above ++ below)
    (inserted : p.insertBefore above.length id value = .ok p')
    : p'.entries = above ++ defineEntry id value :: below := by
  rw [Pool.insertBefore] at inserted
  split at inserted
  next => contradiction
  next =>
    split at inserted
    next room =>
      obtain rfl := Except.ok.inj inserted
      simp only [parts, List.take_left, List.drop_left]
    next => contradiction

/-- A section ends as many entries behind its header as it holds. -/
theorem length_upTo (before : List Entry) (header : Entry) (body : List Entry)
    : (before ++ header :: body).length = before.length + 1 + body.length := by
  rw [List.length_append, List.length_cons, Nat.add_assoc, Nat.add_comm 1]

section AtSection

variable {c c' : Config} {s : Bytes} {ret : Int} {before after : List Entry} {header : Entry}

/-- A finished deletion of a section has removed it with the comment block above it, up to the
comment block above the next header.
-/
theorem SectionAt.deleteSection {value : Option Bytes} {body : List Entry}
    (opened : SectionAt c.pool.entries s before header body after)
    (deleted
      : (do
          let e ← moveUp c.pool (before.length + 1 + body.length)
          doDelete c before.length e) = .ok (ret, c'))
    : ret = 0 ∧ c'.valid = c.valid ∧ Edited s c.pool.entries none value c'.pool.entries := by
  have header' : header.sectionName.isSome := by simp [opened.named]
  obtain ⟨e, moved, deleted⟩ := Checked.bind_eq_ok.mp deleted
  rw [← length_upTo before header] at moved
  have whole : c.pool.entries = (before ++ header :: body) ++ after := by simp [opened.parts]
  obtain ⟨kept, block', same, comments', rfl⟩ := moveUp_eq whole moved
  obtain ⟨body, rfl, rfl⟩ := block_behind_header header' comments' same
  rw [List.length_append] at deleted
  have whole : c.pool.entries = before ++ (header :: body ++ (block' ++ after)) := by simp [whole]
  obtain ⟨kept, block, rfl, comments, ret, valid, entries⟩ := doDelete_entries whole deleted
  refine ⟨ret, valid, ?_⟩
  rw [entries]
  exact .deleteSection opened comments comments'

/-- A finished deletion of a key has removed its entry with the comment block above it. -/
theorem SectionAt.deleteKey {id : Bytes} {pre post : List Entry} {entry : Entry}
    (opened : SectionAt c.pool.entries s before header (pre ++ entry :: post) after)
    (key : entry.id = some id)
    (deleted
      : doDelete c (before.length + 1 + pre.length) (before.length + 1 + pre.length + 1)
        = .ok (ret, c'))
    : ret = 0 ∧ c'.valid = c.valid ∧ Edited s c.pool.entries (some id) none c'.pool.entries := by
  have header' : header.sectionName.isSome := by simp [opened.named]
  rw [← length_upTo before header] at deleted
  have whole : c.pool.entries = (before ++ header :: pre) ++ ([entry] ++ (post ++ after)) := by
    simp [opened.parts]
  obtain ⟨kept, block, same, comments, ret, valid, entries⟩ := doDelete_entries whole deleted
  obtain ⟨pre, rfl, rfl⟩ := block_behind_header header' comments same
  refine ⟨ret, valid, ?_⟩
  rw [entries, List.append_assoc, List.cons_append, ← List.append_assoc pre]
  exact .deleteKey opened comments key

/-- A finished update has given the first entry of the key the value. -/
theorem SectionAt.update {id value : Bytes} {pre post : List Entry} {entry : Entry}
    (opened : SectionAt c.pool.entries s before header (pre ++ entry :: post) after)
    (earlier : ∀ x ∈ pre, x.id ≠ some id) (key : entry.id = some id)
    : Edited s c.pool.entries (some id) (some value)
        (c.pool.setValue (before.length + 1 + pre.length) value).entries := by
  have whole : c.pool.entries = (before ++ header :: pre) ++ entry :: (post ++ after) := by
    simp [opened.parts]
  have entries
      : (c.pool.setValue (before.length + 1 + pre.length) value).entries
        = before ++ header :: ((pre ++ { entry with value := some value } :: post) ++ after) := by
    rw [← length_upTo before header, setValue_entries whole value]
    simp
  rw [entries]
  exact .update opened earlier key

/-- A finished insertion has put the new entry at the end of the section. -/
theorem SectionAt.add {id value : Bytes} {body : List Entry}
    (opened : SectionAt c.pool.entries s before header body after)
    (new : ∀ x ∈ body, x.id ≠ some id) {p : Pool}
    (inserted : c.pool.insertBefore (before.length + 1 + body.length) id value = .ok p)
    : Edited s c.pool.entries (some id) (some value) p.entries := by
  rw [← length_upTo before header] at inserted
  have whole : c.pool.entries = (before ++ header :: body) ++ after := by simp [opened.parts]
  have entries : p.entries = before ++ header :: ((body ++ [defineEntry id value]) ++ after) := by
    rw [insertBefore_entries whole inserted]
    simp
  rw [entries]
  exact .add opened new

end AtSection

/-- A finished `cfg_write` within a section has made one of the edits. -/
theorem writeFound_edited {c c' : Config} {s : Bytes} {id value : Option Bytes} {ret : Int}
    {before behind : List Entry} {header : Entry}
    (parts : c.pool.entries = before ++ header :: behind) (first : NoSection before s)
    (named : header.sectionName = some s)
    (written : writeFound c before.length behind.length id value = .ok (ret, c'))
    : ret = 0
      ∧ c'.valid = c.valid
      ∧ (id.isSome → value.isSome → c'.dirty)
      ∧ Edited s c.pool.entries id value c'.pool.entries := by
  have behind' : c.pool.entries.drop (before.length + 1) = behind := by
    simp [parts, List.drop_append]
  rw [writeFound, behind'] at written
  rcases stopFrom_eq id (before.length + 1) behind with
    ⟨body, after, rfl, inside, closed, new, stop⟩
    | ⟨pre, entry, post, rfl, inside, earlier, noHeader, asked, key, stop⟩
  · have opened : SectionAt c.pool.entries s before header body after :=
      ⟨parts, first, named, inside, closed⟩
    rw [stop, Checked.ok_bind] at written
    cases id with
    | none =>
        have deleted
            : (do
                let e ← moveUp c.pool (before.length + 1 + body.length)
                doDelete c before.length e) = .ok (ret, c') := by
          by_cases final : after = [] <;> simpa [final] using written
        obtain ⟨ret, valid, edited⟩ := opened.deleteSection deleted
        exact ⟨ret, valid, by simp, edited⟩
    | some id =>
        have new : ∀ x ∈ body, x.id ≠ some id := fun x member => new x member rfl
        cases value with
        | none =>
            have same : ret = 0 ∧ c' = c := by
              by_cases final : after = [] <;> simpa [final, eq_comm] using written
            obtain ⟨rfl, rfl⟩ := same
            exact ⟨rfl, rfl, by simp, .keep opened new⟩
        | some value =>
            by_cases final : after = []
            · subst final
              obtain ⟨rfl, rfl⟩ := Prod.mk.inj (Except.ok.inj written)
              refine ⟨rfl, rfl, fun _ _ => rfl, ?_⟩
              have added : Edited s c.pool.entries (some id) (some value) _ := .add opened new
              simpa [parts, Config.edited] using added
            · rw [if_neg final] at written
              obtain ⟨p, inserted, same⟩ := Checked.bind_eq_ok.mp written
              obtain ⟨rfl, rfl⟩ := Prod.mk.inj (Except.ok.inj same)
              exact ⟨rfl, rfl, fun _ _ => rfl, opened.add new inserted⟩
  · obtain ⟨post, after, rfl, inside', closed⟩ := exists_section_end post
    obtain ⟨id, rfl⟩ := Option.isSome_iff_exists.mp asked
    have opened : SectionAt c.pool.entries s before header (pre ++ entry :: post) after := by
      refine ⟨by simp [parts], first, named, ?_, closed⟩
      intro x member
      rcases List.mem_append.mp member with before | found
      · exact inside x before
      · rcases List.mem_cons.mp found with rfl | behind
        · exact noHeader
        · exact inside' x behind
    rw [stop, Checked.ok_bind] at written
    cases value with
    | none =>
        obtain ⟨ret, valid, edited⟩ := opened.deleteKey key written
        exact ⟨ret, valid, by simp, edited⟩
    | some value =>
        obtain ⟨rfl, rfl⟩ := Prod.mk.inj (Except.ok.inj written)
        exact ⟨rfl, rfl, fun _ _ => rfl, opened.update earlier key⟩

/-- A finished `cfg_write` in a named section returns 0 and has made one of the edits; it
leaves the configuration dirty when it was given a value.
-/
theorem cfgWrite_edited {c c' : Config} {s : Bytes} {id value : Option Bytes} {ret : Int}
    (valid : c.valid) (written : cfgWrite c (some s) id value = .ok (ret, c'))
    : ret = 0
      ∧ c'.valid
      ∧ (id.isSome → value.isSome → c'.dirty)
      ∧ Edited s c.pool.entries id value c'.pool.entries := by
  simp only [cfgWrite, valid, Bool.not_true, Bool.false_eq_true, if_false, Option.isNone_some,
    Checked.ok_bind, List.drop_zero] at written
  rcases sectionFrom_eq s 0 c.pool.entries with
    ⟨missing, result⟩ | ⟨before, header, behind, parts, first, named, result⟩
  · simp only [result, Checked.ok_bind] at written
    match id, value with
    | some id, some value =>
        simp only [Except.ok.injEq, Prod.mk.injEq] at written
        obtain ⟨rfl, rfl⟩ := written
        refine ⟨rfl, valid, fun _ _ => rfl, ?_⟩
        simpa [Config.edited] using Edited.create missing
    | none, value =>
        simp only [Except.ok.injEq, Prod.mk.injEq] at written
        obtain ⟨rfl, rfl⟩ := written
        exact ⟨rfl, valid, by simp, .ignore missing (Or.inl rfl)⟩
    | some id, none =>
        simp only [Except.ok.injEq, Prod.mk.injEq] at written
        obtain ⟨rfl, rfl⟩ := written
        exact ⟨rfl, valid, by simp, .ignore missing (Or.inr rfl)⟩
  · simp only [result, Nat.zero_add, Checked.ok_bind] at written
    obtain ⟨ret, valid', dirty, edited⟩ := writeFound_edited parts first named written
    exact ⟨ret, valid'.trans valid, dirty, edited⟩

/-- What holds of all entries still does after a write of a value, when it holds of the entries
that the write makes.
-/
theorem Edited.forall_entries {s k v : Bytes} {es es' : List Entry} {holds : Entry → Prop}
    (edited : Edited s es (some k) (some v) es') (all : ∀ e ∈ es, holds e)
    (header : holds ⟨some s, none, none, none⟩) (define : holds (defineEntry k v))
    (changed : ∀ e, holds e → e.id = some k → holds { e with value := some v })
    : ∀ e ∈ es', holds e := by
  cases edited with
  | create missing =>
      refine List.forall_mem_append.mpr ⟨all, ?_⟩
      simpa using ⟨header, define⟩
  | ignore missing delete => exact all
  | @update _ _ before header after pre e post opened earlier key =>
      rw [opened.parts] at all
      simp only [List.forall_mem_append, List.forall_mem_cons] at all ⊢
      obtain ⟨before, header, ⟨pre, target, post⟩, after⟩ := all
      exact ⟨before, header, ⟨pre, changed e target key, post⟩, after⟩
  | @add _ _ before header body after opened new =>
      rw [opened.parts] at all
      simp only [List.forall_mem_append, List.forall_mem_cons] at all ⊢
      obtain ⟨before, header, body, after⟩ := all
      exact ⟨before, header, ⟨body, by simpa using define⟩, after⟩

end Cvos.CfgFile

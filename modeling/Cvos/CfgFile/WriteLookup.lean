import Cvos.CfgFile.Lookup
import Cvos.CfgFile.ParseRefinement
import Cvos.CfgFile.WriteEffect

/-! What a write does to lookups: where it delivers the value written, and that it leaves all
other lookups alone.
-/

namespace Cvos.CfgFile

open Cvos.Lib

/-- An id that is its own key: not empty, and without quotes. -/
structure PlainId (id : Bytes) : Prop where
  filled : id ≠ []
  unquoted : ∀ c ∈ id, isQuote c = false

/-- Removing quotes from a plain id changes nothing. -/
theorem PlainId.removeQuotes_eq {id : Bytes} (plain : PlainId id) : removeQuotes id = some id := by
  have noSingle : ∀ c ∈ id, decide (c ≠ ch '\'') = true := by
    intro c member
    have unquoted := plain.unquoted c member
    simp only [isQuote, Bool.or_eq_false_iff, beq_eq_false_iff_ne] at unquoted
    exact decide_eq_true unquoted.1
  have noDouble : ∀ c ∈ id, decide (c ≠ ch '"') = true := by
    intro c member
    have unquoted := plain.unquoted c member
    simp only [isQuote, Bool.or_eq_false_iff, beq_eq_false_iff_ne] at unquoted
    exact decide_eq_true unquoted.2
  have start : id.dropWhile isQuote = id := by
    obtain ⟨c, rest, rfl⟩ := List.exists_cons_of_ne_nil plain.filled
    simp [plain.unquoted c List.mem_cons_self]
  rw [removeQuotes, start, if_neg plain.filled, List.takeWhile_eq_self_iff.mpr noSingle,
    List.takeWhile_eq_self_iff.mpr noDouble]

/-- An entry with a plain id gives no value to other keys. -/
theorem PlainId.valueOf_other {id k : Bytes} {e : Entry} (plain : PlainId id)
    (key : e.id = some id) (other : k ≠ id)
    : e.valueOf k = none := by
  cases header : e.sectionName with
  | some name => simp [CfgEntry.valueOf, CfgEntry.binding, header]
  | none =>
      cases shown : e.value with
      | none => exact valueOf_eq_none (Or.inr shown) k
      | some value =>
          rw [valueOf_define header key shown, plain.removeQuotes_eq]
          simp [Ne.symm other]

/-- A comment gives no values. -/
theorem valueOf_comment {e : Entry} (comment : e.isBlockComment) (k : Bytes)
    : e.valueOf k = none := by
  obtain ⟨sectionName, id, value, text⟩ := e
  cases id with
  | none => exact valueOf_eq_none (Or.inl rfl) k
  | some id => cases sectionName <;> simp [CfgEntry.isBlockComment] at comment

/-- A comment is not shown by the cursor. -/
theorem visible_comment {e : Entry} (comment : e.isBlockComment) : e.visible = false := by
  obtain ⟨sectionName, id, value, text⟩ := e
  cases sectionName <;> cases id <;> cases value <;>
    simp [CfgEntry.isBlockComment, CfgEntry.visible] at comment ⊢

/-- A lookup tries the entries in their order. -/
theorem lookup_append (es es' : List Entry) (k : Bytes)
    : lookup (es ++ es') k = (lookup es k).or (lookup es' k) := List.findSome?_append

/-- A lookup fails among entries that do not give the key a value. -/
theorem lookup_eq_none {es : List Entry} {k : Bytes} (nowhere : ∀ e ∈ es, e.valueOf k = none)
    : lookup es k = none := List.findSome?_eq_none_iff.mpr nowhere

/-- The entries of an opened section end where the next header stands. -/
theorem untilHeader_append {body : List Entry} (inside : NoHeader body) (after : List Entry)
    : untilHeader (body ++ after) = body ++ untilHeader after := by
  refine List.takeWhile_append_of_pos ?_
  intro e member
  simp [CfgEntry.isHeader, inside e member]

/-- No entry stands before a header that comes first. -/
theorem untilHeader_atHeader {after : List Entry} (closed : AtHeader after)
    : untilHeader after = [] := by
  cases after with
  | nil => rfl
  | cons e rest =>
      have header : e.isHeader = true := closed e rfl
      rw [untilHeader_cons, if_pos header]

/-- Entries without a header of the name are passed in the search for the section. -/
theorem sectionBody_append {es : List Entry} {s : Bytes} (none : NoSection es s)
    (rest : List Entry)
    : sectionBody (es ++ rest) s = sectionBody rest s := by
  induction es with
  | nil => rfl
  | cons e es ih =>
      rw [List.cons_append, sectionBody, if_neg (none e List.mem_cons_self),
        ih fun x member => none x (List.mem_cons_of_mem e member)]

/-- The entries of a section are entries of the file, and hold no header. -/
theorem mem_of_sectionBody {es body : List Entry} {s : Bytes} (found : sectionBody es s = some body)
    : body ⊆ es ∧ NoHeader body := by
  induction es with
  | nil => simp [sectionBody] at found
  | cons e es ih =>
      rw [sectionBody] at found
      split at found
      next =>
        obtain rfl := Option.some.inj found
        constructor
        · exact fun x member => List.mem_cons_of_mem e ((List.takeWhile_sublist _).subset member)
        · intro x member
          simpa [CfgEntry.isHeader] using List.mem_takeWhile_imp member
      next =>
        obtain ⟨within, inside⟩ := ih found
        exact ⟨fun x member => List.mem_cons_of_mem e (within member), inside⟩

/-- The search for a section finds its entries. -/
theorem SectionAt.sectionBody_eq {es : List Entry} {s : Bytes} {before : List Entry}
    {header : Entry} {body after : List Entry} (opened : SectionAt es s before header body after)
    : sectionBody es s = some body := by
  rw [opened.parts, sectionBody_append opened.first, sectionBody, if_pos opened.named,
    untilHeader_append opened.inside, untilHeader_atHeader opened.closed, List.append_nil]

/-- There is one first section of each name. -/
theorem SectionAt.unique {es : List Entry} {s : Bytes} {before body after : List Entry}
    {header : Entry} (opened : SectionAt es s before header body after)
    {before' body' after' : List Entry} {header' : Entry}
    (opened' : SectionAt es s before' header' body' after')
    : body = body' ∧ after = after' := by
  have found {before body after : List Entry} {header : Entry}
      (opened : SectionAt es s before header body after)
      : es.dropWhile (fun e => e.sectionName ≠ some s) = header :: (body ++ after) := by
    have passed : ∀ e ∈ before, decide (e.sectionName ≠ some s) = true :=
      fun e member => decide_eq_true (opened.first e member)
    rw [opened.parts, List.dropWhile_append_of_pos passed]
    simp [opened.named]
  have body : body = body' := by
    have same := opened.sectionBody_eq
    rw [opened'.sectionBody_eq, Option.some.injEq] at same
    exact same.symm
  have rest := found opened
  rw [found opened', body, List.cons.injEq, List.append_cancel_left_eq] at rest
  exact ⟨body, rest.2.symm⟩

/-- A section whose entries are exchanged is still found. -/
theorem SectionAt.exchange {es : List Entry} {s : Bytes} {before : List Entry} {header : Entry}
    {body after : List Entry} (opened : SectionAt es s before header body after)
    {body' : List Entry} (inside : NoHeader body')
    : SectionAt (before ++ header :: (body' ++ after)) s before header body' after where
  parts := rfl
  first := opened.first
  named := opened.named
  inside := inside
  closed := opened.closed

/-- Entries without headers have no section. -/
theorem NoHeader.noSection {es : List Entry} (none : NoHeader es) (s : Bytes) : NoSection es s := by
  intro e member
  simp [none e member]

/-- Block comments are no headers. -/
theorem noHeader_of_comments {block : List Entry} (comments : ∀ x ∈ block, x.isBlockComment)
    : NoHeader block := by
  intro e member
  cases header : e.sectionName with
  | none => rfl
  | some name =>
      have comment := comments e member
      rw [isBlockComment_of_header (by simp [header])] at comment
      contradiction

/-- Both parts of entries without headers are without headers. -/
theorem noHeader_append {es es' : List Entry} : NoHeader (es ++ es') ↔ NoHeader es ∧ NoHeader es' :=
  List.forall_mem_append

/-- A section body with another value in one entry has no header. -/
theorem NoHeader.setValue {pre post : List Entry} {e : Entry} (inside : NoHeader (pre ++ e :: post))
    (value : Option Bytes)
    : NoHeader (pre ++ { e with value := value } :: post) := by
  obtain ⟨above, rest⟩ := noHeader_append.mp inside
  obtain ⟨here, below⟩ := List.forall_mem_cons.mp rest
  exact noHeader_append.mpr ⟨above, List.forall_mem_cons.mpr ⟨here, below⟩⟩

/-- A section body with a key added at its end has no header. -/
theorem NoHeader.define {body : List Entry} (inside : NoHeader body) (id value : Bytes)
    : NoHeader (body ++ [defineEntry id value]) :=
  noHeader_append.mpr ⟨inside, by simp [NoHeader, defineEntry]⟩

/-- A section body without one of its keys and the comments above it has no header. -/
theorem NoHeader.remove {pre block post : List Entry} {e : Entry}
    (inside : NoHeader (pre ++ block ++ e :: post))
    : NoHeader (pre ++ post) := by
  obtain ⟨above, rest⟩ := noHeader_append.mp inside
  exact noHeader_append.mpr
    ⟨(noHeader_append.mp above).1, (List.forall_mem_cons.mp rest).2⟩

section Frames

variable {es rest rest' : List Entry}

/-- Behind the same entries, what gives the same values before the next header still does. -/
theorem lookup_untilHeader_append {k : Bytes}
    (same : lookup (untilHeader rest) k = lookup (untilHeader rest') k)
    : lookup (untilHeader (es ++ rest)) k = lookup (untilHeader (es ++ rest')) k := by
  induction es with
  | nil => exact same
  | cons e es ih =>
      rw [List.cons_append, List.cons_append, untilHeader_cons, untilHeader_cons]
      split
      next => rfl
      next => rw [lookup_cons, lookup_cons, ih]

/-- Behind the same entries, what answers a search alike still does. -/
theorem lookupIn_append {s : Bytes} {id : Option Bytes}
    (same : lookupIn rest s id = lookupIn rest' s id)
    (continued : ∀ k, lookup (untilHeader rest) k = lookup (untilHeader rest') k)
    : lookupIn (es ++ rest) s id = lookupIn (es ++ rest') s id := by
  induction es with
  | nil => exact same
  | cons e es ih =>
      rw [List.cons_append, List.cons_append, lookupIn, lookupIn, sectionBody, sectionBody]
      split
      next =>
        cases id with
        | none => rfl
        | some k =>
            have behind
                : lookup (untilHeader (es ++ rest)) k = lookup (untilHeader (es ++ rest')) k :=
              lookup_untilHeader_append (continued k)
            simp [behind]
      next => exact ih

/-- Behind the same entries, a search without a section is answered alike unless a header is
the first visible entry.
-/
theorem lookupFirst_append {k : Bytes}
    (same : lookupFirst rest k = lookupFirst rest' k ∨ (∃ fault, lookupFirst rest k = .error fault)
      ∨ ∃ fault, lookupFirst rest' k = .error fault)
    (continued : ∀ k, lookup (untilHeader rest) k = lookup (untilHeader rest') k)
    : lookupFirst (es ++ rest) k = lookupFirst (es ++ rest') k
      ∨ (∃ fault, lookupFirst (es ++ rest) k = .error fault)
      ∨ ∃ fault, lookupFirst (es ++ rest') k = .error fault := by
  induction es with
  | nil => exact same
  | cons e es ih =>
      cases shown : e.visible with
      | false => simpa [lookupFirst, shown] using ih
      | true =>
          have behind
              : lookup (untilHeader (es ++ rest)) k = lookup (untilHeader (es ++ rest')) k :=
            lookup_untilHeader_append (continued k)
          left
          simp [lookupFirst, shown, behind]

end Frames

/-- The end of the entries that an edit of the section changes, in front of which everything
stays as it is: no search that is not for the section sees the change.
-/
structure Unseen (s : Bytes) (rest rest' : List Entry) : Prop where
  others : ∀ s' id', s' ≠ s → lookupIn rest s' id' = lookupIn rest' s' id'
  continued : ∀ k, lookup (untilHeader rest) k = lookup (untilHeader rest') k
  first
    : ∀ k,
        lookupFirst rest k = lookupFirst rest' k
        ∨ (∃ fault, lookupFirst rest k = .error fault)
        ∨ ∃ fault, lookupFirst rest' k = .error fault

/-- A search for another section passes an opened section. -/
theorem lookupIn_opened {s s' : Bytes} {header : Entry} {body : List Entry}
    (named : header.sectionName = some s) (inside : NoHeader body) (other : s' ≠ s)
    (after : List Entry) (id' : Option Bytes)
    : lookupIn (header :: (body ++ after)) s' id' = lookupIn after s' id' := by
  rw [lookupIn, sectionBody, if_neg (by simpa [named] using Ne.symm other),
    sectionBody_append (inside.noSection s'), lookupIn]

/-- Searches for other sections do not see what stands in the section. -/
theorem unseen_body {s : Bytes} {header : Entry} {body body' : List Entry}
    (named : header.sectionName = some s) (inside : NoHeader body) (inside' : NoHeader body')
    (after : List Entry)
    : Unseen s (header :: (body ++ after)) (header :: (body' ++ after)) where
  others := by
    intro s' id' other
    rw [lookupIn_opened named inside other, lookupIn_opened named inside' other]
  continued := by
    intro k
    simp [untilHeader_cons, CfgEntry.isHeader, named]
  first := by
    intro k
    right
    left
    exact ⟨.nullPointer, by simp [lookupFirst, CfgEntry.visible, CfgEntry.isHeader, named]⟩

/-- Every edit of a section is unseen from outside of it. -/
theorem Edited.exists_unseen {s : Bytes} {es es' : List Entry} {id value : Option Bytes}
    (edited : Edited s es id value es')
    : ∃ kept rest rest', es = kept ++ rest ∧ es' = kept ++ rest' ∧ Unseen s rest rest' := by
  cases edited with
  | create missing =>
      refine ⟨es, [], _, by simp, rfl, ?_, ?_, ?_⟩
      · intro s' id' other
        simp [lookupIn, sectionBody, Ne.symm other, defineEntry]
      · intro k
        simp [untilHeader, CfgEntry.isHeader]
      · intro k
        exact Or.inr (Or.inr ⟨.nullPointer, rfl⟩)
  | ignore missing delete =>
      exact ⟨es, [], [], by simp, by simp, by simp, by simp, by simp⟩
  | keep opened missing =>
      exact ⟨es, [], [], by simp, by simp, by simp, by simp, by simp⟩
  | @update id value before header after pre e post opened earlier key =>
      have inside := opened.inside.setValue (some value)
      exact ⟨_, _, _, opened.parts, rfl, unseen_body opened.named opened.inside inside _⟩
  | @add id value _ _ _ _ opened new =>
      have inside := opened.inside.define id value
      exact ⟨_, _, _, opened.parts, rfl, unseen_body opened.named opened.inside inside _⟩
  | deleteKey opened comments key =>
      have inside := opened.inside.remove
      exact ⟨_, _, _, opened.parts, rfl, unseen_body opened.named opened.inside inside _⟩
  | @deleteSection value before block header body block' after opened comments comments' =>
      have inside := noHeader_of_comments comments
      have inside' := noHeader_of_comments comments'
      refine ⟨before, block ++ header :: ((body ++ block') ++ after), block' ++ after,
        by simp [opened.parts], rfl, ?_, ?_, ?_⟩
      · intro s' id' other
        rw [lookupIn, sectionBody_append (inside.noSection s'), ← lookupIn,
          lookupIn_opened opened.named opened.inside other, lookupIn, lookupIn,
          sectionBody_append (inside'.noSection s')]
      · intro k
        have header' : header.isHeader = true := by simp [CfgEntry.isHeader, opened.named]
        rw [untilHeader_append inside, untilHeader_append inside', untilHeader_cons, if_pos header',
          untilHeader_atHeader opened.closed, List.append_nil, List.append_nil,
          lookup_eq_none fun e member => valueOf_comment (comments e member) k,
          lookup_eq_none fun e member => valueOf_comment (comments' e member) k]
      · intro k
        have hidden : ∀ e ∈ block, (!e.visible) = true := by
          intro e member
          simpa using visible_comment (comments e member)
        right
        left
        refine ⟨.nullPointer, ?_⟩
        rw [lookupFirst, List.dropWhile_append_of_pos hidden]
        simp [CfgEntry.visible, CfgEntry.isHeader, opened.named]

/-- A write in a section leaves the searches in other sections alone. -/
theorem Edited.lookupIn_other {s : Bytes} {es es' : List Entry} {id value : Option Bytes}
    (edited : Edited s es id value es') {s' : Bytes} (other : s' ≠ s) (id' : Option Bytes)
    : lookupIn es' s' id' = lookupIn es s' id' := by
  obtain ⟨kept, rest, rest', rfl, rfl, unseen⟩ := edited.exists_unseen
  exact (lookupIn_append (unseen.others s' id' other) unseen.continued).symm

/-- A write in a section leaves the searches without a section alone, as long as they have a
result.
-/
theorem Edited.lookupFirst_eq {s : Bytes} {es es' : List Entry} {id value : Option Bytes}
    (edited : Edited s es id value es') (k : Bytes)
    : lookupFirst es k = lookupFirst es' k
      ∨ (∃ fault, lookupFirst es k = .error fault)
      ∨ ∃ fault, lookupFirst es' k = .error fault := by
  obtain ⟨kept, rest, rest', rfl, rfl, unseen⟩ := edited.exists_unseen
  exact lookupFirst_append (unseen.first k) unseen.continued

/-- The lookup in an opened section. -/
theorem SectionAt.lookupIn_eq {es : List Entry} {s : Bytes} {before : List Entry}
    {header : Entry} {body after : List Entry} (opened : SectionAt es s before header body after)
    (k : Bytes)
    : lookupIn es s (some k) = (lookup body k).map some := by
  rw [lookupIn, opened.sectionBody_eq, Option.bind_some]

/-- The lookup in a section that does not exist. -/
theorem lookupIn_noSection {es : List Entry} {s : Bytes} (missing : NoSection es s)
    (id : Option Bytes)
    : lookupIn es s id = none := by
  have nowhere := sectionBody_append missing []
  rw [List.append_nil] at nowhere
  rw [lookupIn, nowhere, sectionBody, Option.bind_none]

/-- The lookup in a section that was created for a key. -/
theorem lookupIn_created {es : List Entry} {s : Bytes} (missing : NoSection es s) (e : Entry)
    (inside : e.sectionName = none) (k : Bytes)
    : lookupIn (es ++ [⟨some s, none, none, none⟩, e]) s (some k) = (e.valueOf k).map some := by
  rw [lookupIn, sectionBody_append missing, sectionBody, if_pos rfl, Option.bind_some,
    untilHeader_cons]
  simp [CfgEntry.isHeader, inside, untilHeader, lookup]

/-- A write for a key leaves the lookups of other keys in its section alone. -/
theorem Edited.lookupIn_key {s id : Bytes} {es es' : List Entry} {value : Option Bytes}
    (edited : Edited s es (some id) value es') (plain : PlainId id) {k : Bytes} (other : k ≠ id)
    : lookupIn es' s (some k) = lookupIn es s (some k) := by
  cases edited with
  | create missing =>
      rw [lookupIn_created missing _ rfl, plain.valueOf_other rfl other, lookupIn_noSection missing]
      rfl
  | ignore missing delete => rfl
  | keep opened missing => rfl
  | @update _ value before header after pre e post opened earlier key =>
      have inside := opened.inside.setValue (some value)
      rw [(opened.exchange inside).lookupIn_eq, opened.lookupIn_eq, lookup_append, lookup_append,
        lookup_cons, lookup_cons, plain.valueOf_other key other,
        plain.valueOf_other (e := { e with value := some value }) key other]
  | @add _ value before header body after opened new =>
      have inside := opened.inside.define id value
      rw [(opened.exchange inside).lookupIn_eq, opened.lookupIn_eq, lookup_append, lookup_cons,
        plain.valueOf_other (e := defineEntry _ _) rfl other]
      simp [lookup]
  | @deleteKey _ before header after pre block e post opened comments key =>
      have inside := opened.inside.remove
      rw [(opened.exchange inside).lookupIn_eq, opened.lookupIn_eq, lookup_append, lookup_append,
        lookup_append, lookup_cons, plain.valueOf_other key other,
        lookup_eq_none fun e member => valueOf_comment (comments e member) k, Option.or_none,
        Option.none_or]

/-- A write for a key changes the search for its section exactly if it creates the section. -/
theorem Edited.lookupIn_section_iff {s id : Bytes} {es es' : List Entry} {value : Option Bytes}
    (edited : Edited s es (some id) value es')
    : lookupIn es' s none = lookupIn es s none ↔ (lookupIn es s none = none → value = none) := by
  have opens {es : List Entry} {before : List Entry} {header : Entry} {body after : List Entry}
      (opened : SectionAt es s before header body after)
      : lookupIn es s none = some none := by
    rw [lookupIn, opened.sectionBody_eq, Option.bind_some]
  cases edited with
  | @create _ value missing =>
      have created : SectionAt (es ++ [⟨some s, none, none, none⟩, defineEntry id value]) s es
          ⟨some s, none, none, none⟩ [defineEntry id value] [] :=
        ⟨rfl, missing, rfl, by simp [NoHeader, defineEntry], by simp [AtHeader]⟩
      simp [opens created, lookupIn_noSection missing]
  | ignore missing delete => simp [delete.resolve_left (by simp)]
  | keep opened missing => simp
  | @update _ value _ _ _ _ _ _ opened earlier key =>
      rw [opens (opened.exchange (opened.inside.setValue (some value))), opens opened]
      simp
  | @add _ value _ _ _ _ opened new =>
      rw [opens (opened.exchange (opened.inside.define id value)), opens opened]
      simp
  | deleteKey opened comments key =>
      rw [opens (opened.exchange opened.inside.remove), opens opened]
      simp

/-- `cfg_write` in a section changes no search but the one for its target: a search for another
section or for another key in the section has the result it had before. The section itself is found
as before, unless the write creates it, and a search without a section that returns before and
after the write has the same result.
-/
theorem cfgWrite_frame (image : Bytes) (nulFree : NulFree image) (c c' : Config)
    (parsed : Parsed image c) (s : Bytes) (id value : Option Bytes) (ret : Int)
    (target : (∃ k, id = some k ∧ PlainId k) ∨ id = none ∧ value = none)
    (written : cfgWrite c (some s) id value = .ok (ret, c'))
    : (∀ s' id', s' ≠ s → findValue c' (some s') id' = findValue c (some s') id')
      ∧ (∀ k k', id = some k → k' ≠ k
        → findValue c' (some s) (some k') = findValue c (some s) (some k'))
      ∧ (∀ k, id = some k
        → (findValue c' (some s) none = findValue c (some s) none
          ↔ (findValue c (some s) none = .ok none → value = none)))
      ∧ ∀ id' found found',
          findValue c none id' = .ok found
          → findValue c' none id' = .ok found'
          → found' = found := by
  have valid : c.valid := (parsed.entries nulFree).1
  obtain ⟨-, valid', -, edited⟩ := cfgWrite_edited valid written
  refine ⟨?_, ?_, ?_, ?_⟩
  · intro s' id' other
    rw [findValue_named valid, findValue_named valid', edited.lookupIn_other other]
  · rintro k k' rfl other
    have plain : PlainId k := by simpa using target
    rw [findValue_named valid, findValue_named valid', edited.lookupIn_key plain other]
  · rintro k rfl
    rw [findValue_named valid, findValue_named valid', Except.ok.injEq, Except.ok.injEq]
    exact edited.lookupIn_section_iff
  · intro id' found found' before after
    cases id' with
    | none => rw [findValue_nothing before, findValue_nothing after]
    | some k' =>
        rw [findValue_null valid] at before
        rw [findValue_null valid'] at after
        rcases edited.lookupFirst_eq k' with same | ⟨fault, failed⟩ | ⟨fault, failed⟩
        · rw [before, after] at same
          exact (Except.ok.inj same).symm
        · rw [before] at failed
          contradiction
        · rw [after] at failed
          contradiction

/-- Witness: a key inserted in front of a section leaves the keys of that section alone. -/
theorem cfgWrite_frame_insert
    : ∃ c',
        cfgWrite (parseOf (text "[a]\n;n\n[b]\nk=1\n")) (some (text "a")) (some (text "q"))
            (some (text "2"))
          = .ok (0, c')
        ∧ findValue c' (some (text "b")) (some (text "k")) = .ok (some (some (text "1"))) := by
  have nulFree : NulFree (text "[a]\n;n\n[b]\nk=1\n") := by decide
  have frame := cfgWrite_frame _ nulFree _ _ (parsed_parseOf nulFree) (text "a") (some (text "q"))
    (some (text "2")) 0 (Or.inl ⟨_, rfl, by decide, by decide⟩) rfl
  exact ⟨_, rfl, (frame.1 (text "b") (some (text "k")) (by decide)).trans rfl⟩

/-- The first write into an empty file lets a search for the section succeed. -/
theorem not_cfgWrite_frame
    : ¬ ∀ (image : Bytes) (c c' : Config) (s k v : Bytes) (ret : Int),
        NulFree image
        → Parsed image c
        → PlainId k
        → cfgWrite c (some s) (some k) (some v) = .ok (ret, c')
        → ∀ s' id', (s', id') ≠ (some s, some k) → findValue c' s' id' = findValue c s' id' := by
  intro frame
  have nulFree : NulFree (text "") := by decide
  have same := frame _ _ _ (text "s") (text "k") (text "v") 0 nulFree (parsed_parseOf nulFree)
    ⟨by decide, by decide⟩ rfl (some (text "s")) none (by decide)
  revert same
  decide

/-- The first entry with a key decides a lookup. -/
theorem lookup_eq_find? (es : List Entry) (k : Bytes)
    : lookup es k = (es.find? (fun e => e.keyOf = some k)).bind CfgEntry.value := by
  induction es with
  | nil => rfl
  | cons e es ih =>
      rw [lookup_cons, List.find?_cons]
      cases header : e.sectionName with
      | some name =>
          simp [CfgEntry.valueOf, CfgEntry.keyOf, CfgEntry.binding, header, ih]
      | none =>
          cases key : e.id with
          | none =>
              simp [valueOf_eq_none (Or.inl key), CfgEntry.keyOf, CfgEntry.binding, header, key, ih]
          | some id =>
              cases shown : e.value with
              | none =>
                  simp [valueOf_eq_none (Or.inr shown), CfgEntry.keyOf, CfgEntry.binding, header,
                    key, shown, ih]
              | some value =>
                  rw [valueOf_define header key shown]
                  by_cases same : removeQuotes id = some k <;>
                    simp [CfgEntry.keyOf, CfgEntry.binding, header, key, shown, same, ih,
                      Option.map_map, Function.comp_def]

/-- An entry with a key has a value. -/
theorem value_of_keyOf {e : Entry} {k : Bytes} (key : e.keyOf = some k) : e.value.isSome := by
  obtain ⟨sectionName, id, value, comment⟩ := e
  cases value with
  | some value => rfl
  | none => cases sectionName <;> cases id <;> simp [CfgEntry.keyOf, CfgEntry.binding] at key

/-- The key of an entry is its id without quotes. -/
theorem id_of_keyOf {e : Entry} {k : Bytes} (key : e.keyOf = some k)
    : ∃ id, e.id = some id ∧ removeQuotes id = some k := by
  obtain ⟨sectionName, id, value, comment⟩ := e
  cases id with
  | none => cases sectionName <;> simp [CfgEntry.keyOf, CfgEntry.binding] at key
  | some id =>
      cases value with
      | none => cases sectionName <;> simp [CfgEntry.keyOf, CfgEntry.binding] at key
      | some value =>
          cases sectionName with
          | some name => simp [CfgEntry.keyOf, CfgEntry.binding] at key
          | none => exact ⟨id, rfl, by simpa [CfgEntry.keyOf, CfgEntry.binding] using key⟩

/-- A value put behind the entries, or in an entry that is the first with its raw id, is found
unless an entry with a different id but the same key comes first.
-/
theorem lookup_written {pre rest : List Entry} {k v : Bytes}
    (earlier : ∀ x ∈ pre, x.id ≠ some k) (e : Entry) (gives : e.valueOf k = some v)
    : lookup (pre ++ e :: rest) k = some v
      ↔ ∀ x, pre.find? (fun e => e.keyOf = some k) = some x → x.id = some k ∨ x.value = some v := by
  rw [lookup_append, lookup_cons, gives, Option.some_or, lookup_eq_find?]
  cases found : pre.find? (fun e => e.keyOf = some k) with
  | none => simp
  | some x =>
      have other : x.id ≠ some k := earlier x (List.mem_of_find?_eq_some found)
      have key : x.keyOf = some k := by simpa using List.find?_some found
      obtain ⟨value, shown⟩ := Option.isSome_iff_exists.mp (value_of_keyOf key)
      simp [shown, other]

/-- After a write of a value, a search for its target delivers it exactly when the first entry
of the section with the key has the very id of the write, or had the value before.
-/
theorem Edited.lookupIn_target {s k v : Bytes} {es es' : List Entry}
    (edited : Edited s es (some k) (some v) es') (plain : PlainId k)
    (valued : ∀ e ∈ es, e.id.isSome → e.value.isSome)
    : lookupIn es' s (some k) = some (some v)
      ↔ ∀ e, firstWithKey es s k = some e → e.id = some k ∨ e.value = some v := by
  cases edited with
  | create missing =>
      have nowhere := sectionBody_append missing []
      rw [List.append_nil] at nowhere
      rw [lookupIn_created missing _ rfl, valueOf_define rfl rfl rfl, plain.removeQuotes_eq]
      simp [firstWithKey, nowhere, sectionBody]
  | ignore missing delete => simp at delete
  | @update _ value before header after pre e post opened earlier key =>
      have inside := opened.inside.setValue (some v)
      have noHeader : e.sectionName = none := opened.inside e (by simp)
      have gives : CfgEntry.valueOf k { e with value := some v } = some v := by
        rw [valueOf_define (e := { e with value := some v }) noHeader key rfl,
          plain.removeQuotes_eq, if_pos rfl]
      have bound : e.keyOf = some k := by
        have valued := valued e (by rw [opened.parts]; simp) (by simp [key])
        obtain ⟨value, shown⟩ := Option.isSome_iff_exists.mp valued
        simp [CfgEntry.keyOf, CfgEntry.binding, noHeader, key, shown, plain.removeQuotes_eq]
      rw [(opened.exchange inside).lookupIn_eq, Option.map_eq_some_iff]
      simp only [Option.some.injEq, exists_eq_right, lookup_written earlier _ gives, firstWithKey,
        opened.sectionBody_eq, Option.bind_some, List.find?_append]
      cases found : pre.find? (fun e => e.keyOf = some k) with
      | none => simp [bound, key]
      | some x => simp
  | @add _ value before header body after opened new =>
      have inside := opened.inside.define k v
      have gives : (defineEntry k v).valueOf k = some v := by
        rw [valueOf_define rfl rfl rfl, plain.removeQuotes_eq, if_pos rfl]
      rw [(opened.exchange inside).lookupIn_eq, Option.map_eq_some_iff]
      simp only [Option.some.injEq, exists_eq_right, lookup_written new _ gives, firstWithKey,
        opened.sectionBody_eq, Option.bind_some]

/-- When no id has quotes, a write of a value changes the value of its target, and no other. -/
theorem Edited.valueIn_eq {s k v : Bytes} {es es' : List Entry}
    (edited : Edited s es (some k) (some v) es')
    (plain : ∀ id, (id = k ∨ ∃ e ∈ es, e.id = some id) → PlainId id)
    (valued : ∀ e ∈ es, e.id.isSome → e.value.isSome) (s' k' : Bytes)
    : valueIn es' s' k' = if (s', k') = (s, k) then some v else valueIn es s' k' := by
  have asValue {o o' : Option Bytes} (same : o.map some = o'.map some) : o = o' :=
    Option.map_injective (fun _ _ => Option.some.inj) same
  split
  next target =>
    obtain ⟨rfl, rfl⟩ := Prod.mk.inj target
    have found := (edited.lookupIn_target (plain k' (Or.inl rfl)) valued).mpr ?_
    · rw [lookupIn_eq_valueIn] at found
      exact asValue found
    intro e first
    left
    obtain ⟨body, opened, first⟩ := Option.bind_eq_some_iff.mp first
    have key : e.keyOf = some k' := by simpa using List.find?_some first
    have member : e ∈ es := (mem_of_sectionBody opened).1 (List.mem_of_find?_eq_some first)
    obtain ⟨id, known, stripped⟩ := id_of_keyOf key
    rw [(plain id (Or.inr ⟨e, member, known⟩)).removeQuotes_eq, Option.some.injEq] at stripped
    rw [known, stripped]
  next other =>
    by_cases here : s' = s
    · subst here
      have same := edited.lookupIn_key (plain k (Or.inl rfl)) (k := k') (by simpa using other)
      rw [lookupIn_eq_valueIn, lookupIn_eq_valueIn] at same
      exact asValue same
    · have same := edited.lookupIn_other here (some k')
      rw [lookupIn_eq_valueIn, lookupIn_eq_valueIn] at same
      exact asValue same

/-- After `cfg_write` has returned 0, `cfg_find` delivers the value written exactly when no
entry of the section whose id only has the key without its quotes comes first, unless that
entry has the same value.
-/
theorem cfgFind_cfgWrite_iff (image : Bytes) (nulFree : NulFree image) (c c' : Config)
    (parsed : Parsed image c) (s k v : Bytes) (plain : PlainId k)
    (written : cfgWrite c (some s) (some k) (some v) = .ok (0, c'))
    : findValue c' (some s) (some k) = .ok (some (some v))
      ↔ ∀ e,
          firstWithKey c.pool.entries s k = some e → e.id = some k ∨ e.value = some v := by
  obtain ⟨valid, -, entries⟩ := parsed.entries nulFree
  obtain ⟨-, valid', -, edited⟩ := cfgWrite_edited valid written
  have valued : ∀ e ∈ c.pool.entries, e.id.isSome → e.value.isSome := by
    rw [entries]
    intro e member
    obtain ⟨line, -, parsed⟩ := List.mem_filterMap.mp member
    exact parseLine_value parsed
  rw [findValue_named valid', Except.ok.injEq]
  exact edited.lookupIn_target plain valued

/-- Witness: a value that is updated is found. -/
theorem cfgFind_cfgWrite_iff_update
    : ∃ c',
        cfgWrite (parseOf (text "[s]\nk=1\n")) (some (text "s")) (some (text "k"))
            (some (text "2"))
          = .ok (0, c')
        ∧ findValue c' (some (text "s")) (some (text "k")) = .ok (some (some (text "2"))) := by
  have nulFree : NulFree (text "[s]\nk=1\n") := by decide
  refine ⟨_, rfl, (cfgFind_cfgWrite_iff _ nulFree _ _ (parsed_parseOf nulFree) _ _ _
    ⟨by decide, by decide⟩ rfl).mpr ?_⟩
  decide

/-- A quoted id hides the entry that `cfg_write` adds for the same key. -/
theorem cfgFind_cfgWrite_quoted
    : ¬ ∀ image c c' s k v,
        NulFree image
        → Parsed image c
        → PlainId k
        → cfgWrite c (some s) (some k) (some v) = .ok (0, c')
        → findValue c' (some s) (some k) = .ok (some (some v)) := by
  intro always
  have nulFree : NulFree (text "[s]\n\"k\"=1\n") := by decide
  have found := always _ _ _ (text "s") (text "k") (text "2") nulFree (parsed_parseOf nulFree)
    ⟨by decide, by decide⟩ rfl
  have other
      : (.ok (some (some (text "1"))) : Checked (Option (Option Bytes)))
        = .ok (some (some (text "2"))) := found
  exact absurd (Option.some.inj (Option.some.inj (Except.ok.inj other))) (by decide)

end Cvos.CfgFile

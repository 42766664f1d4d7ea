import Cvos.CfgFile.FileCycle
import Cvos.CfgFile.PlainText
import Cvos.CfgFile.WriteRoom
import Cvos.Lib.LastWrite

/-! A file that only `Cfg_WriteStr` has written, with names, keys and values of visible
characters: each call reads, parses, changes and prints the whole file, and the file reads like
a map from sections and keys to values, except for values that start like a comment.
-/

namespace Cvos.CfgFile

open Cvos.Lib

/-- One `Cfg_WriteStr` that returns 0, as a step of the file. -/
def writeStep (file : Option FileData) (w : Write) (file' : Option FileData) : Prop :=
  ∃ sys,
    cfgWriteStr sys file (some w.sectionName) (some w.entry) (some w.valptr) = .ok (0, file')

/-- A section name of visible characters that a header can carry. -/
structure PlainName (s : Bytes) : Prop where
  filled : s ≠ []
  visible : Visible s
  closed : ch ']' ∉ s

/-- A key of visible characters that a line can start with. -/
structure PlainKey (k : Bytes) : Prop where
  filled : k ≠ []
  visible : Visible k
  noEquals : ch '=' ∉ k
  first : ∀ c, k.head? = some c → c ≠ ch '[' ∧ c ≠ commentMagic01

/-- The arguments are plain, and the value is not empty. -/
structure PlainWrite (w : Write) : Prop where
  sectionName : PlainName w.sectionName
  entry : PlainKey w.entry
  filled : w.valptr ≠ []
  visible : Visible w.valptr

/-- An entry that plain writes leave in the file. -/
inductive PlainEntry : Entry → Prop
  | header {name : Bytes} {comment : Option Bytes} (plain : PlainName name)
    : PlainEntry ⟨some name, none, none, comment⟩
  | define {id value : Bytes} {comment : Option Bytes} (key : PlainKey id)
    (visible : Visible value)
    : PlainEntry ⟨none, some id, some value, comment⟩

/-- A file that plain writes leave. -/
structure PlainFile (file : Option FileData) : Prop where
  nulFree : NulFree (contentOf file)
  plain : ∀ e ∈ parseImage (contentOf file), PlainEntry e

/-- An entry and what it is read back as. -/
structure ReadAs (e e' : Entry) : Prop where
  sectionName : e'.sectionName = e.sectionName
  id : e'.id = e.id
  value : e'.value = e.value.map asRead

/-- There is room in the array for the key, if it has to be inserted in front of a header. -/
def HasRoom (es : List Entry) (w : Write) : Prop :=
  InsertsBeforeHeader es w.sectionName w.entry
  → es.length + 1 < (Pool.empty.storeAll es).maxEntries

/-- A plain name can be read back. -/
theorem PlainName.readable {s : Bytes} (plain : PlainName s) : ReadableName s where
  filled := plain.filled
  first := fun _ => plain.visible.first
  closed := plain.closed
  trimmed := plain.visible.rtrimText_eq

/-- A plain key can be read back. -/
theorem PlainKey.readable {k : Bytes} (plain : PlainKey k) : ReadableId k where
  first := fun c head => ⟨plain.visible.first head, plain.first c head⟩
  noEquals := plain.noEquals
  trimmed := plain.visible.rtrimText_eq

/-- A plain key is its own key. -/
theorem PlainKey.plainId {k : Bytes} (plain : PlainKey k) : PlainId k :=
  plain.visible.plainId plain.filled

/-- A plain entry is read back with its name and id, and what is read of its value. -/
theorem PlainEntry.reread {e : Entry} (plain : PlainEntry e)
    : ∃ e', CfgFile.reread e = some e' ∧ PlainEntry e' ∧ ReadAs e e' := by
  cases plain with
  | @header name comment plain =>
      obtain ⟨comment', read⟩ := reread_header plain.readable comment
      exact ⟨_, read, .header plain, rfl, rfl, rfl⟩
  | @define id value comment key visible =>
      obtain ⟨comment', read⟩ := reread_visible key.readable visible comment
      exact ⟨_, read, .define key visible.asRead, rfl, rfl, rfl⟩

/-- Plain entries are all read back, one by one. -/
theorem readAs_filterMap_reread {es : List Entry} (plain : ∀ e ∈ es, PlainEntry e)
    : (∀ e ∈ es.filterMap reread, PlainEntry e)
      ∧ List.Forall₂ ReadAs es (es.filterMap reread) := by
  induction es with
  | nil => exact ⟨plain, .nil⟩
  | cons e es ih =>
      obtain ⟨e', read, plain', same⟩ := (plain e List.mem_cons_self).reread
      obtain ⟨others, rest⟩ := ih fun x member => plain x (List.mem_cons_of_mem e member)
      rw [List.filterMap_cons, read]
      exact ⟨List.forall_mem_cons.mpr ⟨plain', others⟩, .cons same rest⟩

/-- An entry that is read back gives what is read of its value. -/
theorem ReadAs.valueOf_eq {e e' : Entry} (same : ReadAs e e') (k : Bytes)
    : e'.valueOf k = (e.valueOf k).map asRead := by
  obtain ⟨sectionName, id, value⟩ := same
  cases key : e.id with
  | none =>
      rw [valueOf_eq_none (Or.inl (id.trans key)), valueOf_eq_none (Or.inl key), Option.map_none]
  | some _ =>
      cases shown : e.value with
      | none =>
          rw [shown] at value
          rw [valueOf_eq_none (Or.inr value), valueOf_eq_none (Or.inr shown), Option.map_none]
      | some _ =>
          cases header : e.sectionName with
          | some _ => simp [CfgEntry.valueOf, CfgEntry.binding, sectionName, header]
          | none =>
              rw [valueOf_define header key shown,
                valueOf_define (sectionName.trans header) (id.trans key)
                  (by rw [value, shown, Option.map_some])]
              split <;> rfl

/-- In entries that are read back, a key has what is read of its value. -/
theorem lookup_untilHeader_readAs {es es' : List Entry} (same : List.Forall₂ ReadAs es es')
    (k : Bytes)
    : lookup (untilHeader es') k = (lookup (untilHeader es) k).map asRead := by
  induction same with
  | nil => rfl
  | @cons e e' es es' first rest ih =>
      rw [untilHeader_cons, untilHeader_cons, CfgEntry.isHeader, CfgEntry.isHeader,
        first.sectionName]
      split
      next => rfl
      next =>
        rw [lookup_cons, lookup_cons, first.valueOf_eq, ih]
        cases e.valueOf k <;> rfl

/-- In a section that is read back, a key has what is read of its value. -/
theorem valueIn_readAs {es es' : List Entry} (same : List.Forall₂ ReadAs es es') (s k : Bytes)
    : valueIn es' s k = (valueIn es s k).map asRead := by
  induction same with
  | nil => rfl
  | @cons e e' es es' first rest ih =>
      rw [valueIn, valueIn, sectionBody, sectionBody, first.sectionName]
      split
      next => exact lookup_untilHeader_readAs rest k
      next => exact ih

/-- The value of a key is the value of an entry. -/
theorem mem_of_valueIn {es : List Entry} {s k v : Bytes} (found : valueIn es s k = some v)
    : ∃ e ∈ es, e.value = some v := by
  obtain ⟨body, opened, found⟩ := Option.bind_eq_some_iff.mp found
  obtain ⟨e, member, gives⟩ := List.exists_of_findSome?_eq_some found
  exact ⟨e, (mem_of_sectionBody opened).1 member, value_of_valueOf gives⟩

/-- A value that was parsed does not start like a comment. -/
theorem Readable.startsComment_eq {e : Entry} (readable : Readable e) {v : Bytes}
    (shown : e.value = some v)
    : startsComment v = false := by
  have plain {value : Bytes} {comment : Option Bytes} (readable : ReadableValue value comment)
      (same : some value = some v)
      : startsComment v = false := by
    obtain rfl := Option.some.inj same
    cases value with
    | nil => rfl
    | cons c rest => exact readable.first_no_comment rfl
  cases readable with
  | header | comment => contradiction
  | define _ readable => exact plain readable shown
  | continued readable _ => exact plain readable shown

/-- What was parsed is read as it is. -/
theorem valueIn_asRead (image s k : Bytes)
    : (valueIn (parseImage image) s k).map asRead = valueIn (parseImage image) s k := by
  cases found : valueIn (parseImage image) s k with
  | none => rfl
  | some v =>
      obtain ⟨e, member, shown⟩ := mem_of_valueIn found
      have plain := (readable_of_parseImage member).1.startsComment_eq shown
      rw [Option.map_some, asRead_eq_self.mpr plain]

section Steps

variable {file file' : Option FileData} {w : Write}

/-- The entries of a plain file are plain after a plain write, and lie in one line each. -/
theorem PlainFile.edited (plain : PlainFile file) (args : PlainWrite w) {es : List Entry}
    (edited
      : Edited w.sectionName (parseImage (contentOf file)) (some w.entry) (some w.valptr) es)
    : ∀ e ∈ es, PlainEntry e ∧ EntryOneLine e := by
  have none (s : Bytes) (found : (none : Option Bytes) = some s) : OneLine s := by contradiction
  refine edited.forall_entries
    (fun e member => ⟨plain.plain e member, (readable_of_parseImage member).2⟩)
    ⟨.header args.sectionName, ?_, none, none, none⟩
    ⟨.define args.entry args.visible, none, ?_, ?_, none⟩ ?_
  · rintro s ⟨⟩
    exact args.sectionName.visible.oneLine
  · rintro s ⟨⟩
    exact args.entry.visible.oneLine
  · rintro s ⟨⟩
    exact args.visible.oneLine
  · rintro e ⟨plain, oneLine⟩ key
    cases plain with
    | header => contradiction
    | define known visible =>
        refine ⟨.define known args.visible, { oneLine with value := ?_ }⟩
        rintro s ⟨⟩
        exact args.visible.oneLine

/-- The id of a plain entry is a plain key. -/
theorem PlainEntry.plainId {e : Entry} (plain : PlainEntry e) {id : Bytes} (key : e.id = some id)
    : PlainId id := by
  cases plain with
  | header => contradiction
  | define known visible => exact Option.some.inj key ▸ known.plainId

/-- A plain write leaves a plain file, in which its target has what is read of the value, and
every other key what it had before.
-/
theorem PlainFile.write (plain : PlainFile file) (args : PlainWrite w)
    (taken : writeStep file w file')
    : PlainFile file'
      ∧ ∀ target : Bytes × Bytes,
          valueIn (parseImage (contentOf file')) target.1 target.2
          = if target = w.target then some (asRead w.valptr)
            else valueIn (parseImage (contentOf file)) target.1 target.2 := by
  obtain ⟨sys, returned⟩ := taken
  obtain ⟨es, edited, content⟩ := (rewritten_of_cfgWriteStr returned).edited
  have both := plain.edited args edited
  have oneLine := fun e member => (both e member).2
  have reparsed : parseImage (contentOf file') = es.filterMap reread := by
    rw [content, parseImage_outputFrom false oneLine]
  obtain ⟨plain', same⟩ := readAs_filterMap_reread fun e member => (both e member).1
  constructor
  · exact ⟨content ▸ nulFree_outputFrom false oneLine, reparsed ▸ plain'⟩
  · intro target
    have ids
        : ∀ id,
            (id = w.entry ∨ ∃ e ∈ parseImage (contentOf file), e.id = some id)
            → PlainId id := by
      rintro id (rfl | ⟨e, member, key⟩)
      · exact args.entry.plainId
      · exact (plain.plain e member).plainId key
    have valued : ∀ e ∈ parseImage (contentOf file), e.id.isSome → e.value.isSome := by
      intro e member
      obtain ⟨line, -, parsed⟩ := List.mem_filterMap.mp member
      exact parseLine_value parsed
    rw [reparsed, valueIn_readAs same, edited.valueIn_eq ids valued]
    split
    next here => rw [if_pos (by exact here), Option.map_some]
    next other => rw [if_neg (by exact other), valueIn_asRead]

end Steps

/-- The empty file is plain. -/
theorem plainFile_none : PlainFile none where
  nulFree := by simp [NulFree, contentOf]
  plain := by simp [parseImage, contentOf, imageLines, linesFrom, nonempty]

/-- After plain writes the file is plain, and each key has what is read of its last value. -/
theorem valueIn_of_run {trace : List (Option FileData × Write)} {file : Option FileData}
    (run : Lib.Run writeStep none trace file) (plain : ∀ taken ∈ trace, PlainWrite taken.2)
    : PlainFile file
      ∧ ∀ target : Bytes × Bytes,
          valueIn (parseImage (contentOf file)) target.1 target.2
          = (lastWrite Write.target Write.valptr trace target).map asRead := by
  refine run.read_eq_lastWrite Write.target Write.valptr
    (fun file target => valueIn (parseImage (contentOf file)) target.1 target.2) asRead PlainFile
    plainFile_none (fun target => rfl) ?_
  intro current w next member taken holds
  obtain ⟨holds', values⟩ := holds.write (plain _ member) taken
  exact ⟨holds', by rw [values, if_pos rfl], fun target other => by rw [values, if_neg other]⟩

/-- When no system call fails, `Cfg_ReadStr` delivers the value of the key, or the default. -/
theorem cfgReadStr_delivers {file : Option FileData} (nulFree : NulFree (contentOf file))
    (time : Nat) (s k defval : Bytes)
    : ∃ ret,
        cfgReadStr (.succeed time) file (some s) (some k) defval
        = .ok (ret, (valueIn (parseImage (contentOf file)) s k).getD defval) := by
  cases file with
  | none => exact ⟨-2, cfgReadStr_absent ..⟩
  | some f => exact ⟨0, cfgReadStr_eq nulFree ..⟩

/-- When no system call fails, `Cfg_WriteStr` returns 0 exactly when there is room. -/
theorem cfgWriteStr_returns_iff {file : Option FileData} (nulFree : NulFree (contentOf file))
    (w : Write) (time : Nat)
    : (∃ file',
        cfgWriteStr (.succeed time) file (some w.sectionName) (some w.entry) (some w.valptr)
        = .ok (0, file'))
      ↔ HasRoom (parseImage (contentOf file)) w := by
  obtain ⟨c, parsed, faults, returns⟩ :=
    setStr_succeed nulFree time (some w.sectionName) (some w.entry) (some w.valptr)
  obtain ⟨valid, -, pool⟩ := parsed.pool nulFree
  have room := cfgWrite_returns_iff valid w.sectionName w.entry w.valptr
  rw [(parsed.entries nulFree).2.2, pool] at room
  rw [HasRoom, ← room]
  constructor
  · rintro ⟨file', returned⟩
    cases written : cfgWrite c (some w.sectionName) (some w.entry) (some w.valptr) with
    | error fault =>
        rw [cfgWriteStr, faults fault written] at returned
        contradiction
    | ok result => exact ⟨result, rfl⟩
  · rintro ⟨⟨ret, c'⟩, written⟩
    obtain ⟨-, valid', dirty, -⟩ := cfgWrite_edited valid written
    exact ⟨_, returns ret c' written valid' (dirty rfl rfl)⟩

/-- A file that plain writes have left reads like a map: `Cfg_ReadStr` delivers the last value
written to a key, or the default, exactly when that value does not start like a comment. A
further write returns 0 exactly when there is room.
-/
theorem cfgReadStr_run_iff (trace : List (Option FileData × Write)) (file : Option FileData)
    (run : Lib.Run writeStep none trace file) (plain : ∀ taken ∈ trace, PlainWrite taken.2)
    : (∀ s k defval time,
        (∃ ret,
          cfgReadStr (.succeed time) file (some s) (some k) defval
          = .ok (ret, (lastWrite Write.target Write.valptr trace (s, k)).getD defval))
        ↔ ∀ v,
            lastWrite Write.target Write.valptr trace (s, k) = some v
            → startsComment v = false)
      ∧ ∀ (w : Write) time,
          (∃ file',
            cfgWriteStr (.succeed time) file (some w.sectionName) (some w.entry) (some w.valptr)
            = .ok (0, file'))
          ↔ HasRoom (parseImage (contentOf file)) w := by
  obtain ⟨plain, values⟩ := valueIn_of_run run plain
  refine ⟨?_, cfgWriteStr_returns_iff plain.nulFree⟩
  intro s k defval time
  obtain ⟨ret, delivered⟩ := cfgReadStr_delivers plain.nulFree time s k defval
  rw [values (s, k)] at delivered
  rw [delivered]
  cases last : lastWrite Write.target Write.valptr trace (s, k) with
  | none => simp
  | some v => simp [asRead_eq_self]

/-- Witness: the second value written to a key is read. -/
theorem cfgReadStr_run_iff_overwrite
    : ∃ trace file,
        Lib.Run writeStep none trace file
        ∧ ∃ ret,
            cfgReadStr (.succeed 0) file (some (text "s")) (some (text "k")) (text "d")
            = .ok (ret, text "2") := by
  have first : writeStep none ⟨text "s", text "k", text "1"⟩ (some ⟨text "[s]\nk=1\n", 0⟩) :=
    ⟨.succeed 0, rfl⟩
  have second
      : writeStep (some ⟨text "[s]\nk=1\n", 0⟩) ⟨text "s", text "k", text "2"⟩
          (some ⟨text "[s]\nk=2\n", 0⟩) :=
    ⟨.succeed 0, rfl⟩
  have run := (Lib.Run.start.extend first).extend second
  have name : PlainName (text "s") := ⟨by decide, by decide, by decide⟩
  have key : PlainKey (text "k") := ⟨by decide, by decide, by decide, by rintro c ⟨⟩; decide⟩
  have reads := (cfgReadStr_run_iff _ _ run (by
    simpa using
      And.intro
        (PlainWrite.mk (w := ⟨text "s", text "k", text "1"⟩) name key (by decide) (by decide))
        (PlainWrite.mk (w := ⟨text "s", text "k", text "2"⟩) name key (by decide) (by decide)))).1
  refine ⟨_, _, run, (reads (text "s") (text "k") (text "d") 0).mpr ?_⟩
  rintro v ⟨⟩
  rfl

/-- A value that starts like a comment is read as nothing. -/
theorem cfgReadStr_run_comment
    : ¬ ∀ trace file,
        Lib.Run writeStep none trace file
        → (∀ taken ∈ trace, PlainWrite taken.2)
        → ∀ s k defval time,
            ∃ ret,
              cfgReadStr (.succeed time) file (some s) (some k) defval
              = .ok (ret, (lastWrite Write.target Write.valptr trace (s, k)).getD defval) := by
  intro always
  have written
      : writeStep none ⟨text "s", text "k", text ";x"⟩ (some ⟨text "[s]\nk=;x\n", 0⟩) :=
    ⟨.succeed 0, rfl⟩
  have name : PlainName (text "s") := ⟨by decide, by decide, by decide⟩
  have key : PlainKey (text "k") := ⟨by decide, by decide, by decide, by rintro c ⟨⟩; decide⟩
  obtain ⟨ret, delivered⟩ := always _ _ (Lib.Run.start.extend written) (by
    simpa using
      PlainWrite.mk (w := ⟨text "s", text "k", text ";x"⟩) name key (by decide) (by decide))
    (text "s") (text "k") (text "d") 0
  have other
      : (.ok (0, []) : Checked (Int × Bytes)) = .ok (ret, text ";x") := delivered
  exact absurd (Prod.mk.inj (Except.ok.inj other)).2 (by decide)

end Cvos.CfgFile

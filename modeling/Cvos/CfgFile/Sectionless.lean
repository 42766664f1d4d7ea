import Cvos.CfgFile.FileCycle
import Cvos.CfgFile.OutputMeaning
import Cvos.CfgFile.PlainText

/-! Keys without a section: `ini_setstr` changes the first entry whose id is the key, wherever
it stands, while `ini_getstr` only looks behind the first visible entry and up to the next
header.
-/

namespace Cvos.CfgFile

open Cvos.Lib

/-- A letter or digit. -/
def isAlnum (c : UInt8) : Bool :=
  (ch '0' ≤ c && c ≤ ch '9') || (ch 'A' ≤ c && c ≤ ch 'Z') || (ch 'a' ≤ c && c ≤ ch 'z')

/-- A text of letters and digits, and not empty. -/
structure Alnum (t : Bytes) : Prop where
  filled : t ≠ []
  letters : ∀ c ∈ t, isAlnum c

/-- The entries with the value changed in the first one that has the key as its id. -/
def updateFirst (k v : Bytes) : List Entry → List Entry
  | [] => []
  | e :: rest =>
      if e.id = some k then { e with value := some v } :: rest else e :: updateFirst k v rest

/-- The value that the entry gives the key when it has been printed. -/
def CfgEntry.printedValue (k : Bytes) (e : Entry) : Option Bytes :=
  ((e.valueOf k).map trimBlank).or (e.unindentedValue k)

/-- The entry is shown by the cursor when it has been printed; a continuation is when there is
a `=` in its line.
-/
def CfgEntry.printedVisible (e : Entry) : Bool :=
  match e.sectionName, e.id, e.value with
  | some _, _, _ => true
  | none, some _, some _ => true
  | none, none, some value => value ≠ [] && ch '=' ∈ value ++ printComment e.comment
  | none, _, none => false

/-- The entries begin with some that are not visible when printed, and then one that is. -/
structure FirstVisible (es pre : List Entry) (first : Entry) (rest : List Entry) : Prop where
  parts : es = pre ++ first :: rest
  hidden : ∀ e ∈ pre, e.printedVisible = false
  visible : first.printedVisible

/-- The entries let a key be found again that was set to the value: no entry has the key as its
id, and then it cannot be set; or the first that has it is the first visible one, and the key
gets the same value behind it, before the next header; or it stands behind a first visible entry
that is no header, and neither a header nor another value for the key stands in between; or a
header stands in between, and the key gets the same value before it.
-/
inductive FoundAgain (k v : Bytes) (es : List Entry) : Prop
  | missing (missing : ∀ e ∈ es, e.id ≠ some k)
  | first {pre target post} (begins : FirstVisible es pre target post) (key : target.id = some k)
    (repeated : (untilHeader post).findSome? (CfgEntry.printedValue k) = some v)
  | behind {pre first between target post}
    (begins : FirstVisible es pre first (between ++ target :: post))
    (inside : NoHeader (first :: between)) (earlier : ∀ e ∈ first :: between, e.id ≠ some k)
    (key : target.id = some k)
    (unset : ∀ w, between.findSome? (CfgEntry.printedValue k) = some w → w = v)
  | closed {pre first between header rest}
    (begins : FirstVisible es pre first (between ++ header :: rest))
    (inside : NoHeader (first :: between)) (earlier : ∀ e ∈ first :: between, e.id ≠ some k)
    (closes : header.sectionName.isSome)
    (repeated : between.findSome? (CfgEntry.printedValue k) = some v)

/-- A letter or digit is visible, and starts no comment. -/
theorem isAlnum_visible {c : UInt8} (letter : isAlnum c)
    : (isSpace c = false ∧ isEolChar c = false ∧ isQuote c = false) ∧ isComment c = false := by
  have all
      : ∀ n : Fin 256,
          isAlnum (UInt8.ofFin n)
          → (isSpace (UInt8.ofFin n) = false ∧ isEolChar (UInt8.ofFin n) = false
              ∧ isQuote (UInt8.ofFin n) = false)
            ∧ isComment (UInt8.ofFin n) = false := by
    decide +kernel
  exact all c.toFin letter

/-- A text of letters and digits is visible. -/
theorem Alnum.visible {t : Bytes} (alnum : Alnum t) : Visible t :=
  fun c member => (isAlnum_visible (alnum.letters c member)).1

/-- A text of letters and digits does not start like a comment. -/
theorem Alnum.startsComment_eq {t : Bytes} (alnum : Alnum t) : startsComment t = false := by
  obtain ⟨c, rest, rfl⟩ := List.exists_cons_of_ne_nil alnum.filled
  exact (isAlnum_visible (alnum.letters c List.mem_cons_self)).2

/-- Trimming keeps what is no blank. -/
theorem mem_trimBlank {s : Bytes} {c : UInt8} (filled : isWhite c = false)
    : c ∈ trimBlank s ↔ c ∈ s := by
  constructor
  · exact fun member => trimBlank_subset s member
  · intro member
    have parts : trimBlank s ++ s.rtakeWhile isWhite = s := List.rdropWhile_append_rtakeWhile ..
    rw [← parts, List.mem_append] at member
    rcases member with kept | cut
    · exact kept
    · have blank : isWhite c = true := List.mem_rtakeWhile_imp cut
      rw [filled] at blank
      contradiction

/-- A line with a key is one with a `=`. -/
theorem parseDefine_visible (line : Bytes)
    : ((parseDefine line).map CfgEntry.visible).getD false = decide (ch '=' ∈ line) := by
  cases split : splitAtChar (ch '=') line with
  | none =>
      have absent := splitAtChar_eq_none.mp split
      simp [parseDefine, split, absent]
  | some parts =>
      obtain ⟨id, rest⟩ := parts
      obtain ⟨rfl, -⟩ := splitAtChar_eq_some.mp split
      simp [parseDefine, split, CfgEntry.visible]

/-- An entry is visible after printing exactly when it is read back as one that is. -/
theorem printedVisible_eq {e : Entry} (readable : Readable e) (oneLine : EntryOneLine e)
    : ((reread e).map CfgEntry.visible).getD false = e.printedVisible := by
  cases readable with
  | @header name comment readable =>
      obtain ⟨comment', read⟩ := reread_header readable comment
      rw [read]
      rfl
  | @define id value comment key readable =>
      obtain ⟨comment', read⟩ := reread_define key readable (oneLine.value _ rfl)
      rw [read]
      rfl
  | comment =>
      rw [reread_comment]
      rfl
  | @continued value comment readable first =>
      cases value with
      | nil =>
          rw [reread_emptyValue]
          cases comment <;> rfl
      | cons c value =>
          rw [reread_unindented readable first, parseDefine_visible]
          simp only [mem_trimBlank (c := ch '=') rfl, CfgEntry.printedVisible]
          simp

/-- A value that entries give after printing is one they give when read again. -/
theorem findSome?_rereadValue {body : List Entry}
    (readable : ∀ e ∈ body, Readable e ∧ EntryOneLine e) (inside : NoHeader body) (k : Bytes)
    : body.findSome? (rereadValue k) = body.findSome? (CfgEntry.printedValue k) := by
  induction body with
  | nil => rfl
  | cons e body ih =>
      obtain ⟨readable', oneLine⟩ := readable e List.mem_cons_self
      rw [List.findSome?_cons, List.findSome?_cons,
        rereadValue_eq readable' oneLine (inside e List.mem_cons_self),
        ih (fun x member => readable x (List.mem_cons_of_mem e member))
          fun x member => inside x (List.mem_cons_of_mem e member)]
      rfl

/-- The entries up to the next header hold none. -/
theorem noHeader_untilHeader (es : List Entry) : NoHeader (untilHeader es) := by
  intro e member
  simpa [CfgEntry.isHeader] using List.mem_takeWhile_imp member

/-- The entries up to the next header are some of the entries. -/
theorem untilHeader_subset (es : List Entry) : untilHeader es ⊆ es :=
  (List.takeWhile_sublist _).subset

/-- A search without a section in the printed entries looks behind their first visible one. -/
theorem lookupFirst_printed {es pre rest : List Entry} {first : Entry}
    (readable : ∀ e ∈ es, Readable e ∧ EntryOneLine e) (begins : FirstVisible es pre first rest)
    (k : Bytes)
    : lookupFirst (es.filterMap reread) k
      = if first.isHeader then .error .nullPointer
        else .ok (((untilHeader rest).findSome? (CfgEntry.printedValue k)).map some) := by
  obtain ⟨rfl, hidden, visible⟩ := begins
  have behind : ∀ e ∈ rest, Readable e ∧ EntryOneLine e :=
    fun e member => readable e (by simp [member])
  have gone : ∀ e ∈ pre.filterMap reread, (!e.visible) = true := by
    intro e member
    obtain ⟨x, earlier, read⟩ := List.mem_filterMap.mp member
    obtain ⟨readable, oneLine⟩ := readable x (by simp [earlier])
    have same := printedVisible_eq readable oneLine
    rw [hidden x earlier, read, Option.map_some, Option.getD_some] at same
    rw [same]
    rfl
  obtain ⟨readable', oneLine⟩ := readable first (by simp)
  have same := printedVisible_eq readable' oneLine
  have name := reread_sectionName readable' oneLine
  cases read : reread first with
  | none =>
      rw [read, visible] at same
      contradiction
  | some e =>
      rw [read, Option.map_some, Option.getD_some, visible] at same
      rw [read, Option.bind_some] at name
      have header : e.isHeader = first.isHeader := by
        rw [CfgEntry.isHeader, name, CfgEntry.isHeader]
      rw [lookupFirst, List.filterMap_append, List.dropWhile_append_of_pos gone,
        List.filterMap_cons, read]
      simp only [List.dropWhile_cons, same, Bool.not_true, Bool.false_eq_true, if_false, header]
      rw [untilHeader_filterMap_reread behind, lookup_filterMap_reread,
        findSome?_rereadValue (fun x member => behind x (untilHeader_subset rest member))
          (noHeader_untilHeader rest)]

/-- Entries that do not have the key are left alone. -/
theorem updateFirst_append {k : Bytes} {pre : List Entry} (earlier : ∀ e ∈ pre, e.id ≠ some k)
    (v : Bytes) (rest : List Entry)
    : updateFirst k v (pre ++ rest) = pre ++ updateFirst k v rest := by
  induction pre with
  | nil => rfl
  | cons e pre ih =>
      rw [List.cons_append, updateFirst, if_neg (earlier e List.mem_cons_self),
        ih fun x member => earlier x (List.mem_cons_of_mem e member), List.cons_append]

/-- The first entry with the key is changed. -/
theorem updateFirst_target {k : Bytes} {pre : List Entry} (earlier : ∀ e ∈ pre, e.id ≠ some k)
    {target : Entry} (key : target.id = some k) (v : Bytes) (post : List Entry)
    : updateFirst k v (pre ++ target :: post)
      = pre ++ { target with value := some v } :: post := by
  rw [updateFirst_append earlier, updateFirst, if_pos key]

/-- The search for a key without a section runs to the end or stops at the first entry with it.
-/
theorem anyKeyFrom_eq (k : Bytes) (e : Nat) (rest : List Entry)
    : ((∀ x ∈ rest, x.id ≠ some k)
        ∧ anyKeyFrom (some k) rest.length e rest = .ok (none, -1))
      ∨ ∃ pre target post i,
          rest = pre ++ target :: post
          ∧ (∀ x ∈ pre, x.id ≠ some k)
          ∧ target.id = some k
          ∧ anyKeyFrom (some k) rest.length e rest = .ok (some (e + pre.length), i) := by
  induction rest generalizing e with
  | nil => exact Or.inl ⟨by simp, by simp [anyKeyFrom]⟩
  | cons entry rest ih =>
      have step
          : anyKeyFrom (some k) (entry :: rest).length e (entry :: rest)
            = if entry.id = some k then .ok (some e, (rest.length : Int))
              else anyKeyFrom (some k) rest.length (e + 1) rest := by
        rw [anyKeyFrom_cons]
        cases key : entry.id <;> simp [strcmpEq]
      rw [step]
      by_cases key : entry.id = some k
      · right
        exact ⟨[], entry, rest, _, rfl, by simp, key, by rw [if_pos key]; rfl⟩
      · rw [if_neg key]
        rcases ih (e + 1) with ⟨none, result⟩ | ⟨pre, target, post, i, rfl, earlier, same, result⟩
        · left
          exact ⟨List.forall_mem_cons.mpr ⟨key, none⟩, result⟩
        · right
          refine ⟨entry :: pre, target, post, i, rfl, List.forall_mem_cons.mpr ⟨key, earlier⟩, same,
            ?_⟩
          rw [result, List.length_cons, Nat.add_right_comm, Nat.add_assoc]

/-- Without a section, `cfg_write` runs past the entries when none of them has the key. -/
theorem cfgWrite_missing {c : Config} (valid : c.valid) {k : Bytes}
    (missing : ∀ e ∈ c.pool.entries, e.id ≠ some k) (value : Option Bytes)
    : cfgWrite c none (some k) value = .error .outOfBounds := by
  rcases anyKeyFrom_eq k 0 c.pool.entries with
    ⟨-, result⟩ | ⟨pre, target, post, i, parts, -, key, -⟩
  · simp [cfgWrite, valid, result, sectionFrom]
  · exact absurd key (missing target (by simp [parts]))

/-- Without a section, `cfg_write` changes the first entry that has the key. -/
theorem cfgWrite_present {c : Config} (valid : c.valid) {k : Bytes}
    (present : ∃ e ∈ c.pool.entries, e.id = some k) (v : Bytes)
    : ∃ c',
        cfgWrite c none (some k) (some v) = .ok (0, c')
        ∧ c'.valid
        ∧ c'.dirty
        ∧ c'.pool.entries = updateFirst k v c.pool.entries := by
  rcases anyKeyFrom_eq k 0 c.pool.entries with
    ⟨missing, -⟩ | ⟨pre, target, post, i, parts, earlier, key, result⟩
  · obtain ⟨e, member, key⟩ := present
    exact absurd key (missing e member)
  · refine ⟨c.edited (c.pool.setValue pre.length v), ?_, valid, rfl, ?_⟩
    · simp [cfgWrite, valid, result, updateEntry]
    · rw [parts, updateFirst_target earlier key, Config.edited, setValue_entries parts]

/-- An entry that is not visible when printed has no id. -/
theorem id_of_hidden {e : Entry} (readable : Readable e) (hidden : e.printedVisible = false)
    : e.id = none := by
  cases readable with
  | header | comment | continued => rfl
  | define => contradiction

/-- A header has no id. -/
theorem id_of_header {e : Entry} (readable : Readable e) (header : e.sectionName.isSome)
    : e.id = none := by
  cases readable with
  | header => rfl
  | comment | continued | define => contradiction

section Target

variable {target : Entry} {k : Bytes} (readable : Readable target) (key : target.id = some k)

include readable key in
/-- An entry with a key is no header, and can be read back with another value. -/
theorem readable_target
    : target.sectionName = none
      ∧ target.printedVisible
      ∧ ∀ {v : Bytes},
          Visible v
          → startsComment v = false
          → Readable { target with value := some v } := by
  cases readable with
  | header | comment | continued => contradiction
  | define named readable =>
      exact ⟨rfl, rfl, fun visible first => .define named (visible.readableValue first _)⟩

include readable key in
/-- An entry with a plain key gives it the value that it is changed to. -/
theorem printedValue_target (plain : PlainId k) {v : Bytes} (visible : Visible v)
    : CfgEntry.printedValue k { target with value := some v } = some v := by
  obtain ⟨noHeader, -⟩ := readable_target readable key
  rw [CfgEntry.printedValue,
    valueOf_define (e := { target with value := some v }) noHeader key rfl, plain.removeQuotes_eq,
    if_pos rfl, Option.map_some, visible.trimBlank_eq, Option.some_or]

end Target

/-- Some entries are all invisible when printed, or begin with some that are and one that is
not.
-/
theorem exists_firstVisible (es : List Entry)
    : (∀ e ∈ es, e.printedVisible = false) ∨ ∃ pre first rest, FirstVisible es pre first rest := by
  cases found : es.find? CfgEntry.printedVisible with
  | none =>
      left
      intro e member
      simpa using List.find?_eq_none.mp found e member
  | some first =>
      right
      obtain ⟨visible, pre, rest, parts, hidden⟩ := List.find?_eq_some_iff_append.mp found
      exact ⟨pre, first, rest, parts, fun e member => by simpa using hidden e member, visible⟩

/-- Some entries hold no header, or begin with some that are none and one that is. -/
theorem exists_firstHeader (es : List Entry)
    : NoHeader es
      ∨ ∃ inner header rest,
          es = inner ++ header :: rest ∧ NoHeader inner ∧ header.sectionName.isSome := by
  obtain ⟨inner, after, rfl, inside, closed⟩ := exists_section_end es
  cases after with
  | nil => exact Or.inl (by simpa using inside)
  | cons header rest => exact Or.inr ⟨inner, header, rest, rfl, inside, closed header rfl⟩

section Update

variable {es : List Entry} {k v : Bytes} (readable : ∀ e ∈ es, Readable e ∧ EntryOneLine e)
  (plain : PlainId k) (visible : Visible v) (text : startsComment v = false)

include readable visible text in
/-- Entries with a changed value can be read back. -/
theorem readable_updateFirst : ∀ e ∈ updateFirst k v es, Readable e ∧ EntryOneLine e := by
  induction es with
  | nil => exact readable
  | cons e es ih =>
      obtain ⟨readable', oneLine⟩ := readable e List.mem_cons_self
      have others : ∀ x ∈ es, Readable x ∧ EntryOneLine x :=
        fun x member => readable x (List.mem_cons_of_mem e member)
      rw [updateFirst]
      split
      next key =>
        obtain ⟨-, -, changed⟩ := readable_target readable' key
        refine List.forall_mem_cons.mpr ⟨⟨changed visible text, ?_⟩, others⟩
        exact { oneLine with value := by rintro s ⟨⟩; exact visible.oneLine }
      next => exact List.forall_mem_cons.mpr ⟨⟨readable', oneLine⟩, ih others⟩

include readable visible text in
/-- A search without a section behind the first visible entry finds the value that stands first
before the next header.
-/
theorem lookupFirst_updateFirst {pre rest : List Entry} {first : Entry}
    (begins : FirstVisible (updateFirst k v es) pre first rest)
    : lookupFirst ((updateFirst k v es).filterMap reread) k = .ok (some (some v))
      ↔ first.sectionName = none
        ∧ (untilHeader rest).findSome? (CfgEntry.printedValue k) = some v := by
  rw [lookupFirst_printed (readable_updateFirst readable visible text) begins, CfgEntry.isHeader]
  generalize (untilHeader rest).findSome? (CfgEntry.printedValue k) = value
  cases first.sectionName <;> simp

include readable visible text in
/-- When a key is found again after it was set, the entries let it be. -/
theorem FoundAgain.of_lookupFirst (present : ∃ e ∈ es, e.id = some k)
    (found : lookupFirst ((updateFirst k v es).filterMap reread) k = .ok (some (some v)))
    : FoundAgain k v es := by
  obtain ⟨target, selected⟩ : ∃ target, es.find? (fun e => e.id = some k) = some target := by
    obtain ⟨e, member, key⟩ := present
    exact Option.isSome_iff_exists.mp (List.find?_isSome.mpr ⟨e, member, by simpa using key⟩)
  obtain ⟨key, pre, post, rfl, earlier⟩ := List.find?_eq_some_iff_append.mp selected
  have key : target.id = some k := by simpa using key
  have earlier : ∀ e ∈ pre, e.id ≠ some k := fun e member => by simpa using earlier e member
  have search {front rest : List Entry} {first : Entry}
      (begins : FirstVisible (updateFirst k v _) front first rest) :=
    lookupFirst_updateFirst readable visible text begins
  obtain ⟨readable, -⟩ := readable target (by simp)
  obtain ⟨noHeader, shown, changed⟩ := readable_target readable key
  obtain ⟨-, shown', -⟩ := readable_target (changed visible text) key
  rcases exists_firstVisible pre with hidden | ⟨pre, first, between, rfl, hidden, shown⟩
  · have begins
        : FirstVisible (updateFirst k v (pre ++ target :: post)) pre
            { target with value := some v } post :=
      ⟨updateFirst_target earlier key v post, hidden, shown'⟩
    exact .first ⟨rfl, hidden, shown⟩ key ((search begins).mp found).2
  · have begins
        : FirstVisible (updateFirst k v (pre ++ first :: between ++ target :: post)) pre first
            (between ++ { target with value := some v } :: post) :=
      ⟨by rw [updateFirst_target earlier key, List.append_assoc, List.cons_append], hidden, shown⟩
    obtain ⟨top, value⟩ := (search begins).mp found
    have earlier : ∀ e ∈ first :: between, e.id ≠ some k :=
      fun e member => earlier e (List.mem_append_right pre member)
    rcases exists_firstHeader between with inside | ⟨inner, header, rest, rfl, inside, closes⟩
    · have begins
          : FirstVisible (pre ++ first :: between ++ target :: post) pre first
              (between ++ target :: post) := ⟨by simp, hidden, shown⟩
      refine .behind begins (List.forall_mem_cons.mpr ⟨top, inside⟩) earlier key ?_
      intro w gives
      rw [untilHeader_append inside, List.findSome?_append, gives, Option.some_or] at value
      exact Option.some.inj value
    · have begins
          : FirstVisible (pre ++ first :: (inner ++ header :: rest) ++ target :: post) pre first
              (inner ++ header :: (rest ++ target :: post)) := ⟨by simp, hidden, shown⟩
      refine .closed begins (List.forall_mem_cons.mpr ⟨top, inside⟩) ?_ closes ?_
      · intro e member
        exact earlier e (List.cons_subset_cons first (List.subset_append_left ..) member)
      · rw [List.append_assoc, List.cons_append, untilHeader_append inside, untilHeader_cons,
          if_pos (by exact closes), List.append_nil] at value
        exact value

include readable plain visible text in
/-- When the entries let a key that was set be found again, it is. -/
theorem FoundAgain.lookupFirst_eq (present : ∃ e ∈ es, e.id = some k) (again : FoundAgain k v es)
    : lookupFirst ((updateFirst k v es).filterMap reread) k = .ok (some (some v)) := by
  have search {front rest : List Entry} {first : Entry}
      (begins : FirstVisible (updateFirst k v _) front first rest) :=
    lookupFirst_updateFirst readable visible text begins
  have unkeyed {pre : List Entry} (front : pre ⊆ es) (hidden : ∀ e ∈ pre, e.printedVisible = false)
      : ∀ e ∈ pre, e.id ≠ some k := by
    intro e member
    rw [id_of_hidden (readable e (front member)).1 (hidden e member)]
    exact Option.some_ne_none k ∘ Eq.symm
  cases again with
  | missing missing =>
      obtain ⟨e, member, key⟩ := present
      exact absurd key (missing e member)
  | @first pre target post begins key repeated =>
      obtain ⟨rfl, hidden, -⟩ := begins
      have earlier := unkeyed (List.subset_append_left ..) hidden
      obtain ⟨readable, -⟩ := readable target (by simp)
      obtain ⟨noHeader, -, changed⟩ := readable_target readable key
      obtain ⟨-, shown, -⟩ := readable_target (changed visible text) key
      exact (search ⟨updateFirst_target earlier key v post, hidden, shown⟩).mpr ⟨noHeader, repeated⟩
  | @behind pre first between target post begins inside earlier key unset =>
      obtain ⟨rfl, hidden, shown⟩ := begins
      obtain ⟨top, inside⟩ := List.forall_mem_cons.mp inside
      obtain ⟨readable, -⟩ := readable target (by simp)
      obtain ⟨noHeader, -, -⟩ := readable_target readable key
      have before : ∀ e ∈ pre ++ first :: between, e.id ≠ some k :=
        List.forall_mem_append.mpr ⟨unkeyed (List.subset_append_left ..) hidden, earlier⟩
      have begins
          : FirstVisible (updateFirst k v (pre ++ first :: (between ++ target :: post))) pre first
              (between ++ { target with value := some v } :: post) := by
        refine ⟨?_, hidden, shown⟩
        rw [← List.cons_append, ← List.append_assoc, updateFirst_target before key,
          List.append_assoc, List.cons_append]
      refine (search begins).mpr ⟨top, ?_⟩
      rw [untilHeader_append inside, List.findSome?_append, untilHeader_cons,
        if_neg (by simp [CfgEntry.isHeader, noHeader]), List.findSome?_cons,
        printedValue_target readable key plain visible]
      cases gives : between.findSome? (CfgEntry.printedValue k) with
      | none => rfl
      | some w => rw [unset w gives, Option.some_or]
  | @closed pre first between header rest begins inside earlier closes repeated =>
      obtain ⟨rfl, hidden, shown⟩ := begins
      obtain ⟨top, inside⟩ := List.forall_mem_cons.mp inside
      have before : ∀ e ∈ pre ++ first :: between, e.id ≠ some k :=
        List.forall_mem_append.mpr ⟨unkeyed (List.subset_append_left ..) hidden, earlier⟩
      have other : header.id ≠ some k := by simp [id_of_header (readable header (by simp)).1 closes]
      have begins
          : FirstVisible (updateFirst k v (pre ++ first :: (between ++ header :: rest))) pre first
              (between ++ header :: updateFirst k v rest) := by
        refine ⟨?_, hidden, shown⟩
        rw [← List.cons_append, ← List.append_assoc, updateFirst_append before, updateFirst,
          if_neg other, List.append_assoc, List.cons_append]
      refine (search begins).mpr ⟨top, ?_⟩
      rw [untilHeader_append inside, untilHeader_cons, if_pos (by exact closes), List.append_nil,
        repeated]

end Update

section Calls

variable {file : Option FileData} (nulFree : NulFree (contentOf file)) (k v : Bytes)

include nulFree in
/-- An `ini_setstr` that returns 0 has changed the first entry with the key, and one has it. -/
theorem iniSetstr_ok {sys : SysCalls} {file' : Option FileData}
    (returned : iniSetstr sys file (some k) (some v) = .ok (0, file'))
    : (∃ e ∈ parseImage (contentOf file), e.id = some k)
      ∧ file'
        = some ⟨outputFrom false (updateFirst k v (parseImage (contentOf file))), sys.time⟩ := by
  obtain ⟨c, ret, c', parsed, written, committed⟩ := setStr_ok returned
  obtain ⟨valid, -, entries⟩ := parsed.entries nulFree
  by_cases present : ∃ e ∈ c.pool.entries, e.id = some k
  · obtain ⟨c'', same, -, dirty, changed⟩ := cfgWrite_present valid present v
    obtain ⟨-, rfl⟩ := Prod.mk.inj (Except.ok.inj (written.symm.trans same))
    rw [entries] at present changed
    exact ⟨present, by rw [committed dirty, cfgOutput, changed]⟩
  · rw [cfgWrite_missing valid fun e member key => present ⟨e, member, key⟩] at written
    contradiction

include nulFree in
/-- When no system call fails, `ini_setstr` returns 0 if an entry has the key. -/
theorem iniSetstr_present (present : ∃ e ∈ parseImage (contentOf file), e.id = some k) (time : Nat)
    : iniSetstr (.succeed time) file (some k) (some v)
      = .ok
          (0, some ⟨outputFrom false (updateFirst k v (parseImage (contentOf file))), time⟩) := by
  obtain ⟨c, parsed, -, returns⟩ := setStr_succeed nulFree time none (some k) (some v)
  obtain ⟨valid, -, entries⟩ := parsed.entries nulFree
  rw [← entries] at present
  obtain ⟨c', written, valid', dirty, changed⟩ := cfgWrite_present valid present v
  rw [iniSetstr, returns 0 c' written valid' dirty, cfgOutput, changed, entries]

include nulFree in
/-- When no system call fails, `ini_setstr` accesses entries outside of the array if none has
the key.
-/
theorem iniSetstr_missing (missing : ∀ e ∈ parseImage (contentOf file), e.id ≠ some k)
    (time : Nat)
    : iniSetstr (.succeed time) file (some k) (some v) = .error .outOfBounds := by
  obtain ⟨c, parsed, faults, -⟩ := setStr_succeed nulFree time none (some k) (some v)
  obtain ⟨valid, -, entries⟩ := parsed.entries nulFree
  rw [← entries] at missing
  exact faults _ (cfgWrite_missing valid missing (some v))

end Calls

/-- After an `ini_setstr` that returns 0, `ini_getstr` finds the key and delivers the value
exactly when the entries of the file let it. When no entry has the key, and only then, the
`cfg_write` of the call accesses entries outside of the array.
-/
theorem iniGetstr_iniSetstr_iff (file : Option FileData) (nulFree : NulFree (contentOf file))
    (k v : Bytes) (key : Alnum k) (value : Alnum v)
    : ((∀ sys file',
          iniSetstr sys file (some k) (some v) = .ok (0, file')
          → ∀ time, iniGetstr (.succeed time) file' (some k) = .ok (0, some v))
        ↔ FoundAgain k v (parseImage (contentOf file)))
      ∧ ∀ time,
          iniSetstr (.succeed time) file (some k) (some v) = .error .outOfBounds
          ↔ ∀ e ∈ parseImage (contentOf file), e.id ≠ some k := by
  have readable : ∀ e ∈ parseImage (contentOf file), Readable e ∧ EntryOneLine e :=
    fun e member => readable_of_parseImage member
  have changed := readable_updateFirst (k := k) readable value.visible value.startsComment_eq
  have oneLine := fun e member => (changed e member).2
  have plain : PlainId k := key.visible.plainId key.filled
  have delivers (mtime time : Nat)
      : iniGetstr (.succeed time)
            (some ⟨outputFrom false (updateFirst k v (parseImage (contentOf file))), mtime⟩)
            (some k)
          = .ok (0, some v)
        ↔ lookupFirst ((updateFirst k v (parseImage (contentOf file))).filterMap reread) k
          = .ok (some (some v)) := by
    rw [iniGetstr_some (nulFree_outputFrom false oneLine), parseImage_outputFrom false oneLine]
  constructor
  · constructor
    · intro always
      by_cases present : ∃ e ∈ parseImage (contentOf file), e.id = some k
      · have found := always _ _ (iniSetstr_present nulFree k v present 0) 0
        exact .of_lookupFirst readable value.visible value.startsComment_eq present
          ((delivers 0 0).mp found)
      · exact .missing fun e member key => present ⟨e, member, key⟩
    · intro again sys file' returned time
      obtain ⟨present, rfl⟩ := iniSetstr_ok nulFree k v returned
      exact (delivers sys.time time).mpr
        (again.lookupFirst_eq readable plain value.visible value.startsComment_eq present)
  · intro time
    constructor
    · intro faults e member key
      rw [iniSetstr_present nulFree k v ⟨e, member, key⟩ time] at faults
      contradiction
    · intro missing
      exact iniSetstr_missing nulFree k v missing time

/-- Witness: a key behind another one is found again. -/
theorem iniGetstr_iniSetstr_iff_second
    : ∃ file',
        iniSetstr (.succeed 0) (some ⟨text "a=0\nk=1\n", 0⟩) (some (text "k")) (some (text "2"))
          = .ok (0, file')
        ∧ iniGetstr (.succeed 0) file' (some (text "k")) = .ok (0, some (text "2")) := by
  have begins
      : FirstVisible (parseImage (text "a=0\nk=1\n")) [] (defineEntry (text "a") (text "0"))
          ([] ++ [defineEntry (text "k") (text "1")]) := ⟨rfl, by simp, rfl⟩
  have again : FoundAgain (text "k") (text "2") (parseImage (text "a=0\nk=1\n")) :=
    .behind begins (by simp [NoHeader, defineEntry]) (by decide) rfl (by simp)
  have found := (iniGetstr_iniSetstr_iff (some ⟨text "a=0\nk=1\n", 0⟩) (by decide) (text "k")
    (text "2") ⟨by decide, by decide⟩ ⟨by decide, by decide⟩).1.mpr again
  exact ⟨_, rfl, found (.succeed 0) _ rfl 0⟩

/-- The first key of a file is set, but not found. -/
theorem iniGetstr_iniSetstr_top
    : ¬ ∀ file k v,
        NulFree (contentOf file)
        → Alnum k
        → Alnum v
        → ∀ sys file',
            iniSetstr sys file (some k) (some v) = .ok (0, file')
            → ∀ time, iniGetstr (.succeed time) file' (some k) = .ok (0, some v) := by
  intro always
  have found := always (some ⟨text "k=1\n", 0⟩) (text "k") (text "2") (by decide)
    ⟨by decide, by decide⟩ ⟨by decide, by decide⟩ (.succeed 0) _ rfl 0
  have other
      : (.ok (-1, some []) : Checked (Int × Option Bytes)) = .ok (0, some (text "2")) := found
  contradiction

end Cvos.CfgFile

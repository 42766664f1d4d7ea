import Cvos.CfgFile.Cursor
import Cvos.CfgFile.FileCycle
import Cvos.Lib.CBuffer

/-! Listing the names of a configuration: `list_sections` and `list_entries` copy names with their
terminators into a buffer, one behind the other, as long as there is room.
-/

namespace Cvos.CfgFile

open Cvos.Lib

/-- The part of both loops that copies a name, as far as it fits. A length that is no `int` has no
defined value as one.
-/
def copyName (lpszRetBuffer : Bytes) (cbRetBuffer : Int) (curr : Nat) (name : Bytes)
    : Checked (Nat × Bytes) :=
  let sectLen := name.length + 1
  if sectLen < 2 ^ 31 then do
    let sectLen := min sectLen (cbRetBuffer - curr).toNat
    let lpszRetBuffer ← copyTo lpszRetBuffer curr ((name ++ [0]).take sectLen)
    .ok (curr + sectLen, lpszRetBuffer)
  else
    .error .outOfBounds

/-- The frame of both functions around the loop, which gets its bound, the configuration and the
place of the next name in the buffer.
-/
def listWith (loop : Nat → Config → Nat → Bytes → Checked (Nat × Bytes × Config)) (c : Config)
    (lpszRetBuffer : Bytes) (cbRetBuffer : Int)
    : Checked (Nat × Bytes × Config) := do
  let lpszRetBuffer ← store lpszRetBuffer 0 0
  match cfgRewind c with
  | (0, c) =>
      let (curr, lpszRetBuffer, c) ← loop (c.pool.entries.length + 1) c 0 lpszRetBuffer
      if curr < cbRetBuffer then
        let lpszRetBuffer ← store lpszRetBuffer curr 0
        .ok (curr, lpszRetBuffer, c)
      else
        .ok (curr, lpszRetBuffer, c)
  | (_, c) => .ok (0, lpszRetBuffer, c)

/-- The loop of `list_sections`; each header lets it go on at most once. -/
def listSectionsLoop (cbRetBuffer : Int)
    : Nat → Config → Nat → Bytes → Checked (Nat × Bytes × Config)
  | 0, _, _, _ => .error .diverges
  | bound + 1, c, curr, lpszRetBuffer =>
      if curr < cbRetBuffer then do
        let (ret, c) ← cfgNextSection c
        match ret, c.sectionName with
        | 0, some name =>
            let (curr, lpszRetBuffer) ← copyName lpszRetBuffer cbRetBuffer curr name
            listSectionsLoop cbRetBuffer bound c curr lpszRetBuffer
        | _, _ => .ok (curr, lpszRetBuffer, c)
      else
        .ok (curr, lpszRetBuffer, c)

/-- `list_sections`: its result, the buffer and the configuration. -/
def listSections (c : Config) (lpszRetBuffer : Bytes) (cbRetBuffer : Int)
    : Checked (Nat × Bytes × Config) :=
  listWith (listSectionsLoop cbRetBuffer) c lpszRetBuffer cbRetBuffer

/-- Whether the cursor stands at a `key = value` entry of the section. -/
def definesIn (c : Config) (lpszSection : Option Bytes) : Checked Bool :=
  if c.type = .cfgDefine then strcmpEq c.sectionName lpszSection else .ok false

/-- The loop of `list_entries`; each entry lets it go on at most once. -/
def listEntriesLoop (lpszSection : Option Bytes) (cbRetBuffer : Int)
    : Nat → Config → Nat → Bytes → Checked (Nat × Bytes × Config)
  | 0, _, _, _ => .error .diverges
  | bound + 1, c, curr, lpszRetBuffer =>
      if curr < cbRetBuffer then
        match cfgNextentry c with
        | (0, c) => do
            let inSection ← definesIn c lpszSection
            match inSection, c.id with
            | true, some id =>
                let (curr, lpszRetBuffer) ← copyName lpszRetBuffer cbRetBuffer curr id
                listEntriesLoop lpszSection cbRetBuffer bound c curr lpszRetBuffer
            | _, _ => listEntriesLoop lpszSection cbRetBuffer bound c curr lpszRetBuffer
        | (_, c) => .ok (curr, lpszRetBuffer, c)
      else
        .ok (curr, lpszRetBuffer, c)

/-- `list_entries`: its result, the buffer and the configuration. -/
def listEntries (c : Config) (lpszSection : Option Bytes) (lpszRetBuffer : Bytes)
    (cbRetBuffer : Int)
    : Checked (Nat × Bytes × Config) :=
  listWith (listEntriesLoop lpszSection cbRetBuffer) c lpszRetBuffer cbRetBuffer

/-- The names one behind the other, each with its terminator. -/
def listText (names : List Bytes) : Bytes := names.flatMap (· ++ [0])

/-- The names of the headers. -/
def sectionNames (es : List Entry) : List Bytes := es.filterMap CfgEntry.sectionName

/-- The id of a `key = value` entry. -/
def CfgEntry.defineId (e : Entry) : Option Bytes :=
  if e.sectionName = none ∧ e.value.isSome then e.id else none

/-- The ids of the `key = value` entries. -/
def idsOf (es : List Entry) : List Bytes := es.filterMap CfgEntry.defineId

/-- The ids that stand behind some header of the name and before the following header. -/
def idsUnder (s : Bytes) : List Entry → List Bytes
  | [] => []
  | e :: rest =>
      if e.sectionName = some s then idsOf (untilHeader rest) ++ idsUnder s rest
      else idsUnder s rest

/-- The ids that a listing attributes to a section, where those before the first header are in the
section that the configuration remembers.
-/
def listedIds (remembered : Option Bytes) (s : Bytes) (es : List Entry) : List Bytes :=
  (if remembered = some s then idsOf (untilHeader es) else []) ++ idsUnder s es

/-- The call returns the length of the names' text, and the buffer holds the text, a NUL behind it
within its bound, and behind that what it held before.
-/
def Lists (lpszRetBuffer : Bytes) (cbRetBuffer : Int) (result : Checked (Nat × Bytes × Config))
    (names : List Bytes)
    : Prop :=
  ∃ c',
    result
      = .ok ((listText names).length,
          listText names ++ 0 :: lpszRetBuffer.drop ((listText names).length + 1), c')
    ∧ (listText names).length < cbRetBuffer

/-- The first names, of which the last one may be cut short. -/
def KeptOf (names kept : List Bytes) : Prop :=
  kept <+: names
  ∨ ∃ front name rest cut,
      names = front ++ name :: rest ∧ cut <+: name ∧ kept = front ++ [cut]

/-- The call lists the names or the first of them, all terminated within the bound of the buffer. -/
def Terminated (lpszRetBuffer : Bytes) (cbRetBuffer : Int) (names : List Bytes)
    (result : Checked (Nat × Bytes × Config))
    : Prop :=
  ∃ kept, KeptOf names kept ∧ Lists lpszRetBuffer cbRetBuffer result kept

-----------------------------------------------------------------------------------------
-- Copying names into the buffer
-----------------------------------------------------------------------------------------

/-- The names are copied as long as there is room. -/
def copyNames (cbRetBuffer : Int) : List Bytes → Nat → Bytes → Checked (Nat × Bytes)
  | [], curr, lpszRetBuffer => .ok (curr, lpszRetBuffer)
  | name :: names, curr, lpszRetBuffer =>
      if curr < cbRetBuffer then do
        let (curr, lpszRetBuffer) ← copyName lpszRetBuffer cbRetBuffer curr name
        copyNames cbRetBuffer names curr lpszRetBuffer
      else
        .ok (curr, lpszRetBuffer)

/-- What both functions do with the buffer, given the names. -/
def listing (lpszRetBuffer : Bytes) (cbRetBuffer : Int) (names : List Bytes)
    : Checked (Nat × Bytes) := do
  let lpszRetBuffer ← store lpszRetBuffer 0 0
  let (curr, lpszRetBuffer) ← copyNames cbRetBuffer names 0 lpszRetBuffer
  if curr < cbRetBuffer then
    let lpszRetBuffer ← store lpszRetBuffer curr 0
    .ok (curr, lpszRetBuffer)
  else
    .ok (curr, lpszRetBuffer)

/-- What a call has returned and left in the buffer. -/
def written (result : Nat × Bytes × Config) : Nat × Bytes := (result.1, result.2.1)

/-- The text of a name and further ones. -/
theorem listText_cons (name : Bytes) (names : List Bytes)
    : listText (name :: names) = name ++ 0 :: listText names := by
  rw [listText, List.flatMap_cons, List.append_assoc]
  rfl

/-- Names that fit are copied whole. -/
theorem copyNames_fits {cbRetBuffer : Int} {names : List Bytes} {before room : Bytes}
    (fits : before.length + (listText names).length < cbRetBuffer) (isInt : cbRetBuffer < 2 ^ 31)
    (enough : cbRetBuffer ≤ (before ++ room).length)
    : copyNames cbRetBuffer names before.length (before ++ room)
      = .ok (before.length + (listText names).length,
          before ++ (listText names ++ room.drop (listText names).length)) := by
  induction names generalizing before room with
  | nil => rfl
  | cons name names ih =>
      have size
          : (listText (name :: names)).length = name.length + 1 + (listText names).length := by
        rw [listText_cons, List.length_append, List.length_cons]
        omega
      rw [size] at fits
      rw [List.length_append] at enough
      have whole : min (name.length + 1) (cbRetBuffer - before.length).toNat = name.length + 1 := by
        omega
      have all : (name ++ [0]).take (name.length + 1) = name ++ [0] :=
        List.take_of_length_le (by simp)
      have used : (room.take (name.length + 1)).length = name.length + 1 :=
        List.length_take_of_le (by omega)
      have copied
          : copyTo (before ++ room) before.length (name ++ [0])
            = .ok (before ++ (name ++ [0] ++ room.drop (name.length + 1))) := by
        have split := List.take_append_drop (name.length + 1) room
        calc copyTo (before ++ room) before.length (name ++ [0])
            = copyTo (before ++ (room.take (name.length + 1) ++ room.drop (name.length + 1)))
                before.length (name ++ [0]) := by rw [split]
          _ = _ := copyTo_append before _ _ (by rw [used]; simp)
      have next : (before ++ (name ++ [0])).length = before.length + (name.length + 1) := by simp
      have left
          : cbRetBuffer ≤ (before ++ (name ++ [0]) ++ room.drop (name.length + 1)).length := by
        rw [List.length_append, next, List.length_drop]
        omega
      have further := ih (by rw [next]; omega) left
      rw [next, List.drop_drop] at further
      rw [copyNames, if_pos (by omega), copyName]
      simp only [whole, all, copied, Checked.ok_bind]
      rw [if_pos (by omega), Checked.ok_bind, ← List.append_assoc before, further, size,
        listText_cons]
      simp [Nat.add_assoc]

/-- Nothing is copied where there is no room. -/
theorem copyNames_noRoom {cbRetBuffer : Int} {curr : Nat} (full : ¬curr < cbRetBuffer)
    (names : List Bytes) (buffer : Bytes)
    : copyNames cbRetBuffer names curr buffer = .ok (curr, buffer) := by
  cases names with
  | nil => rfl
  | cons name names => rw [copyNames, if_neg full]

/-- Names that do not fit fill the buffer up to its bound. -/
theorem copyNames_full {cbRetBuffer : Int} {names : List Bytes} {curr ret : Nat}
    {buffer buffer' : Bytes} (inside : curr ≤ cbRetBuffer)
    (full : cbRetBuffer ≤ curr + (listText names).length)
    (copied : copyNames cbRetBuffer names curr buffer = .ok (ret, buffer'))
    : ret = cbRetBuffer := by
  induction names generalizing curr buffer with
  | nil =>
      obtain ⟨rfl, -⟩ := Prod.mk.inj (Except.ok.inj copied)
      have nothing : (listText []).length = 0 := rfl
      omega
  | cons name names ih =>
      rw [copyNames] at copied
      split at copied
      next room =>
        obtain ⟨⟨next, middle⟩, first, others⟩ := Checked.bind_eq_ok.mp copied
        simp only [copyName] at first
        split at first
        case isFalse => contradiction
        obtain ⟨buffer₁, -, same⟩ := Checked.bind_eq_ok.mp first
        obtain ⟨rfl, -⟩ := Prod.mk.inj (Except.ok.inj same)
        rw [listText_cons, List.length_append, List.length_cons] at full
        exact ih (by omega) (by omega) others
      next =>
        obtain ⟨rfl, -⟩ := Prod.mk.inj (Except.ok.inj copied)
        omega

/-- The listing of names that fit with a final NUL. -/
theorem listing_fits {cbRetBuffer : Int} {names : List Bytes} {buffer : Bytes}
    (fits : (listText names).length < cbRetBuffer) (isInt : cbRetBuffer < 2 ^ 31)
    (enough : cbRetBuffer ≤ buffer.length)
    : listing buffer cbRetBuffer names
      = .ok ((listText names).length,
          listText names ++ 0 :: buffer.drop ((listText names).length + 1)) := by
  have first : store buffer 0 0 = .ok (buffer.set 0 0) := if_pos (by omega)
  have copied :=
    @copyNames_fits cbRetBuffer names [] (buffer.set 0 0) (by simpa using fits) isInt
      (by simpa using enough)
  simp only [List.length_nil, List.nil_append, Nat.zero_add] at copied
  obtain ⟨old, rest, split⟩
      : ∃ old rest, (buffer.set 0 0).drop (listText names).length = old :: rest :=
    List.exists_cons_of_length_pos (by rw [List.length_drop, List.length_set]; omega)
  have behind : buffer.drop ((listText names).length + 1) = rest := by
    have tail := congrArg List.tail split
    rw [List.tail_drop, List.tail_cons, List.drop_set_of_lt (Nat.succ_pos _)] at tail
    exact tail
  rw [listing, first, Checked.ok_bind, copied, Checked.ok_bind, split, behind]
  simp only [if_pos fits, store_append_cons, Checked.ok_bind]

/-- The listing of names that do not fit with a final NUL fills the buffer. -/
theorem listing_full {cbRetBuffer : Int} {names : List Bytes} {buffer buffer' : Bytes} {ret : Nat}
    (positive : 1 ≤ cbRetBuffer) (full : cbRetBuffer ≤ (listText names).length)
    (returned : listing buffer cbRetBuffer names = .ok (ret, buffer'))
    : ret = cbRetBuffer := by
  obtain ⟨buffer₁, -, returned⟩ := Checked.bind_eq_ok.mp returned
  obtain ⟨⟨curr, buffer₂⟩, copied, returned⟩ := Checked.bind_eq_ok.mp returned
  have filled : curr = cbRetBuffer := copyNames_full (by omega) (by omega) copied
  simp only at returned
  rw [if_neg (by omega)] at returned
  obtain ⟨rfl, -⟩ := Prod.mk.inj (Except.ok.inj returned)
  exact filled

/-- A call that treats the buffer as a listing of some names lists them exactly when they fit with a
final NUL, and otherwise it lists no others.
-/
theorem lists_of_listing {cbRetBuffer : Int} {names : List Bytes} {buffer : Bytes}
    {result : Checked (Nat × Bytes × Config)}
    (same : result.map written = listing buffer cbRetBuffer names) (positive : 1 ≤ cbRetBuffer)
    (isInt : cbRetBuffer < 2 ^ 31) (enough : cbRetBuffer ≤ buffer.length)
    : ((listText names).length < cbRetBuffer → Lists buffer cbRetBuffer result names)
      ∧ ∀ kept,
          Lists buffer cbRetBuffer result kept
          → (listText names).length < cbRetBuffer ∧ listText kept = listText names := by
  constructor
  · intro fits
    rw [listing_fits fits isInt enough] at same
    obtain ⟨⟨ret, buffer', c'⟩, returned, same⟩ := Checked.map_eq_ok.mp same
    obtain ⟨rfl, rfl⟩ := Prod.mk.inj same
    exact ⟨c', returned, fits⟩
  · rintro kept ⟨c', returned, inside⟩
    rw [returned] at same
    by_cases fits : (listText names).length < cbRetBuffer
    · rw [listing_fits fits isInt enough] at same
      obtain ⟨length, text⟩ := Prod.mk.inj (Except.ok.inj same)
      exact ⟨fits, (List.append_inj text length).1⟩
    · have full := listing_full positive (by omega) same.symm
      omega

/-- The names are listed in a terminated buffer exactly when they fit with a final NUL. -/
theorem terminated_iff {cbRetBuffer : Int} {names : List Bytes} {buffer : Bytes}
    {result : Checked (Nat × Bytes × Config)}
    (same : result.map written = listing buffer cbRetBuffer names) (positive : 1 ≤ cbRetBuffer)
    (isInt : cbRetBuffer < 2 ^ 31) (enough : cbRetBuffer ≤ buffer.length)
    : Terminated buffer cbRetBuffer names result ↔ (listText names).length < cbRetBuffer := by
  obtain ⟨whole, others⟩ := lists_of_listing same positive isInt enough
  constructor
  · rintro ⟨kept, -, lists⟩
    exact (others kept lists).1
  · intro fits
    exact ⟨names, .inl (List.prefix_refl names), whole fits⟩

-----------------------------------------------------------------------------------------
-- The two loops
-----------------------------------------------------------------------------------------

/-- Entries without headers have no names. -/
theorem sectionNames_append_of_none {passed : List Entry}
    (none : passed.filter CfgEntry.isHeader = []) (rest : List Entry)
    : sectionNames (passed ++ rest) = sectionNames rest := by
  have empty : sectionNames passed = [] := by
    refine List.filterMap_eq_nil_iff.mpr fun e member => ?_
    have noHeader := List.filter_eq_nil_iff.mp none e member
    simpa [CfgEntry.isHeader] using noHeader
  rw [sectionNames, List.filterMap_append]
  exact congrArg (· ++ sectionNames rest) empty

/-- The loop of `list_sections` copies the names of the headers in front of the cursor. -/
theorem listSectionsLoop_eq {cbRetBuffer : Int} {rest : List Entry} {bound : Nat} {c : Config}
    (h : Before rest c) (enough : rest.length < bound) (curr : Nat) (buffer : Bytes)
    : (listSectionsLoop cbRetBuffer bound c curr buffer).map written
      = copyNames cbRetBuffer (sectionNames rest) curr buffer := by
  induction bound generalizing rest c curr buffer with
  | zero => omega
  | succ bound ih =>
      rw [listSectionsLoop]
      rcases cfgNextSection_steps h with
        ⟨passed, e, behind, c', rfl, none, header, ran, before, moved⟩ | ⟨none, c', ended, -⟩
      · obtain ⟨name, shown⟩ := Option.isSome_iff_exists.mp header
        have names : sectionNames (passed ++ e :: behind) = name :: sectionNames behind := by
          rw [sectionNames_append_of_none none]
          simp [sectionNames, shown]
        have sameName : c'.sectionName = some name := by
          rw [moved.sectionName, lastSection_append, lastSection_singleton, shown]
          rfl
        rw [ran, names, copyNames]
        split
        next room =>
          simp only [Checked.ok_bind, sameName]
          cases copied : copyName buffer cbRetBuffer curr name with
          | error fault => rfl
          | ok next =>
              refine ih before ?_ next.1 next.2
              rw [List.length_append, List.length_cons] at enough
              omega
        next => rfl
      · have names : sectionNames rest = [] := by
          have same := sectionNames_append_of_none none []
          rwa [List.append_nil] at same
        rw [ended, names]
        split <;> rfl

/-- The cursor remembers its section at an entry with a value. -/
theorem cfgNextentry_remembers {e : Entry} {rest : List Entry} {c : Config}
    (h : Before (e :: rest) c) {value : Bytes} (noHeader : e.sectionName = none)
    (shown : e.value = some value)
    : (cfgNextentry c).2.sectionName = c.sectionName := by
  simp only [cfgNextentry, h.valid, h.eof, h.rest, nextentryFrom, noHeader, shown]
  cases e.id <;> rfl

/-- The ids that a listing attributes to a section, where an entry stands in front of the others. -/
theorem listedIds_cons (remembered : Option Bytes) (s : Bytes) (e : Entry) (rest : List Entry)
    : listedIds remembered s (e :: rest)
      = match e.sectionName with
        | some name => listedIds (some name) s rest
        | none =>
            (if remembered = some s then e.defineId.toList else [])
              ++ listedIds remembered s rest := by
  rw [listedIds, idsUnder, untilHeader_cons]
  cases header : e.sectionName with
  | some name =>
      simp only [listedIds]
      by_cases same : name = s <;> simp [CfgEntry.isHeader, header, idsOf, same]
  | none =>
      rw [listedIds]
      cases id : e.defineId <;> split <;> simp [CfgEntry.isHeader, header, idsOf, id]

section Turns

variable {s : Bytes} {cbRetBuffer : Int} {e : Entry} {rest : List Entry} {c : Config}
  (h : Before (e :: rest) c) {curr : Nat} (room : curr < cbRetBuffer) (buffer : Bytes)

include h room in
/-- At a header, the loop of `list_entries` goes on in its section. -/
theorem listEntriesLoop_header {name : Bytes} (header : e.sectionName = some name) (bound : Nat)
    : ∃ c',
        Before rest c'
        ∧ c'.sectionName = some name
        ∧ listEntriesLoop (some s) cbRetBuffer (bound + 1) c curr buffer
          = listEntriesLoop (some s) cbRetBuffer bound c' curr buffer := by
  obtain ⟨c', next, before, type, sameName, -⟩ := cfgNextentry_section h header
  refine ⟨c', before, sameName, ?_⟩
  simp only [listEntriesLoop, if_pos room, next, definesIn, type]
  rfl

include h room in
/-- At an entry that is neither a header nor has an id, the loop of `list_entries` goes on. -/
theorem listEntriesLoop_noId (noHeader : e.sectionName = none) (noId : e.defineId = none)
    {bound : Nat} (enough : rest.length < bound)
    : ∃ c' bound',
        Before rest c'
        ∧ c'.sectionName = c.sectionName
        ∧ rest.length < bound'
        ∧ listEntriesLoop (some s) cbRetBuffer (bound + 1) c curr buffer
          = listEntriesLoop (some s) cbRetBuffer bound' c' curr buffer := by
  cases shown : e.value with
  | none =>
      have hidden : e.visible = false := by simp [CfgEntry.visible, noHeader, shown]
      refine ⟨_, bound + 1, h.pass, rfl, Nat.lt_succ_of_lt enough, ?_⟩
      rw [listEntriesLoop, listEntriesLoop, if_pos room, if_pos room, cfgNextentry_skip h hidden]
  | some value =>
      obtain ⟨c', next, before, type, -, -⟩ := cfgNextentry_value h noHeader shown
      have remembers := cfgNextentry_remembers h noHeader shown
      have key : e.id = none := by simpa [CfgEntry.defineId, noHeader, shown] using noId
      rw [next] at remembers
      rw [key] at type
      refine ⟨c', bound, before, remembers, enough, ?_⟩
      simp [listEntriesLoop, room, next, definesIn, type]

include h room in
/-- At an id, the loop of `list_entries` compares the section and copies the id if it is the one. -/
theorem listEntriesLoop_id (noHeader : e.sectionName = none) {id : Bytes}
    (itsId : e.defineId = some id) (bound : Nat)
    : ∃ c',
        Before rest c'
        ∧ c'.sectionName = c.sectionName
        ∧ listEntriesLoop (some s) cbRetBuffer (bound + 1) c curr buffer
          = (do
              let inSection ← strcmpEq c.sectionName (some s)
              if inSection then do
                let (curr, buffer) ← copyName buffer cbRetBuffer curr id
                listEntriesLoop (some s) cbRetBuffer bound c' curr buffer
              else
                listEntriesLoop (some s) cbRetBuffer bound c' curr buffer) := by
  obtain ⟨value, shown⟩ : ∃ value, e.value = some value := by
    refine Option.ne_none_iff_exists'.mp fun none => ?_
    simp [CfgEntry.defineId, none] at itsId
  have key : e.id = some id := by simpa [CfgEntry.defineId, noHeader, shown] using itsId
  obtain ⟨c', next, before, type, sameId, -⟩ := cfgNextentry_value h noHeader shown
  have remembers : c'.sectionName = c.sectionName := by
    have kept := cfgNextentry_remembers h noHeader shown
    rwa [next] at kept
  rw [key] at type sameId
  refine ⟨c', before, remembers, ?_⟩
  simp only [listEntriesLoop, if_pos room, next, definesIn, type, Option.isSome_some, if_true,
    sameId, remembers]
  cases strcmpEq c.sectionName (some s) with
  | error fault => rfl
  | ok inSection => cases inSection <;> rfl

end Turns

/-- The loop of `list_entries` copies the ids that it attributes to the section, if it knows the
section of every id.
-/
theorem listEntriesLoop_eq {s : Bytes} {cbRetBuffer : Int} {rest : List Entry} {bound : Nat}
    {c : Config} (h : Before rest c) (enough : rest.length < bound)
    (known : c.sectionName = none → idsOf (untilHeader rest) = []) (curr : Nat) (buffer : Bytes)
    : (listEntriesLoop (some s) cbRetBuffer bound c curr buffer).map written
      = copyNames cbRetBuffer (listedIds c.sectionName s rest) curr buffer := by
  induction rest generalizing bound c curr buffer with
  | nil =>
      obtain ⟨bound, rfl⟩ := Nat.exists_eq_succ_of_ne_zero (Nat.ne_of_gt enough)
      have ended := cfgNextentry_nil h
      have nothing : listedIds c.sectionName s [] = [] := by
        simp [listedIds, idsUnder, untilHeader, idsOf]
      rw [nothing, listEntriesLoop]
      split
      next =>
        split
        next found => simp [found] at ended
        next => rfl
      next => rfl
  | cons e rest ih =>
      obtain ⟨bound, rfl⟩ := Nat.exists_eq_succ_of_ne_zero (Nat.ne_of_gt (Nat.zero_lt_of_lt enough))
      have fewer : rest.length < bound := Nat.lt_of_succ_lt_succ enough
      by_cases room : curr < cbRetBuffer
      case neg => rw [copyNames_noRoom room, listEntriesLoop, if_neg room]; rfl
      rw [listedIds_cons]
      cases header : e.sectionName with
      | some name =>
          obtain ⟨c', before, sameName, turn⟩ := listEntriesLoop_header h room buffer header bound
          rw [turn, ih before fewer (by simp [sameName]), sameName]
      | none =>
          have noHeader : e.isHeader = false := by simp [CfgEntry.isHeader, header]
          rw [untilHeader_cons, noHeader, if_neg (by decide)] at known
          cases itsId : e.defineId with
          | none =>
              obtain ⟨c', bound', before, remembers, fewer', turn⟩ :=
                listEntriesLoop_noId h room buffer header itsId fewer
              have known' : c'.sectionName = none → idsOf (untilHeader rest) = [] := by
                simpa [remembers, idsOf, itsId] using known
              rw [turn, ih before fewer' known', remembers]
              simp
          | some id =>
              obtain ⟨c', before, remembers, turn⟩ :=
                listEntriesLoop_id h room buffer header itsId bound
              obtain ⟨name, remembered⟩ : ∃ name, c.sectionName = some name := by
                refine Option.ne_none_iff_exists'.mp fun none => ?_
                simpa [idsOf, itsId] using known none
              rw [remembered] at remembers
              have further := ih before fewer (by simp [remembers])
              rw [remembers] at further
              rw [turn, remembered]
              by_cases same : name = s
              · subst same
                cases copied : copyName buffer cbRetBuffer curr id with
                | error fault => simp [strcmpEq, copyNames, room, copied, Except.map]
                | ok written =>
                    simpa [strcmpEq, copyNames, room, copied] using further written.1 written.2
              · simpa [strcmpEq, same] using further curr buffer

/-- An id whose section is not known makes the loop of `list_entries` compare with a null pointer.
-/
theorem listEntriesLoop_null {s : Bytes} {cbRetBuffer : Int} {rest : List Entry} {bound : Nat}
    {c : Config} (h : Before rest c) (enough : rest.length < bound) (unknown : c.sectionName = none)
    (ids : idsOf (untilHeader rest) ≠ []) {curr : Nat} (room : curr < cbRetBuffer) (buffer : Bytes)
    : listEntriesLoop (some s) cbRetBuffer bound c curr buffer = .error .nullPointer := by
  induction rest generalizing bound c with
  | nil => exact absurd rfl ids
  | cons e rest ih =>
      obtain ⟨bound, rfl⟩ := Nat.exists_eq_succ_of_ne_zero (Nat.ne_of_gt (Nat.zero_lt_of_lt enough))
      have fewer : rest.length < bound := Nat.lt_of_succ_lt_succ enough
      rw [untilHeader_cons] at ids
      cases header : e.sectionName with
      | some name => simp [CfgEntry.isHeader, header, idsOf] at ids
      | none =>
          have noHeader : e.isHeader = false := by simp [CfgEntry.isHeader, header]
          rw [noHeader, if_neg (by decide)] at ids
          cases itsId : e.defineId with
          | none =>
              obtain ⟨c', bound', before, remembers, fewer', turn⟩ :=
                listEntriesLoop_noId h room buffer header itsId fewer
              rw [turn]
              exact ih before fewer' (remembers.trans unknown) (by simpa [idsOf, itsId] using ids)
          | some id =>
              obtain ⟨c', -, -, turn⟩ := listEntriesLoop_id h room buffer header itsId bound
              rw [turn, unknown]
              rfl

-----------------------------------------------------------------------------------------
-- The listings
-----------------------------------------------------------------------------------------

/-- Around a loop that copies names, both functions list them. -/
theorem listWith_eq {loop : Nat → Config → Nat → Bytes → Checked (Nat × Bytes × Config)}
    {c : Config} (valid : c.valid) {cbRetBuffer : Int} {names : List Bytes}
    (copies
      : ∀ buffer,
          (loop (c.pool.entries.length + 1)
              { c with eof := false, type := .cfgError, cursor := 0 } 0 buffer).map written
            = copyNames cbRetBuffer names 0 buffer)
    (buffer : Bytes)
    : (listWith loop c buffer cbRetBuffer).map written = listing buffer cbRetBuffer names := by
  rw [listWith, listing, cfgRewind, if_pos valid]
  cases store buffer 0 0 with
  | error fault => rfl
  | ok buffer =>
      have copied := copies buffer
      simp only [Checked.ok_bind]
      rw [← copied]
      cases loop (c.pool.entries.length + 1)
          { c with eof := false, type := .cfgError, cursor := 0 } 0 buffer with
      | error fault => rfl
      | ok result =>
          obtain ⟨curr, buffer, c'⟩ := result
          by_cases room : curr < cbRetBuffer
          · simp only [Except.map, written, Checked.ok_bind, if_pos room]
            cases store buffer curr 0 <;> rfl
          · simp only [Except.map, written, Checked.ok_bind, if_neg room]

/-- `list_sections` lists the names of the headers. -/
theorem listSections_eq {c : Config} (valid : c.valid) (buffer : Bytes) (cbRetBuffer : Int)
    : (listSections c buffer cbRetBuffer).map written
      = listing buffer cbRetBuffer (sectionNames c.pool.entries) :=
  listWith_eq valid (listSectionsLoop_eq (before_rewind valid) (Nat.lt_succ_self _) 0) buffer

/-- `list_entries` lists the ids that it attributes to the section, if it knows the section of every
id.
-/
theorem listEntries_eq {c : Config} (valid : c.valid)
    (known : c.sectionName = none → idsOf (untilHeader c.pool.entries) = []) (s buffer : Bytes)
    (cbRetBuffer : Int)
    : (listEntries c (some s) buffer cbRetBuffer).map written
      = listing buffer cbRetBuffer (listedIds c.sectionName s c.pool.entries) :=
  listWith_eq valid (listEntriesLoop_eq (before_rewind valid) (Nat.lt_succ_self _) known 0) buffer

/-- `list_entries` compares with a null pointer if it does not know the section of an id. -/
theorem listEntries_null {c : Config} (valid : c.valid) (unknown : c.sectionName = none)
    (ids : idsOf (untilHeader c.pool.entries) ≠ []) (s : Bytes) {buffer : Bytes} {cbRetBuffer : Int}
    (positive : 1 ≤ cbRetBuffer) (enough : cbRetBuffer ≤ buffer.length)
    : listEntries c (some s) buffer cbRetBuffer = .error .nullPointer := by
  have first : store buffer 0 0 = .ok (buffer.set 0 0) := if_pos (by omega)
  have loop :=
    @listEntriesLoop_null s cbRetBuffer _ _ _ (before_rewind valid) (Nat.lt_succ_self _) unknown ids
      0 (by omega) (buffer.set 0 0)
  simp only [listEntries, listWith, first, Checked.ok_bind, cfgRewind, if_pos valid, loop,
    Checked.error_bind]

/-- The listings of a valid configuration are terminated exactly when all names fit into the buffer
with a final NUL; those of the entries also need the section of the ids before the first header.
-/
theorem listings_terminated_iff {c : Config} (valid : c.valid) (s : Bytes) {lpszRetBuffer : Bytes}
    {cbRetBuffer : Int} (positive : 1 ≤ cbRetBuffer) (isInt : cbRetBuffer < 2 ^ 31)
    (enough : cbRetBuffer ≤ lpszRetBuffer.length)
    : (Terminated lpszRetBuffer cbRetBuffer (sectionNames c.pool.entries)
          (listSections c lpszRetBuffer cbRetBuffer)
        ↔ (listText (sectionNames c.pool.entries)).length < cbRetBuffer)
      ∧ (Terminated lpszRetBuffer cbRetBuffer (listedIds c.sectionName s c.pool.entries)
            (listEntries c (some s) lpszRetBuffer cbRetBuffer)
          ↔ (listText (listedIds c.sectionName s c.pool.entries)).length < cbRetBuffer
            ∧ (c.sectionName = none → idsOf (untilHeader c.pool.entries) = [])) := by
  refine ⟨terminated_iff (listSections_eq valid ..) positive isInt enough, ?_⟩
  by_cases known : c.sectionName = none → idsOf (untilHeader c.pool.entries) = []
  · rw [terminated_iff (listEntries_eq valid known ..) positive isInt enough, and_iff_left known]
  · obtain ⟨unknown, ids⟩ := Classical.not_imp.mp known
    refine iff_of_false ?_ fun fits => known fits.2
    rintro ⟨kept, -, c', returned, -⟩
    rw [listEntries_null valid unknown ids s positive enough] at returned
    contradiction

/-- Witness: three bytes hold a name of one letter and a final NUL. -/
theorem listings_terminated_iff_room
    : Terminated [1, 1, 1, 1] 3 [text "s"]
        (listSections (parseOf (text "[s]\nk=v\n")) [1, 1, 1, 1] 3)
      ∧ Terminated [1, 1, 1, 1] 3 [text "k"]
          (listEntries (parseOf (text "[s]\nk=v\n")) (some (text "s")) [1, 1, 1, 1] 3) := by
  have listings :=
    @listings_terminated_iff (parseOf (text "[s]\nk=v\n")) rfl (text "s") [1, 1, 1, 1] 3
      (by decide) (by decide) (by decide)
  exact ⟨listings.1.mpr (by decide), listings.2.mpr (by decide)⟩

/-- A name that reaches the end of the buffer is left without its terminator. -/
theorem not_terminated_cut
    : ¬ ∀ (c : Config) (s buffer : Bytes) (cbRetBuffer : Int),
        c.valid
        → 1 ≤ cbRetBuffer
        → cbRetBuffer < 2 ^ 31
        → cbRetBuffer ≤ buffer.length
        → Terminated buffer cbRetBuffer (sectionNames c.pool.entries)
              (listSections c buffer cbRetBuffer)
          ∧ Terminated buffer cbRetBuffer (listedIds c.sectionName s c.pool.entries)
              (listEntries c (some s) buffer cbRetBuffer) := by
  intro always
  obtain ⟨⟨kept, -, c', returned, inside⟩, -⟩ :=
    always (parseOf (text "[abc]\n")) (text "abc") [1, 1, 1, 1] 3 rfl (by decide) (by decide)
      (by decide)
  have cut : (listSections (parseOf (text "[abc]\n")) [1, 1, 1, 1] 3).map written
      = .ok (3, [97, 98, 99, 1]) := rfl
  rw [returned] at cut
  have length : (listText kept).length = 3 := congrArg Prod.fst (Except.ok.inj cut)
  omega

end Cvos.CfgFile

import Cvos.CfgFile.DeletedKey
import Cvos.CfgFile.Listing
import Cvos.CfgFile.Reread

/-! What a listing of ids depends on besides the entries, and whether a search finds what it lists.
The section that the configuration remembers is that of the last header which the cursor has passed,
and `cfg_rewind` does not forget it.
-/

namespace Cvos.CfgFile

open Cvos.Lib

/-- A call that moves the cursor or lists names. -/
inductive ListCall where
  | cursor (call : CursorCall)
  | sections (lpszRetBuffer : Bytes) (cbRetBuffer : Int)
  | entries (lpszSection : Option Bytes) (lpszRetBuffer : Bytes) (cbRetBuffer : Int)

/-- The configuration that the call leaves. -/
def ListCall.run : ListCall → Config → Checked Config
  | cursor call, c => (call.run c).map Prod.snd
  | sections lpszRetBuffer cbRetBuffer, c =>
      (listSections c lpszRetBuffer cbRetBuffer).map fun result => result.2.2
  | entries lpszSection lpszRetBuffer cbRetBuffer, c =>
      (listEntries c lpszSection lpszRetBuffer cbRetBuffer).map fun result => result.2.2

/-- The call returns, with the second configuration. -/
def ListStep (c : Config) (call : ListCall) (c' : Config) : Prop := call.run c = .ok c'

/-- The ids that stand behind a further header of the name. -/
def repeatedIds (s : Bytes) : List Entry → List Bytes
  | [] => []
  | e :: rest => if e.sectionName = some s then idsUnder s rest else repeatedIds s rest

/-- The ids of a section are listed, and a search that follows finds each of them that is not empty
and has no quotes.
-/
def ListsFound (c : Config) (s lpszRetBuffer : Bytes) (cbRetBuffer : Int) : Prop :=
  ∃ ret buffer c' ids,
    listEntries c (some s) lpszRetBuffer cbRetBuffer = .ok (ret, buffer, c')
    ∧ Lists lpszRetBuffer cbRetBuffer (.ok (ret, buffer, c')) ids
    ∧ (∀ id ∈ ids, NulFree id)
    ∧ ∀ k ∈ ids, PlainId k → ∃ found, cfgFind c' (some s) (some k) = .ok (0, found)

-----------------------------------------------------------------------------------------
-- What calls keep
-----------------------------------------------------------------------------------------

/-- The loop of `list_sections` keeps the entries. -/
theorem listSectionsLoop_same {cbRetBuffer : Int} {bound : Nat} {c c' : Config} {curr curr' : Nat}
    {buffer buffer' : Bytes}
    (returned : listSectionsLoop cbRetBuffer bound c curr buffer = .ok (curr', buffer', c'))
    : SameEntries c c' := by
  induction bound generalizing c curr buffer with
  | zero => cases returned
  | succ bound ih =>
      rw [listSectionsLoop] at returned
      by_cases room : curr < cbRetBuffer
      case neg =>
        rw [if_neg room] at returned
        cases returned
        exact .refl _
      rw [if_pos room] at returned
      obtain ⟨⟨ret, moved⟩, next, returned⟩ := Checked.bind_eq_ok.mp returned
      have kept : SameEntries c moved := nextSectionLoop_same next
      simp only at returned
      split at returned
      next =>
        obtain ⟨⟨curr₁, buffer₁⟩, -, further⟩ := Checked.bind_eq_ok.mp returned
        exact kept.trans (ih further)
      next =>
        cases returned
        exact kept

/-- The loop of `list_entries` keeps the entries. -/
theorem listEntriesLoop_same {lpszSection : Option Bytes} {cbRetBuffer : Int} {bound : Nat}
    {c c' : Config} {curr curr' : Nat} {buffer buffer' : Bytes}
    (returned
      : listEntriesLoop lpszSection cbRetBuffer bound c curr buffer = .ok (curr', buffer', c'))
    : SameEntries c c' := by
  induction bound generalizing c curr buffer with
  | zero => cases returned
  | succ bound ih =>
      have moved := cfgNextentry_same c
      rw [listEntriesLoop] at returned
      by_cases room : curr < cbRetBuffer
      case neg =>
        rw [if_neg room] at returned
        cases returned
        exact .refl _
      rw [if_pos room] at returned
      split at returned
      next c₁ next =>
        rw [next] at moved
        obtain ⟨inSection, -, returned⟩ := Checked.bind_eq_ok.mp returned
        split at returned
        next =>
          obtain ⟨⟨curr₁, buffer₁⟩, -, further⟩ := Checked.bind_eq_ok.mp returned
          exact moved.trans (ih further)
        next => exact moved.trans (ih returned)
      next ret c₁ _ next =>
        rw [next] at moved
        cases returned
        exact moved

/-- Around a loop that keeps the entries, both functions keep them. -/
theorem listWith_same {loop : Nat → Config → Nat → Bytes → Checked (Nat × Bytes × Config)}
    (keeps
      : ∀ {bound c curr buffer curr' buffer' c'},
          loop bound c curr buffer = .ok (curr', buffer', c') → SameEntries c c')
    {c c' : Config} {buffer buffer' : Bytes} {cbRetBuffer : Int} {ret : Nat}
    (returned : listWith loop c buffer cbRetBuffer = .ok (ret, buffer', c'))
    : SameEntries c c' := by
  obtain ⟨buffer₁, -, returned⟩ := Checked.bind_eq_ok.mp returned
  have rewound := cfgRewind_same c
  split at returned
  next c₁ rewind =>
    rw [rewind] at rewound
    obtain ⟨⟨curr, buffer₂, c₂⟩, looped, returned⟩ := Checked.bind_eq_ok.mp returned
    have kept := rewound.trans (keeps looped)
    simp only at returned
    split at returned
    next =>
      obtain ⟨buffer₃, -, returned⟩ := Checked.bind_eq_ok.mp returned
      cases returned
      exact kept
    next =>
      cases returned
      exact kept
  next ret c₁ _ rewind =>
    rw [rewind] at rewound
    cases returned
    exact rewound

/-- A call that returns keeps the entries. -/
theorem ListStep.same {c c' : Config} {call : ListCall} (taken : ListStep c call c')
    : SameEntries c c' := by
  cases call with
  | cursor call =>
      obtain ⟨⟨ret, c₁⟩, returned, rfl⟩ := Checked.map_eq_ok.mp taken
      exact CursorStep.same ⟨ret, returned⟩
  | sections buffer cbRetBuffer =>
      obtain ⟨⟨ret, buffer', c₁⟩, returned, rfl⟩ := Checked.map_eq_ok.mp taken
      exact listWith_same listSectionsLoop_same returned
  | entries lpszSection buffer cbRetBuffer =>
      obtain ⟨⟨ret, buffer', c₁⟩, returned, rfl⟩ := Checked.map_eq_ok.mp taken
      exact listWith_same listEntriesLoop_same returned

/-- After any calls that move the cursor or list names, the entries are the same. -/
theorem same_of_listCalls {c c' : Config} {calls : List (Config × ListCall)}
    (run : Run ListStep c calls c')
    : SameEntries c c' :=
  run.invariant (SameEntries c) (.refl c) (fun _ taken kept => kept.trans taken.same)

-----------------------------------------------------------------------------------------
-- The remembered section
-----------------------------------------------------------------------------------------

/-- In a buffer with room for the ids of a section, `list_entries` lists exactly these, whatever
calls came before, if and only if no id stands before the first header or the configuration
remembers another section.
-/
theorem listEntries_after_calls_iff {c c' : Config} {calls : List (Config × ListCall)}
    (valid : c.valid) (run : Run ListStep c calls c') {s lpszRetBuffer : Bytes} {cbRetBuffer : Int}
    (room : (listText (idsUnder s c.pool.entries)).length < cbRetBuffer)
    (isInt : cbRetBuffer < 2 ^ 31) (enough : cbRetBuffer ≤ lpszRetBuffer.length)
    : Lists lpszRetBuffer cbRetBuffer (listEntries c' (some s) lpszRetBuffer cbRetBuffer)
          (idsUnder s c.pool.entries)
      ↔ idsOf (untilHeader c.pool.entries) = []
        ∨ ∃ name, c'.sectionName = some name ∧ name ≠ s := by
  have same := same_of_listCalls run
  have valid' := same.valid.trans valid
  have positive : 1 ≤ cbRetBuffer := by omega
  rw [← same.pool] at room ⊢
  by_cases top : idsOf (untilHeader c'.pool.entries) = []
  · have ids : listedIds c'.sectionName s c'.pool.entries = idsUnder s c'.pool.entries := by
      rw [listedIds, top, ite_self, List.nil_append]
    have listed := listEntries_eq valid' (fun _ => top) s lpszRetBuffer cbRetBuffer
    rw [ids] at listed
    exact iff_of_true ((lists_of_listing listed positive isInt enough).1 room) (.inl top)
  rw [or_iff_right top]
  cases remembered : c'.sectionName with
  | none =>
      refine iff_of_false ?_ (by simp)
      rintro ⟨c₁, returned, -⟩
      rw [listEntries_null valid' remembered top s positive enough] at returned
      contradiction
  | some name =>
      have listed :=
        listEntries_eq valid' (fun unknown => absurd (remembered.symm.trans unknown) (by simp)) s
          lpszRetBuffer cbRetBuffer
      obtain ⟨whole, others⟩ := lists_of_listing listed positive isInt enough
      by_cases same : name = s
      · refine iff_of_false (fun lists => ?_) (by simpa using same)
        have text := (others _ lists).2
        rw [listedIds, if_pos (remembered.trans (congrArg some same)), listText,
          listText, List.flatMap_append, List.self_eq_append_left, List.flatMap_eq_nil_iff] at text
        obtain ⟨id, others, first⟩ := List.exists_cons_of_ne_nil top
        have nothing := text id (by simp [first])
        simp at nothing
      · refine iff_of_true ?_ ⟨name, rfl, same⟩
        have ids : listedIds c'.sectionName s c'.pool.entries = idsUnder s c'.pool.entries := by
          rw [listedIds, remembered, if_neg (by simpa using same), List.nil_append]
        rw [ids] at whole
        exact whole room

/-- Witness: a listing of one section, after a listing of it has remembered another one. -/
theorem listEntries_after_calls_iff_other
    : ∃ c',
        Run ListStep (parseOf (text "k=v\n[a]\nb=c\n[s]\n"))
          [(parseOf (text "k=v\n[a]\nb=c\n[s]\n"), .sections [1, 1, 1, 1, 1] 5)] c'
        ∧ Lists [1, 1, 1] 3 (listEntries c' (some (text "a")) [1, 1, 1] 3) [text "b"] := by
  obtain ⟨c', returned, remembers⟩
      : ∃ c',
          ListStep (parseOf (text "k=v\n[a]\nb=c\n[s]\n")) (.sections [1, 1, 1, 1, 1] 5) c'
          ∧ c'.sectionName = some (text "s") :=
    ⟨_, rfl, rfl⟩
  have run := Run.start.extend returned
  exact ⟨c', run,
    (listEntries_after_calls_iff rfl run (by decide) (by decide) (by decide)).mpr
      (.inr ⟨_, remembers, by decide⟩)⟩

/-- A key before the first header is listed under the section that an earlier call ended in. -/
theorem listEntries_remembered
    : ¬ ∀ (c c' : Config) (calls : List (Config × ListCall)) (s buffer : Bytes) (cbRetBuffer : Int),
        c.valid
        → Run ListStep c calls c'
        → (listText (idsUnder s c.pool.entries)).length < cbRetBuffer
        → cbRetBuffer < 2 ^ 31
        → cbRetBuffer ≤ buffer.length
        → Lists buffer cbRetBuffer (listEntries c' (some s) buffer cbRetBuffer)
            (idsUnder s c.pool.entries) := by
  intro always
  obtain ⟨c', returned, wrong⟩
      : ∃ c',
          ListStep (parseOf (text "k=v\n[s]\na=b\n")) (.sections [1, 1, 1] 3) c'
          ∧ (listEntries c' (some (text "s")) [1, 1, 1] 3).map written = .ok (3, [107, 0, 97]) :=
    ⟨_, rfl, rfl⟩
  obtain ⟨c₁, listed, -⟩ :=
    always _ c' _ (text "s") [1, 1, 1] 3 rfl (Run.start.extend returned) (by decide) (by decide)
      (by decide)
  rw [listed] at wrong
  have length
      : (listText (idsUnder (text "s") (parseOf (text "k=v\n[s]\na=b\n")).pool.entries)).length
        = 3 :=
    congrArg Prod.fst (Except.ok.inj wrong)
  exact absurd length (by decide)

-----------------------------------------------------------------------------------------
-- What is listed and found
-----------------------------------------------------------------------------------------

/-- Names without NUL are known by their text. -/
theorem listText_injective {names names' : List Bytes} (nulFree : ∀ name ∈ names, NulFree name)
    (nulFree' : ∀ name ∈ names', NulFree name) (same : listText names = listText names')
    : names = names' := by
  induction names generalizing names' with
  | nil =>
      cases names' with
      | nil => rfl
      | cons name' names' => simp [listText] at same
  | cons name names ih =>
      cases names' with
      | nil => simp [listText] at same
      | cons name' names' =>
          obtain ⟨free, others⟩ := List.forall_mem_cons.mp nulFree
          obtain ⟨free', others'⟩ := List.forall_mem_cons.mp nulFree'
          have first {name : Bytes} (free : NulFree name) (names : List Bytes)
              : (listText (name :: names)).takeWhile (· != 0) = name := by
            rw [listText_cons, List.takeWhile_append_of_pos free.bne]
            simp
          have head : name = name' := by rw [← first free names, same, first free' names']
          subst head
          rw [listText_cons, listText_cons, List.append_cancel_left_eq, List.cons.injEq] at same
          exact congrArg (name :: ·) (ih others others' same.2)

/-- The ids of a name are those behind its first header and those behind the further ones. -/
theorem idsUnder_eq (s : Bytes) (es : List Entry)
    : idsUnder s es = idsOf (bodyOf es s) ++ repeatedIds s es := by
  induction es with
  | nil => rfl
  | cons e es ih =>
      rw [idsUnder, repeatedIds, bodyOf, sectionBody]
      split
      next => rfl
      next => exact ih

/-- An id that is listed is the id of an entry. -/
theorem mem_of_idsUnder {s id : Bytes} {es : List Entry} (member : id ∈ idsUnder s es)
    : ∃ e ∈ es, e.id = some id := by
  have ofEntry {e : Entry} {id : Bytes} (its : e.defineId = some id) : e.id = some id := by
    rw [CfgEntry.defineId] at its
    split at its
    next => exact its
    next => contradiction
  induction es with
  | nil => cases member
  | cons e es ih =>
      rw [idsUnder] at member
      have further (member : id ∈ idsUnder s es) : ∃ x ∈ e :: es, x.id = some id := by
        obtain ⟨x, found, its⟩ := ih member
        exact ⟨x, List.mem_cons_of_mem e found, its⟩
      split at member
      next =>
        rcases List.mem_append.mp member with here | later
        · obtain ⟨x, found, its⟩ := List.mem_filterMap.mp here
          exact ⟨x, List.mem_cons_of_mem e ((List.takeWhile_sublist _).subset found), ofEntry its⟩
        · exact further later
      next => exact further member

/-- An id of the first section that is a key without quotes is found there. -/
theorem keyOf_of_defineId {e : Entry} {k : Bytes} (plain : PlainId k) (its : e.defineId = some k)
    : e.keyOf = some k := by
  rw [CfgEntry.defineId] at its
  split at its
  next shown =>
    obtain ⟨noHeader, filled⟩ := shown
    obtain ⟨value, shown⟩ := Option.isSome_iff_exists.mp filled
    simp [CfgEntry.keyOf, CfgEntry.binding, noHeader, its, shown, plain.removeQuotes_eq]
  next => contradiction

/-- A search in a section returns 0 exactly when an entry of its body has the key. -/
theorem cfgFind_iff {c : Config} (valid : c.valid) (s k : Bytes)
    : (∃ found, cfgFind c (some s) (some k) = .ok (0, found))
      ↔ k ∈ (bodyOf c.pool.entries s).filterMap CfgEntry.keyOf := by
  have search := findValue_named valid s (some k)
  cases answer : lookupIn c.pool.entries s (some k) with
  | none =>
      rw [answer] at search
      obtain ⟨missed, returned⟩ := cfgFind_none search
      have missing := (lookupIn_eq_none_iff ..).mp answer
      refine iff_of_false ?_ ?_
      · rintro ⟨found, other⟩
        rw [returned] at other
        cases other
      · intro member
        obtain ⟨e, inside, key⟩ := List.mem_filterMap.mp member
        exact missing e inside key
  | some value =>
      rw [answer] at search
      obtain ⟨found, returned, -⟩ := cfgFind_some search
      refine iff_of_true ⟨found, returned⟩ ?_
      by_contra missing
      have none := (lookupIn_eq_none_iff c.pool.entries s k).mpr fun e inside key =>
        missing (List.mem_filterMap.mpr ⟨e, inside, key⟩)
      rw [answer] at none
      contradiction

/-- In a parsed configuration that begins with a header, and a buffer with room for the ids of a
section, all listed ids without quotes are found exactly when those behind a further header of the
name are keys of the first section as well.
-/
theorem listsFound_iff {image : Bytes} {c : Config} (parsed : Parsed image c)
    (nulFree : NulFree image) (begins : AtHeader c.pool.entries) {s lpszRetBuffer : Bytes}
    {cbRetBuffer : Int} (room : (listText (idsUnder s c.pool.entries)).length < cbRetBuffer)
    (isInt : cbRetBuffer < 2 ^ 31) (enough : cbRetBuffer ≤ lpszRetBuffer.length)
    : ListsFound c s lpszRetBuffer cbRetBuffer
      ↔ ∀ k ∈ repeatedIds s c.pool.entries,
          PlainId k → k ∈ (bodyOf c.pool.entries s).filterMap CfgEntry.keyOf := by
  obtain ⟨valid, -, entries⟩ := parsed.entries nulFree
  have top : idsOf (untilHeader c.pool.entries) = [] := by rw [untilHeader_atHeader begins]; rfl
  have ids : listedIds c.sectionName s c.pool.entries = idsUnder s c.pool.entries := by
    rw [listedIds, top, ite_self, List.nil_append]
  have listed := listEntries_eq valid (fun _ => top) s lpszRetBuffer cbRetBuffer
  rw [ids] at listed
  obtain ⟨whole, others⟩ := lists_of_listing listed (by omega) isInt enough
  have nulFreeIds : ∀ id ∈ idsUnder s c.pool.entries, NulFree id := by
    intro id member
    obtain ⟨e, found, its⟩ := mem_of_idsUnder member
    rw [entries] at found
    exact ((readable_of_parseImage found).2.id id its).nulFree
  have found {ret : Nat} {buffer : Bytes} {c' : Config}
      (returned : listEntries c (some s) lpszRetBuffer cbRetBuffer = .ok (ret, buffer, c'))
      (k : Bytes)
      : (∃ found, cfgFind c' (some s) (some k) = .ok (0, found))
        ↔ k ∈ (bodyOf c.pool.entries s).filterMap CfgEntry.keyOf := by
    have same := listWith_same listEntriesLoop_same returned
    rw [cfgFind_iff (same.valid.trans valid), same.pool]
  constructor
  · rintro ⟨ret, buffer, c', kept, returned, lists, nulFreeKept, allFound⟩ k member plain
    rw [← returned] at lists
    obtain rfl := listText_injective nulFreeKept nulFreeIds (others kept lists).2
    refine (found returned k).mp (allFound k ?_ plain)
    rw [idsUnder_eq]
    exact List.mem_append_right _ member
  · intro repeated
    obtain ⟨c', returned, fits⟩ := whole room
    refine ⟨_, _, c', idsUnder s c.pool.entries, returned, ⟨c', rfl, fits⟩, nulFreeIds, ?_⟩
    intro k member plain
    rw [idsUnder_eq] at member
    refine (found returned k).mpr ?_
    rcases List.mem_append.mp member with first | later
    · obtain ⟨e, inside, its⟩ := List.mem_filterMap.mp first
      exact List.mem_filterMap.mpr ⟨e, inside, keyOf_of_defineId plain its⟩
    · exact repeated k later plain

/-- Witness: a key of the first section that is repeated in a further one, in a buffer of five
bytes.
-/
theorem listsFound_iff_repeated
    : ListsFound (parseOf (text "[s]\na=1\n[s]\na=2\n")) (text "s") [1, 1, 1, 1, 1] 5 := by
  have parsed : Parsed (text "[s]\na=1\n[s]\na=2\n") (parseOf (text "[s]\na=1\n[s]\na=2\n")) :=
    parsed_parseOf (by decide)
  have begins : AtHeader (parseOf (text "[s]\na=1\n[s]\na=2\n")).pool.entries := by
    rintro e ⟨⟩
    rfl
  have both
      : ∀ k ∈ repeatedIds (text "s") (parseOf (text "[s]\na=1\n[s]\na=2\n")).pool.entries,
          k
            ∈ (bodyOf (parseOf (text "[s]\na=1\n[s]\na=2\n")).pool.entries (text "s")).filterMap
                CfgEntry.keyOf := by
    decide
  exact (listsFound_iff parsed (by decide) begins (by decide) (by decide) (by decide)).mpr
    fun k member _ => both k member

/-- A key of a further section of the name is listed and not found. -/
theorem not_listsFound_further
    : ¬ ∀ (image : Bytes) (c : Config) (s buffer : Bytes) (cbRetBuffer : Int),
        Parsed image c
        → NulFree image
        → AtHeader c.pool.entries
        → (listText (idsUnder s c.pool.entries)).length < cbRetBuffer
        → cbRetBuffer < 2 ^ 31
        → cbRetBuffer ≤ buffer.length
        → ListsFound c s buffer cbRetBuffer := by
  intro always
  have begins : AtHeader (parseOf (text "[s]\na=1\n[s]\nb=2\n")).pool.entries := by
    rintro e ⟨⟩
    rfl
  obtain ⟨ret, buffer, c', kept, returned, lists, nulFree, allFound⟩ :=
    always _ (parseOf (text "[s]\na=1\n[s]\nb=2\n")) (text "s") [1, 1, 1, 1, 1] 5
      (parsed_parseOf (by decide)) (by decide) begins (by decide) (by decide) (by decide)
  have computed
      : (listEntries (parseOf (text "[s]\na=1\n[s]\nb=2\n")) (some (text "s")) [1, 1, 1, 1, 1]
            5).map written
        = .ok (4, [97, 0, 98, 0, 0]) :=
    rfl
  rw [returned] at computed
  obtain ⟨rfl, rfl⟩ := Prod.mk.inj (Except.ok.inj computed)
  obtain ⟨c₁, shown, -⟩ := lists
  obtain ⟨length, shown⟩ := Prod.mk.inj (Except.ok.inj shown)
  obtain rfl : kept = [text "a", text "b"] := by
    have whole
        : listText [text "a", text "b"] ++ [0]
          = listText kept ++ 0 :: [1, 1, 1, 1, 1].drop ((listText kept).length + 1) :=
      (Prod.mk.inj shown).1
    have sameLength : (listText [text "a", text "b"]).length = (listText kept).length := length
    exact listText_injective nulFree (by decide) (List.append_inj whole sameLength).1.symm
  have same := listWith_same listEntriesLoop_same returned
  have found := (cfgFind_iff same.valid (text "s") (text "b")).mp
    (allFound (text "b") (by decide) ⟨by decide, by decide⟩)
  rw [same.pool] at found
  exact absurd found (by decide)

end Cvos.CfgFile

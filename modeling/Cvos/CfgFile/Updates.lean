import Cvos.CfgFile.OutputMeaning
import Cvos.CfgFile.Processes

/-! Whether an update is lost: a process that rewrites the very text that it has read keeps the
values of all others, and a process that rewrites an older text does not.
-/

namespace Cvos.CfgFile

open Cvos.Lib

/-- The arguments of the call can be read back. -/
structure ReadableWrite (w : Write) : Prop where
  name : ReadableName w.sectionName
  nameLine : OneLine w.sectionName
  key : ReadableId w.entry
  keyLine : OneLine w.entry
  value : ∀ comment, ReadableValue w.valptr comment
  valueLine : OneLine w.valptr

/-- A value that can be read back does not end in a blank. -/
theorem ReadableWrite.trimBlank_eq {w : Write} (readable : ReadableWrite w)
    : trimBlank w.valptr = w.valptr :=
  trimBlank_of_rtrimText readable.valueLine.nulFree ((readable.value (some [])).closed rfl).2

section Sections

variable {rest rest' : List Entry} (continued : untilHeader rest = untilHeader rest')

include continued in
/-- Behind the same entries, what has the same entries before the next header still does. -/
theorem untilHeader_append_congr (es : List Entry)
    : untilHeader (es ++ rest) = untilHeader (es ++ rest') := by
  induction es with
  | nil => exact continued
  | cons e es ih =>
      rw [List.cons_append, List.cons_append, untilHeader_cons, untilHeader_cons, ih]

include continued in
/-- Behind the same entries, what holds the same section still does. -/
theorem sectionBody_append_congr {s : Bytes} (same : sectionBody rest s = sectionBody rest' s)
    (es : List Entry)
    : sectionBody (es ++ rest) s = sectionBody (es ++ rest') s := by
  induction es with
  | nil => exact same
  | cons e es ih =>
      rw [List.cons_append, List.cons_append, sectionBody, sectionBody, ih,
        untilHeader_append_congr continued es]

end Sections

/-- What stands in a section is not in any other one. -/
theorem SectionAt.sectionBody_other {es : List Entry} {s s' : Bytes} {before : List Entry}
    {header : Entry} {body after : List Entry} (opened : SectionAt es s before header body after)
    (other : s' ≠ s) {body' : List Entry} (inside : NoHeader body')
    : sectionBody (before ++ header :: (body' ++ after)) s' = sectionBody es s' := by
  have passed (rest : List Entry) : sectionBody (header :: rest) s' = sectionBody rest s' := by
    rw [sectionBody, if_neg (by simpa [opened.named] using Ne.symm other)]
  have ends (rest : List Entry) : untilHeader (header :: rest) = [] := by
    rw [untilHeader_cons, if_pos (by simp [CfgEntry.isHeader, opened.named])]
  rw [opened.parts]
  refine sectionBody_append_congr (by rw [ends, ends]) ?_ before
  rw [passed, passed, sectionBody_append (inside.noSection s'),
    sectionBody_append (opened.inside.noSection s')]

section Edits

variable {s k v : Bytes} {es es' : List Entry} (edited : Edited s es (some k) (some v) es')

include edited in
/-- After a write of a value its section has the key with the value. -/
theorem Edited.mem_target
    : ∃ e ∈ (sectionBody es' s).getD [], e.id = some k ∧ e.value = some v := by
  cases edited with
  | create missing =>
      refine ⟨defineEntry k v, ?_, rfl, rfl⟩
      rw [sectionBody_append missing]
      simp [sectionBody, untilHeader, CfgEntry.isHeader, defineEntry]
  | ignore missing delete => simp at delete
  | @update _ _ before header after pre e post opened earlier key =>
      have inside := opened.inside.setValue (some v)
      refine ⟨{ e with value := some v }, ?_, key, rfl⟩
      rw [(opened.exchange inside).sectionBody_eq]
      simp
  | @add _ _ before header body after opened new =>
      have inside := opened.inside.define k v
      refine ⟨defineEntry k v, ?_, rfl, rfl⟩
      rw [(opened.exchange inside).sectionBody_eq]
      simp

include edited in
/-- After a write, each section has the entries it had, but for those with the key written. -/
theorem Edited.mem_other {s' : Bytes} {x : Entry} (member : x ∈ (sectionBody es s').getD [])
    (other : s' = s → x.id ≠ some k)
    : x ∈ (sectionBody es' s').getD [] := by
  cases edited with
  | create missing =>
      have elsewhere : s' ≠ s := by
        rintro rfl
        have nowhere := sectionBody_append missing []
        rw [List.append_nil] at nowhere
        rw [nowhere] at member
        contradiction
      have continued
          : untilHeader [⟨some s, none, none, none⟩, defineEntry k v] = untilHeader [] := rfl
      rw [sectionBody_append_congr continued
          (by simp [sectionBody, defineEntry, Ne.symm elsewhere]),
        List.append_nil]
      exact member
  | ignore missing delete => exact member
  | @update _ _ before header after pre e post opened earlier key =>
      have inside := opened.inside.setValue (some v)
      by_cases same : s' = s
      · subst same
        rw [opened.sectionBody_eq] at member
        rw [(opened.exchange inside).sectionBody_eq]
        have other := other rfl
        simp only [Option.getD_some, List.mem_append, List.mem_cons] at member ⊢
        rcases member with front | rfl | behind
        · exact Or.inl front
        · exact absurd key other
        · exact Or.inr (Or.inr behind)
      · rwa [opened.sectionBody_other same inside]
  | @add _ _ before header body after opened new =>
      have inside := opened.inside.define k v
      by_cases same : s' = s
      · subst same
        rw [opened.sectionBody_eq] at member
        rw [(opened.exchange inside).sectionBody_eq]
        exact List.mem_append_left _ member
      · rwa [opened.sectionBody_other same inside]

end Edits

/-- A printed section has the keys and values it had, when they do not end in a blank. -/
theorem contains_printed {es : List Entry} (readable : ∀ e ∈ es, Readable e ∧ EntryOneLine e)
    {content : Bytes} (printed : content = outputFrom false es) {w : Write}
    (trimmed : trimBlank w.valptr = w.valptr)
    (found
      : ∃ e ∈ (sectionBody es w.sectionName).getD [], e.id = some w.entry ∧ e.value = some w.valptr)
    : Contains content w := by
  obtain ⟨e, member, key, value⟩ := found
  rw [Contains, printed, parseImage_outputFrom false fun e member => (readable e member).2,
    sectionBody_filterMap_reread readable]
  cases opened : sectionBody es w.sectionName with
  | none =>
      rw [opened] at member
      contradiction
  | some body =>
      rw [opened, Option.getD_some] at member
      obtain ⟨readable, oneLine⟩ := readable e ((mem_of_sectionBody opened).1 member)
      cases readable with
      | header | comment | continued => contradiction
      | define named readable =>
          obtain rfl := Option.some.inj key
          obtain rfl := Option.some.inj value
          obtain ⟨comment', read⟩ := reread_define named readable (oneLine.value _ rfl)
          exact ⟨_, List.mem_filterMap.mpr ⟨_, member, read⟩, rfl, congrArg some trimmed⟩

section Rewrites

variable {w : Write} {content content' : Bytes} (rewritten : Rewritten w content content')
  (readable : ReadableWrite w)

include rewritten readable in
/-- A rewritten text is the print of entries that can be read back. -/
theorem Rewritten.edited_readable
    : ∃ es,
        Edited w.sectionName (parseImage content) (some w.entry) (some w.valptr) es
        ∧ content' = outputFrom false es
        ∧ ∀ e ∈ es, Readable e ∧ EntryOneLine e := by
  have none (s : Bytes) (found : (none : Option Bytes) = some s) : OneLine s := by contradiction
  obtain ⟨es, edited, printed⟩ := rewritten.edited
  refine ⟨es, edited, printed, edited.forall_entries (fun e member => readable_of_parseImage member)
    ⟨.header readable.name, ?_, none, none, none⟩
    ⟨.define readable.key (readable.value _), none, ?_, ?_, none⟩ ?_⟩
  · rintro s ⟨⟩
    exact readable.nameLine
  · rintro s ⟨⟩
    exact readable.keyLine
  · rintro s ⟨⟩
    exact readable.valueLine
  · rintro e ⟨known, oneLine⟩ key
    cases known with
    | header | comment | continued => contradiction
    | define named _ =>
        refine ⟨.define named (readable.value _), { oneLine with value := ?_ }⟩
        rintro s ⟨⟩
        exact readable.valueLine

include rewritten readable in
/-- A rewritten text has the value that was written. -/
theorem Rewritten.contains : Contains content' w := by
  obtain ⟨es, edited, printed, readable'⟩ := rewritten.edited_readable readable
  exact contains_printed readable' printed readable.trimBlank_eq edited.mem_target

include rewritten readable in
/-- A rewritten text has all other values that the text had. -/
theorem Rewritten.contains_other {w' : Write} (readable' : ReadableWrite w')
    (other : w'.target ≠ w.target) (contained : Contains content w')
    : Contains content' w' := by
  obtain ⟨es, edited, printed, known⟩ := rewritten.edited_readable readable
  obtain ⟨e, member, key, value⟩ := contained
  refine contains_printed known printed readable'.trimBlank_eq
    ⟨e, edited.mem_other member ?_, key, value⟩
  intro same
  rw [key, ne_eq, Option.some.injEq]
  exact fun entry => other (Prod.ext same entry)

end Rewrites

/-- The process has rewritten the file. -/
def Pc.done : Pc → Bool
  | .written .. => true
  | .finished ret => ret == 0
  | _ => false

/-- What the configuration of a process has to do with the bytes that the process has read. -/
def Pc.Known (w : Write) : Pc → Prop
  | .refreshed base c | .loaded base c => Parsed base c
  | .changed base c | .writing base c | .truncated base c | .written base c =>
      c.valid ∧ c.dirty ∧ Rewritten w base (cfgOutput c)
  | _ => True

section Systems

variable {Proc : Type} [DecidableEq Proc] {args : Proc → Write} {s : System Proc} {p : Proc}

@[simp]
theorem System.move_file (file : FileData) (pc : Pc) : (s.move p file pc).file = file := rfl

@[simp]
theorem System.move_pcs_self (file : FileData) (pc : Pc) : (s.move p file pc).pcs p = pc :=
  Function.update_self ..

theorem System.move_pcs_other (file : FileData) (pc : Pc) {q : Proc} (other : q ≠ p)
    : (s.move p file pc).pcs q = s.pcs q :=
  Function.update_of_ne other ..

/-- Of two moves of a process the second one counts. -/
@[simp]
theorem System.move_move (file file' : FileData) (pc pc' : Pc)
    : (s.move p file pc).move p file' pc' = s.move p file' pc' := by
  simp [System.move]

/-- A write lock is a lock. -/
theorem Pc.holdsLock_of_holdsWrite {pc : Pc} (holds : pc.holdsWrite) : pc.holdsLock := by
  cases pc <;> first | exact holds | rfl

omit [DecidableEq Proc] in
/-- A process that may write may also read. -/
theorem System.freeToRead_of_freeToWrite (free : s.freeToWrite p) : s.freeToRead p := by
  intro q other
  by_contra holds
  have locked := Pc.holdsLock_of_holdsWrite (Bool.not_eq_false _ |>.mp holds)
  rw [free q other] at locked
  contradiction

variable (args) in
/-- What holds of the file and the processes as long as each process rewrites what it has
read. While a process has the file truncated, the values are those of the bytes it has read.
-/
structure Invariant (s : System Proc) : Prop where
  exclusive : ∀ p q, p ≠ q → (s.pcs p).holdsWrite → (s.pcs q).holdsLock = false
  known : ∀ p, (s.pcs p).Known (args p)
  unchanged : ∀ p base c, s.pcs p = .writing base c → s.file.content = base
  saved
    : (∀ p base c, s.pcs p ≠ .truncated base c)
      → ∀ p, (s.pcs p).done → Contains s.file.content (args p)
  kept : ∀ q base c, s.pcs q = .truncated base c → ∀ p, (s.pcs p).done → Contains base (args p)

omit [DecidableEq Proc] in
/-- Before the first step no process has written anything. -/
theorem Invariant.started (file : FileData) : Invariant args (.started file) where
  exclusive _ _ _ holds := by contradiction
  known _ := trivial
  unchanged _ _ _ writing := by contradiction
  saved _ _ done := by contradiction
  kept _ _ _ truncated := by contradiction

/-- Two processes that hold a lock, one of them the write lock, are the same. -/
theorem Invariant.eq_of_locks (holds : Invariant args s) {q : Proc}
    (write : (s.pcs p).holdsWrite) (lock : (s.pcs q).holdsLock)
    : p = q := by
  by_contra other
  rw [holds.exclusive p q other write] at lock
  contradiction

/-- The locks stay exclusive when a process only takes a lock that is free. -/
theorem Invariant.exclusive_move (holds : Invariant args s) (file : FileData) {pc : Pc}
    (reads : pc.holdsLock → (s.pcs p).holdsLock ∨ s.freeToRead p)
    (writes : pc.holdsWrite → (s.pcs p).holdsWrite ∨ s.freeToWrite p) (q r : Proc)
    (different : q ≠ r) (write : ((s.move p file pc).pcs q).holdsWrite)
    : ((s.move p file pc).pcs r).holdsLock = false := by
  by_contra lock
  rw [Bool.not_eq_false] at lock
  by_cases here : q = p
  · subst here
    rw [System.move_pcs_self] at write
    rw [System.move_pcs_other _ _ different.symm] at lock
    rcases writes write with held | free
    · exact different (holds.eq_of_locks held lock)
    · rw [free r different.symm] at lock
      contradiction
  · rw [System.move_pcs_other _ _ here] at write
    by_cases there : r = p
    · subst there
      rw [System.move_pcs_self] at lock
      rcases reads lock with held | free
      · exact different (holds.eq_of_locks write held)
      · rw [free q different] at write
        contradiction
    · rw [System.move_pcs_other _ _ there] at lock
      exact different (holds.eq_of_locks write lock)

/-- What is known of a process that has moved, and of the others. -/
theorem Invariant.known_move (holds : Invariant args s) (file : FileData) {pc : Pc}
    (known : pc.Known (args p)) (q : Proc)
    : ((s.move p file pc).pcs q).Known (args q) := by
  by_cases here : q = p
  · subst here
    rwa [System.move_pcs_self]
  · rw [System.move_pcs_other _ _ here]
    exact holds.known q

/-- A step that leaves the file, and neither starts nor ends its rewriting, keeps the invariant.
-/
theorem Invariant.move (holds : Invariant args s) {pc : Pc}
    (reads : pc.holdsLock → (s.pcs p).holdsLock ∨ s.freeToRead p)
    (writes : pc.holdsWrite → (s.pcs p).holdsWrite ∨ s.freeToWrite p)
    (known : pc.Known (args p))
    (unchanged : ∀ base c, pc = .writing base c → s.file.content = base)
    (done : pc.done → (s.pcs p).done)
    (before : ∀ base c, s.pcs p ≠ .truncated base c) (after : ∀ base c, pc ≠ .truncated base c)
    : Invariant args (s.move p s.file pc) := by
  have finished (q : Proc) (finished : ((s.move p s.file pc).pcs q).done) : (s.pcs q).done := by
    by_cases here : q = p
    · subst here
      rw [System.move_pcs_self] at finished
      exact done finished
    · rwa [System.move_pcs_other _ _ here] at finished
  refine ⟨holds.exclusive_move _ reads writes, holds.known_move _ known, ?_, ?_, ?_⟩
  · intro q base c writing
    by_cases here : q = p
    · subst here
      rw [System.move_pcs_self] at writing
      exact unchanged base c writing
    · rw [System.move_pcs_other _ _ here] at writing
      exact holds.unchanged q base c writing
  · intro whole q done
    refine holds.saved ?_ q (finished q done)
    intro r base c truncated
    by_cases here : r = p
    · exact before base c (here ▸ truncated)
    · exact whole r base c (by rwa [System.move_pcs_other _ _ here])
  · intro q base c truncated r done
    by_cases here : q = p
    · subst here
      rw [System.move_pcs_self] at truncated
      exact absurd truncated (after base c)
    · rw [System.move_pcs_other _ _ here] at truncated
      exact holds.kept q base c truncated r (finished r done)

/-- When a process that holds the write lock moves, no other process holds a lock. -/
theorem Invariant.eq_mover (holds : Invariant args s) (held : (s.pcs p).holdsWrite)
    {file : FileData} {pc : Pc} {q : Proc} (lock : ((s.move p file pc).pcs q).holdsLock)
    : q = p := by
  by_contra other
  rw [System.move_pcs_other _ _ other] at lock
  exact other (holds.eq_of_locks held lock).symm

/-- Truncating the file keeps the invariant: the values are in the bytes that the process has
read.
-/
theorem Invariant.truncate (holds : Invariant args s) {base : Bytes} {c : Config}
    (writing : s.pcs p = .writing base c) (time : Nat)
    : Invariant args (s.move p ⟨[], time⟩ (.truncated base c)) := by
  have held : (s.pcs p).holdsWrite := by rw [writing]; rfl
  have known := holds.known p
  rw [writing] at known
  refine ⟨holds.exclusive_move _ (fun _ => Or.inl (Pc.holdsLock_of_holdsWrite held))
    (fun _ => Or.inl held), holds.known_move _ known, ?_, ?_, ?_⟩
  · intro q base' c' elsewhere
    obtain rfl := holds.eq_mover held (by rw [elsewhere]; rfl)
    rw [System.move_pcs_self] at elsewhere
    contradiction
  · intro whole
    exact absurd (System.move_pcs_self ..) (whole p base c)
  · intro q base' c' truncated r done
    obtain rfl := holds.eq_mover held (by rw [truncated]; rfl)
    rw [System.move_pcs_self] at truncated
    obtain ⟨rfl, -⟩ := Pc.truncated.inj truncated
    rw [← holds.unchanged q base c writing]
    refine holds.saved ?_ r ?_
    · intro r base' c' truncated
      obtain rfl := holds.eq_of_locks held (q := r) (by rw [truncated]; rfl)
      rw [writing] at truncated
      contradiction
    · by_cases there : r = q
      · subst there
        rw [System.move_pcs_self] at done
        contradiction
      · rwa [System.move_pcs_other _ _ there] at done

/-- Writing the configuration into the truncated file keeps the invariant: it has the values of
the bytes that the process has read, and its own.
-/
theorem Invariant.output (holds : Invariant args s)
    (different : ∀ p q, p ≠ q → (args p).target ≠ (args q).target)
    (readable : ∀ p, ReadableWrite (args p)) {base : Bytes} {c : Config}
    (truncated : s.pcs p = .truncated base c) (time : Nat)
    : Invariant args (s.move p ⟨cfgOutput c, time⟩ (.written base c)) := by
  have held : (s.pcs p).holdsWrite := by rw [truncated]; rfl
  have known := holds.known p
  rw [truncated] at known
  obtain ⟨-, -, rewritten⟩ := id known
  refine ⟨holds.exclusive_move _ (fun _ => Or.inl (Pc.holdsLock_of_holdsWrite held))
    (fun _ => Or.inl held), holds.known_move _ known, ?_, ?_, ?_⟩
  · intro q base' c' writing
    obtain rfl := holds.eq_mover held (by rw [writing]; rfl)
    rw [System.move_pcs_self] at writing
    contradiction
  · intro _ q done
    by_cases here : q = p
    · subst here
      exact rewritten.contains (readable q)
    · rw [System.move_pcs_other _ _ here] at done
      exact rewritten.contains_other (readable p) (readable q) (different q p here)
        (holds.kept p base c truncated q done)
  · intro q base' c' elsewhere
    obtain rfl := holds.eq_mover held (by rw [elsewhere]; rfl)
    rw [System.move_pcs_self] at elsewhere
    contradiction

/-- A step keeps the invariant if a write lock is only taken for the bytes that were read, and a
configuration only changed where there is room.
-/
theorem Invariant.step (holds : Invariant args s)
    (different : ∀ p q, p ≠ q → (args p).target ≠ (args q).target)
    (readable : ∀ p, ReadableWrite (args p)) {label : Proc × Action} {s' : System Proc}
    (taken : Step args s label s') (fresh : Fresh s label) (roomy : Roomy args s label)
    : Invariant args s' := by
  cases taken with
  | @lockRead p start free =>
      apply holds.move <;> simp_all [Pc.holdsLock, Pc.holdsWrite, Pc.Known, Pc.done]
  | @refresh p sys c reading refreshed =>
      have known : Parsed s.file.content c := (cfgRefresh_ok refreshed).2
      apply holds.move <;> simp_all [Pc.holdsLock, Pc.holdsWrite, Pc.Known, Pc.done]
  | @unlockRead p base c refreshed =>
      have known := holds.known p
      rw [refreshed] at known
      apply holds.move <;> simp_all [Pc.holdsLock, Pc.holdsWrite, Pc.Known, Pc.done]
  | @initFails p opening =>
      rcases opening with start | reading <;>
        apply holds.move <;> simp_all [Pc.holdsLock, Pc.holdsWrite, Pc.Known, Pc.done]
  | @change p base c ret c' loaded written =>
      have known := holds.known p
      rw [loaded] at known
      obtain ⟨valid, -, -⟩ := known.entries known.nulFree
      obtain ⟨-, valid', dirty, -⟩ := cfgWrite_edited valid written
      have known' : (Pc.changed base c').Known (args p) :=
        ⟨valid', dirty rfl rfl, c, ret, c', known, written, rfl⟩
      apply holds.move <;> simp_all [Pc.holdsLock, Pc.holdsWrite, Pc.done]
  | @overrun p base c loaded leaves c' =>
      have known := holds.known p
      rw [loaded] at known
      obtain ⟨valid, -, -⟩ := known.entries known.nulFree
      obtain ⟨result, written⟩ := (cfgWrite_returns_iff valid _ _ _).mpr (roomy rfl base c loaded)
      exact absurd written (leaves result)
  | @notDirty p base c changed valid clean =>
      have known := holds.known p
      rw [changed] at known
      rw [known.2.1] at clean
      contradiction
  | @lockWrite p base c changed valid dirty free =>
      have known := holds.known p
      have same := fresh rfl base c changed
      have free' := System.freeToRead_of_freeToWrite free
      rw [changed] at known
      apply holds.move <;> simp_all [Pc.holdsLock, Pc.holdsWrite, Pc.Known, Pc.done]
  | notValid changed | openFails changed | lockFails changed | fopenFails changed =>
      apply holds.move <;> simp_all [Pc.holdsLock, Pc.holdsWrite, Pc.Known, Pc.done]
  | truncate writing time => exact holds.truncate writing time
  | output truncated time => exact holds.output different readable truncated time
  | unlockWrite written =>
      apply holds.move <;> simp_all [Pc.holdsLock, Pc.holdsWrite, Pc.Known, Pc.done]

/-- A process reads the whole file and changes its configuration. -/
theorem run_open {first : System Proc} {trace : List (System Proc × Proc × Action)}
    (run : Run (Step args) first trace s) (start : s.pcs p = .start) (free : s.freeToRead p)
    {sys : SysCalls} {c c' : Config} {ret : Int}
    (refreshed : cfgRefresh sys (some s.file) cfgFreeimage = .ok (0, c))
    (written
      : cfgWrite c (some (args p).sectionName) (some (args p).entry) (some (args p).valptr)
        = .ok (ret, c'))
    : ∃ more,
        Run (Step args) first (trace ++ more) (s.move p s.file (.changed s.file.content c'))
        ∧ ∀ taken ∈ more, Fresh taken.1 taken.2 ∧ Roomy args taken.1 taken.2 := by
  have locked := run.extend (.lockRead start free)
  have read := locked.extend (.refresh (System.move_pcs_self ..) refreshed)
  have unlocked := read.extend (.unlockRead (System.move_pcs_self ..))
  have changed := unlocked.extend (.change (System.move_pcs_self ..) written)
  simp only [System.move_move, System.move_file, List.append_assoc] at changed
  have parsed := (cfgRefresh_ok refreshed).2
  obtain ⟨valid, -, -⟩ := parsed.entries parsed.nulFree
  have room := (cfgWrite_returns_iff valid _ _ _).mp ⟨_, written⟩
  refine ⟨_, changed, ?_⟩
  simpa [Fresh, Roomy] using room

/-- A process writes its configuration back. -/
theorem run_commit {first : System Proc} {trace : List (System Proc × Proc × Action)}
    (run : Run (Step args) first trace s) {base : Bytes} {c : Config}
    (changed : s.pcs p = .changed base c) (valid : c.valid) (dirty : c.dirty)
    (free : s.freeToWrite p) (time : Nat)
    : ∃ more,
        Run (Step args) first (trace ++ more) (s.move p ⟨cfgOutput c, time⟩ (.finished 0))
        ∧ (s.file.content = base
          → ∀ taken ∈ more, Fresh taken.1 taken.2 ∧ Roomy args taken.1 taken.2) := by
  have locked := run.extend (.lockWrite changed valid dirty free)
  have truncated := locked.extend (.truncate (System.move_pcs_self ..) time)
  have written := truncated.extend (.output (System.move_pcs_self ..) time)
  have returned := written.extend (.unlockWrite (System.move_pcs_self ..))
  simp only [System.move_move, System.move_file, List.append_assoc] at returned
  refine ⟨_, returned, fun same => ?_⟩
  simp [Fresh, Roomy, changed, same]

/-- No update is lost when each process, at the time it takes the write lock, finds the bytes in
the file that it has read, and has had room in the array for its key.
-/
theorem contains_of_fresh {file : FileData} {trace : List (System Proc × Proc × Action)}
    (run : Run (Step args) (.started file) trace s)
    (different : ∀ p q, p ≠ q → (args p).target ≠ (args q).target)
    (readable : ∀ p, ReadableWrite (args p))
    (careful : ∀ taken ∈ trace, Fresh taken.1 taken.2 ∧ Roomy args taken.1 taken.2)
    (returned : ∀ p, s.pcs p = .finished 0) (p : Proc)
    : Contains s.file.content (args p) := by
  have holds : Invariant args s :=
    run.invariant (Invariant args) (.started file) fun member taken holds =>
      holds.step different readable taken (careful _ member).1 (careful _ member).2
  refine holds.saved ?_ p (by rw [returned p]; rfl)
  intro q base c truncated
  rw [returned q] at truncated
  contradiction

end Systems

/-- Two processes that write two keys of a section. -/
def twoKeys (second : Bool) : Write :=
  if second then ⟨text "s", text "b", text "2"⟩ else ⟨text "s", text "a", text "1"⟩

/-- Witness: the second process reads the file when the first one has written it. -/
theorem contains_of_fresh_inTurn
    : ∃ trace s,
        Run (Step twoKeys) (.started ⟨text "[s]\n", 0⟩) trace s
        ∧ (∀ p, s.pcs p = .finished 0)
        ∧ ∀ p, Contains s.file.content (twoKeys p) := by
  have readable (p : Bool) : ReadableWrite (twoKeys p) := by
    cases p
    all_goals
      refine ⟨⟨by decide, ?_, by decide, by decide⟩, by decide, ⟨?_, by decide, by decide⟩,
        by decide, fun comment => ⟨?_, by decide, fun _ => by decide⟩, by decide⟩
      all_goals
        rintro c ⟨⟩
        decide
  have started : Run (Step twoKeys) (.started ⟨text "[s]\n", 0⟩) [] _ := .start
  obtain ⟨_, opened, fresh₁⟩ :=
    run_open (p := false) started rfl (fun _ _ => rfl)
      (show cfgRefresh (.succeed 0) _ _ = .ok (0, _) from rfl) rfl
  obtain ⟨_, written, fresh₂⟩ := run_commit opened (System.move_pcs_self ..) rfl rfl
    (by rintro (_ | _) other <;> first | contradiction | rfl) 0
  obtain ⟨_, opened', fresh₃⟩ :=
    run_open (p := true) written rfl (by rintro (_ | _) other <;> first | contradiction | rfl)
      (show cfgRefresh (.succeed 0) _ _ = .ok (0, _) from rfl) rfl
  obtain ⟨_, written', fresh₄⟩ := run_commit opened' (System.move_pcs_self ..) rfl rfl
    (by rintro (_ | _) other <;> first | contradiction | rfl) 0
  refine ⟨_, _, written', ?_, contains_of_fresh written' (by decide) readable ?_ ?_⟩
  · rintro (_ | _) <;> rfl
  · simp only [List.nil_append, List.forall_mem_append]
    exact ⟨⟨⟨fresh₁, fresh₂ rfl⟩, fresh₃⟩, fresh₄ rfl⟩
  · rintro (_ | _) <;> rfl

/-- The first value is lost when both processes have read the file before either one writes it.
-/
theorem not_contains_of_stale
    : ¬ ∀ (args : Bool → Write) (file : FileData) trace s,
        Run (Step args) (.started file) trace s
        → (args false).target ≠ (args true).target
        → (∀ p, s.pcs p = .finished 0)
        → ∀ p, Contains s.file.content (args p) := by
  intro kept
  have started : Run (Step twoKeys) (.started ⟨text "[s]\n", 0⟩) [] _ := .start
  obtain ⟨_, opened, -⟩ :=
    run_open (p := false) started rfl (fun _ _ => rfl)
      (show cfgRefresh (.succeed 0) _ _ = .ok (0, _) from rfl) rfl
  obtain ⟨_, opened', -⟩ :=
    run_open (p := true) opened rfl (by rintro (_ | _) other <;> first | contradiction | rfl)
      (show cfgRefresh (.succeed 0) _ _ = .ok (0, _) from rfl) rfl
  obtain ⟨_, written, -⟩ := run_commit (p := false) opened' rfl rfl rfl
    (by rintro (_ | _) other <;> first | contradiction | rfl) 0
  obtain ⟨_, written', -⟩ := run_commit (p := true) written rfl rfl rfl
    (by rintro (_ | _) other <;> first | contradiction | rfl) 0
  have lost := kept twoKeys _ _ _ written' (by decide) (by rintro (_ | _) <;> rfl) false
  revert lost
  decide

end Cvos.CfgFile

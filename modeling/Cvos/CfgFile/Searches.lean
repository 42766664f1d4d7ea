import Cvos.CfgFile.FileCycle
import Cvos.Lib.Transition
import Mathlib.Data.List.TakeWhile

/-! What `cfg_find` delivers. In a named section it is the first binding of the key, whatever calls
have moved the cursor before; without a section it misses the binding that stands first.
-/

namespace Cvos.CfgFile

open Cvos.Lib

/-- The search returns 0 at an entry with the value, or -1 if there is none. -/
def Answers (search : Checked (Int × Config)) (value : Option (Option Bytes)) : Prop :=
  ∃ ret c,
    search = .ok (ret, c)
    ∧ match value with
      | some value => ret = 0 ∧ c.value = value
      | none => ret = -1

/-- The first visible entry gives the key no value, or the entries behind it, up to the next header,
give it the same one first.
-/
def RepeatsFirst (es : List Entry) (k : Bytes) : Prop :=
  match es.dropWhile (fun e => !e.visible) with
  | [] => True
  | first :: rest =>
      ∀ value, first.valueOf k = some value → lookup (untilHeader rest) k = some value

/-- The loop of `cfg_next_section`; each entry lets it go on at most once. -/
def nextSectionLoop : Nat → Config → Checked (Int × Config)
  | 0, _ => .error .diverges
  | bound + 1, c =>
      match cfgNextentry c with
      | (0, c) => if c.type = .cfgSection then .ok (0, c) else nextSectionLoop bound c
      | (_, c) => .ok (-1, c)

/-- `cfg_next_section` -/
def cfgNextSection (c : Config) : Checked (Int × Config) :=
  nextSectionLoop (c.pool.entries.length + 1) c

/-- A call that moves the cursor. -/
inductive CursorCall where
  | rewind
  | nextentry
  | nextSection
  | find (sectionName id : Option Bytes)

/-- What the call returns and the configuration it leaves. -/
def CursorCall.run : CursorCall → Config → Checked (Int × Config)
  | rewind, c => .ok (cfgRewind c)
  | nextentry, c => .ok (cfgNextentry c)
  | nextSection, c => cfgNextSection c
  | find sectionName id, c => cfgFind c sectionName id

/-- The call returns, with the second configuration. -/
def CursorStep (c : Config) (call : CursorCall) (c' : Config) : Prop :=
  ∃ ret, call.run c = .ok (ret, c')

/-- The second configuration holds the same entries, and is valid if the first one is. -/
structure SameEntries (c c' : Config) : Prop where
  valid : c'.valid = c.valid
  pool : c'.pool = c.pool

/-- A search answers what a caller learns from it. -/
theorem answers_cfgFind {c : Config} {sectionName id : Option Bytes}
    {value : Option (Option Bytes)}
    : Answers (cfgFind c sectionName id) value ↔ findValue c sectionName id = .ok value := by
  constructor
  · rintro ⟨ret, found, returned, answer⟩
    rw [findValue, returned, Checked.ok_bind]
    cases value with
    | none =>
        obtain rfl : ret = -1 := answer
        rfl
    | some value =>
        obtain ⟨rfl, delivers⟩ : ret = 0 ∧ found.value = value := answer
        rw [← delivers]
        rfl
  · intro learns
    cases value with
    | none =>
        obtain ⟨found, returned⟩ := cfgFind_none learns
        exact ⟨-1, found, returned, rfl⟩
    | some value =>
        obtain ⟨found, returned, delivers⟩ := cfgFind_some learns
        exact ⟨0, found, returned, rfl, delivers⟩

/-- Nothing has changed. -/
theorem SameEntries.refl (c : Config) : SameEntries c c := ⟨rfl, rfl⟩

/-- What two changes keep, both keep together. -/
theorem SameEntries.trans {c c' c'' : Config} (first : SameEntries c c')
    (second : SameEntries c' c'')
    : SameEntries c c'' :=
  ⟨second.valid.trans first.valid, second.pool.trans first.pool⟩

/-- Moving to the next entry keeps the entries. -/
theorem nextentryFrom_same (rest : List Entry) (c : Config)
    : SameEntries c (nextentryFrom c rest).2 := by
  induction rest generalizing c with
  | nil => exact ⟨rfl, rfl⟩
  | cons e rest ih =>
      obtain ⟨sectionName, id, value, comment⟩ := e
      cases sectionName with
      | some name => exact ⟨rfl, rfl⟩
      | none =>
          cases value with
          | some value => cases id <;> exact ⟨rfl, rfl⟩
          | none =>
              have passed : SameEntries c { c with cursor := c.cursor + 1 } := ⟨rfl, rfl⟩
              exact passed.trans (ih _)

/-- `cfg_nextentry` keeps the entries. -/
theorem cfgNextentry_same (c : Config) : SameEntries c (cfgNextentry c).2 := by
  rw [cfgNextentry]
  split
  next => exact .refl c
  next =>
    have cleared : SameEntries c { c with type := .cfgError, id := none, value := none } :=
      ⟨rfl, rfl⟩
    exact cleared.trans (nextentryFrom_same _ _)

/-- `cfg_rewind` keeps the entries. -/
theorem cfgRewind_same (c : Config) : SameEntries c (cfgRewind c).2 := by
  rw [cfgRewind]
  split <;> exact ⟨rfl, rfl⟩

/-- `cfg_next_section` keeps the entries. -/
theorem nextSectionLoop_same {bound : Nat} {c c' : Config} {ret : Int}
    (returned : nextSectionLoop bound c = .ok (ret, c'))
    : SameEntries c c' := by
  induction bound generalizing c with
  | zero => simp [nextSectionLoop] at returned
  | succ bound ih =>
      have moved := cfgNextentry_same c
      rw [nextSectionLoop] at returned
      split at returned
      next c₁ next =>
        rw [next] at moved
        split at returned
        next =>
          obtain ⟨-, rfl⟩ := Prod.mk.inj (Except.ok.inj returned)
          exact moved
        next => exact moved.trans (ih returned)
      next ret' c₁ _ next =>
        rw [next] at moved
        obtain ⟨-, rfl⟩ := Prod.mk.inj (Except.ok.inj returned)
        exact moved

/-- `cfg_find` keeps the entries. -/
theorem cfgFind_same {sectionName id : Option Bytes} {c c' : Config} {ret : Int}
    (returned : cfgFind c sectionName id = .ok (ret, c'))
    : SameEntries c c' := by
  have rewound := cfgRewind_same c
  rw [cfgFind] at returned
  split at returned
  next c₁ rewind =>
    rw [rewind] at rewound
    exact (findLoop_rule (SameEntries c) (fun d kept => kept.trans (cfgNextentry_same d)) rewound
      returned).2
  next =>
    obtain ⟨-, rfl⟩ := Prod.mk.inj (Except.ok.inj returned)
    exact .refl c

/-- A call that returns keeps the entries. -/
theorem CursorStep.same {c c' : Config} {call : CursorCall} (taken : CursorStep c call c')
    : SameEntries c c' := by
  obtain ⟨ret, returned⟩ := taken
  cases call with
  | rewind =>
      obtain rfl : (cfgRewind c).2 = c' := congrArg Prod.snd (Except.ok.inj returned)
      exact cfgRewind_same c
  | nextentry =>
      obtain rfl : (cfgNextentry c).2 = c' := congrArg Prod.snd (Except.ok.inj returned)
      exact cfgNextentry_same c
  | nextSection => exact nextSectionLoop_same returned
  | find => exact cfgFind_same returned

/-- After any calls that move the cursor, the entries are the same. -/
theorem same_of_calls {c c' : Config} {calls : List (Config × CursorCall)}
    (run : Run CursorStep c calls c')
    : SameEntries c c' :=
  run.invariant (SameEntries c) (.refl c) (fun _ taken kept => kept.trans taken.same)

/-- When `cfg_nextentry` finds an entry, the cursor has moved on, and it stood before an entry. -/
theorem cfgNextentry_advances {c c' : Config} (moved : cfgNextentry c = (0, c'))
    : c.cursor < c'.cursor ∧ c.cursor < c.pool.entries.length := by
  have further (rest : List Entry) (d : Config) (found : (nextentryFrom d rest).1 = 0)
      : d.cursor < (nextentryFrom d rest).2.cursor ∧ rest ≠ [] := by
    induction rest generalizing d with
    | nil => contradiction
    | cons e rest ih =>
        refine ⟨?_, List.cons_ne_nil e rest⟩
        obtain ⟨sectionName, id, value, comment⟩ := e
        cases sectionName with
        | some name => exact Nat.lt_succ_self d.cursor
        | none =>
            cases value with
            | some value => cases id <;> exact Nat.lt_succ_self d.cursor
            | none => exact Nat.lt_trans (Nat.lt_succ_self d.cursor) (ih _ found).1
  rw [cfgNextentry] at moved
  split at moved
  next =>
    have failed : (-1 : Int) = 0 := congrArg Prod.fst moved
    contradiction
  next =>
    obtain ⟨advanced, remaining⟩ := further _ _ (congrArg Prod.fst moved)
    rw [moved] at advanced
    exact ⟨advanced, by simpa using remaining⟩

/-- `cfg_next_section` always returns.
Witness: the cursor moves past an entry at each turn of the loop but the last.
-/
theorem cfgNextSection_returns (c : Config) : ∃ result, cfgNextSection c = .ok result := by
  have loop (bound : Nat) (d : Config) (enough : d.pool.entries.length ≤ bound + d.cursor)
      : ∃ result, nextSectionLoop (bound + 1) d = .ok result := by
    induction bound generalizing d with
    | zero =>
        rw [nextSectionLoop]
        split
        next d' moved =>
          have := (cfgNextentry_advances moved).2
          omega
        next => exact ⟨_, rfl⟩
    | succ bound ih =>
        rw [nextSectionLoop]
        split
        next d' moved =>
          split
          next => exact ⟨_, rfl⟩
          next =>
            have advanced := (cfgNextentry_advances moved).1
            have same : d'.pool = d.pool := by
              have kept := (cfgNextentry_same d).pool
              rwa [moved] at kept
            exact ih d' (by rw [same]; omega)
        next => exact ⟨_, rfl⟩
  exact loop c.pool.entries.length c (Nat.le_add_right ..)

/-- In a valid configuration, whatever calls have moved the cursor before, `cfg_find` returns 0 when
the first section of the name has the key and delivers the value of its first binding there; it
returns -1 when there is no such section or key. Without a key it looks for the section alone.
-/
theorem cfgFind_after_calls {c c' : Config} {calls : List (Config × CursorCall)} (valid : c.valid)
    (run : Run CursorStep c calls c') (s : Bytes) (id : Option Bytes)
    : Answers (cfgFind c' (some s) id) (lookupIn c.pool.entries s id) := by
  have same := same_of_calls run
  have search := findValue_named (same.valid.trans valid) s id
  rw [same.pool] at search
  exact answers_cfgFind.mpr search

/-- Witness: a key is found again after a search has moved the cursor past it. -/
theorem cfgFind_after_calls_found
    : ∃ c',
        Run CursorStep (parseOf (text "[s]\nk=v\n"))
          [(parseOf (text "[s]\nk=v\n"), .find (some (text "s")) (some (text "k")))] c'
        ∧ Answers (cfgFind c' (some (text "s")) (some (text "k"))) (some (some (text "v"))) := by
  obtain ⟨c', returned⟩
      : ∃ c',
          CursorStep (parseOf (text "[s]\nk=v\n")) (.find (some (text "s")) (some (text "k"))) c' :=
    ⟨_, 0, rfl⟩
  have run := Run.start.extend returned
  exact ⟨c', run, cfgFind_after_calls rfl run (text "s") (some (text "k"))⟩

/-- Behind the first visible entry, the entries up to the first header are those behind it. -/
theorem lookup_untilHeader_visible {es rest : List Entry} {first : Entry}
    (begins : es.dropWhile (fun e => !e.visible) = first :: rest)
    (noHeader : first.sectionName = none) (k : Bytes)
    : lookup (untilHeader es) k = (first.valueOf k).or (lookup (untilHeader rest) k) := by
  induction es with
  | nil => contradiction
  | cons e es ih =>
      cases visible : e.visible with
      | true =>
          obtain ⟨rfl, rfl⟩ : e = first ∧ es = rest := by simpa [visible] using begins
          rw [untilHeader_cons, if_neg (by simp [CfgEntry.isHeader, noHeader]), lookup_cons]
      | false =>
          obtain ⟨header, value⟩ : e.sectionName = none ∧ e.value = none := by
            simpa [CfgEntry.visible] using visible
          rw [untilHeader_cons, if_neg (by simp [CfgEntry.isHeader, header]), lookup_cons,
            valueOf_eq_none (Or.inr value), Option.none_or]
          exact ih (by simpa [visible] using begins)

/-- In a valid configuration whose first visible entry is no header, `cfg_find` without a section
delivers the value of the first binding of the key before the first header, or fails if there is
none, exactly when the first visible entry does not bind the key or is followed by the same value.
-/
theorem cfgFind_sectionless_iff {c : Config} (valid : c.valid)
    (top
      : ∀ first, c.pool.entries.find? CfgEntry.visible = some first → first.sectionName = none)
    (k : Bytes)
    : Answers (cfgFind c none (some k)) ((lookup (untilHeader c.pool.entries) k).map some)
      ↔ RepeatsFirst c.pool.entries k := by
  rw [answers_cfgFind, findValue_null valid, lookupFirst, RepeatsFirst]
  have shown := List.find?_eq_head?_dropWhile_not CfgEntry.visible c.pool.entries
  cases begins : c.pool.entries.dropWhile (fun e => !e.visible) with
  | nil =>
      have hidden : ∀ e ∈ c.pool.entries, e.visible = false := by
        simpa [List.dropWhile_eq_nil_iff] using begins
      have nothing : lookup (untilHeader c.pool.entries) k = none := by
        refine List.findSome?_eq_none_iff.mpr fun e member => valueOf_eq_none (Or.inr ?_) k
        have seen := hidden e ((List.takeWhile_sublist _).subset member)
        simpa [CfgEntry.visible] using (Bool.or_eq_false_iff.mp seen).2
      simp [nothing]
  | cons first rest =>
      rw [begins, List.head?_cons] at shown
      have noHeader := top first shown
      rw [lookup_untilHeader_visible begins noHeader]
      cases gives : first.valueOf k with
      | none => simp [CfgEntry.isHeader, noHeader, gives]
      | some value => simp [CfgEntry.isHeader, noHeader, gives]

/-- Witness: a key behind another one is found without its section. -/
theorem cfgFind_sectionless_second
    : Answers (cfgFind (parseOf (text "a=0\nk=v\n")) none (some (text "k")))
        (some (some (text "v"))) := by
  have top
      : ∀ first,
          (parseOf (text "a=0\nk=v\n")).pool.entries.find? CfgEntry.visible = some first
          → first.sectionName = none := by
    rintro first ⟨⟩
    rfl
  have other : RepeatsFirst (parseOf (text "a=0\nk=v\n")).pool.entries (text "k") := by
    rintro value ⟨⟩
  exact (cfgFind_sectionless_iff rfl top (text "k")).mpr other

/-- The first key of a file is not found without its section. -/
theorem cfgFind_sectionless_first
    : ¬ ∀ c k,
        c.valid
        → (∀ first,
            c.pool.entries.find? CfgEntry.visible = some first → first.sectionName = none)
        → k ≠ []
        → (∀ b ∈ k, isQuote b = false)
        → Answers (cfgFind c none (some k)) ((lookup (untilHeader c.pool.entries) k).map some) := by
  intro always
  have top
      : ∀ first,
          (parseOf (text "k=v\n")).pool.entries.find? CfgEntry.visible = some first
          → first.sectionName = none := by
    rintro first ⟨⟩
    rfl
  have found := always (parseOf (text "k=v\n")) (text "k") rfl top (by decide) (by decide)
  have other
      : findValue (parseOf (text "k=v\n")) none (some (text "k")) = .ok (some (some (text "v"))) :=
    answers_cfgFind.mp found
  have missed
      : findValue (parseOf (text "k=v\n")) none (some (text "k")) = .ok none := rfl
  rw [missed] at other
  contradiction

end Cvos.CfgFile

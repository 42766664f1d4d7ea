import Cvos.CfgFile.Searches

/-! One call of `cfg_nextentry` or `cfg_next_section`: the cursor moves over the entries that the
call does not look for to the next one that it looks for, or reaches the end of the file.
-/

namespace Cvos.CfgFile

open Cvos.Lib

/-- The name of the last header. -/
def lastSection (es : List Entry) : Option Bytes := (es.filterMap CfgEntry.sectionName).getLast?

/-- What the fields at the cursor say of an entry: it is a header, has an id and a value, or has a
value only.
-/
def Shows (c : Config) (e : Entry) : Prop :=
  match e.sectionName, e.id, e.value with
  | some name, _, _ =>
      c.type = .cfgSection ∧ c.sectionName = some name ∧ c.id = none ∧ c.value = none
  | none, some id, some value => c.type = .cfgDefine ∧ c.id = some id ∧ c.value = some value
  | none, none, some value => c.type = .cfgContinue ∧ c.id = none ∧ c.value = some value
  | none, _, none => False

/-- A call has moved the cursor over some entries and the one behind them, which its fields show. -/
structure MovedTo (c c' : Config) (passed : List Entry) (e : Entry) : Prop where
  pool : c'.pool = c.pool
  cursor : c'.cursor = c.cursor + passed.length + 1
  sectionName : c'.sectionName = (lastSection (passed ++ [e])).or c.sectionName
  shows : Shows c' e

/-- A call in front of some entries stops at the first one of those it looks for, or reaches the
end.
-/
def Steps (stops : Entry → Bool) (run : Checked (Int × Config)) (c : Config) (rest : List Entry)
    : Prop :=
  (∃ passed e behind c',
    rest = passed ++ e :: behind
    ∧ passed.filter stops = []
    ∧ stops e = true
    ∧ run = .ok (0, c')
    ∧ Before behind c'
    ∧ MovedTo c c' passed e)
  ∨ (rest.filter stops = [] ∧ ∃ c', run = .ok (-1, c') ∧ c'.eof = true)

/-- The name of a last header is found in the last part that has a header. -/
theorem lastSection_append (es es' : List Entry)
    : lastSection (es ++ es') = (lastSection es').or (lastSection es) := by
  rw [lastSection, List.filterMap_append, List.getLast?_append]
  rfl

/-- One entry. -/
theorem lastSection_singleton (e : Entry) : lastSection [e] = e.sectionName := by
  cases header : e.sectionName <;> simp [lastSection, header]

/-- The type tells a header. -/
theorem Shows.type_iff {c : Config} {e : Entry} (shows : Shows c e)
    : c.type = .cfgSection ↔ e.isHeader = true := by
  obtain ⟨sectionName, id, value, comment⟩ := e
  cases sectionName with
  | some name => exact iff_of_true shows.1 rfl
  | none =>
      refine iff_of_false ?_ nofun
      cases value with
      | none => cases id <;> exact shows.elim
      | some value => cases id <;> simp [shows.1]

/-- Two moves are one. -/
theorem MovedTo.trans {c c' c'' : Config} {passed passed' : List Entry} {e e' : Entry}
    (first : MovedTo c c' passed e) (second : MovedTo c' c'' passed' e')
    : MovedTo c c'' (passed ++ e :: passed') e' where
  pool := second.pool.trans first.pool
  cursor := by
    rw [second.cursor, first.cursor, List.length_append, List.length_cons]
    omega
  sectionName := by
    have parts : passed ++ e :: passed' ++ [e'] = (passed ++ [e]) ++ (passed' ++ [e']) := by simp
    rw [second.sectionName, first.sectionName, parts, lastSection_append (passed ++ [e]),
      Option.or_assoc]
  shows := second.shows

/-- An entry that only has a comment is passed. -/
theorem MovedTo.skip {c c' : Config} {passed : List Entry} {e e' : Entry}
    (hidden : e.visible = false) (moved : MovedTo { c with cursor := c.cursor + 1 } c' passed e')
    : MovedTo c c' (e :: passed) e' where
  pool := moved.pool
  cursor := by
    have cursor := moved.cursor
    dsimp only at cursor
    rw [List.length_cons]
    omega
  sectionName := by
    have noHeader : e.sectionName = none := by
      simp only [CfgEntry.visible, Bool.or_eq_false_iff, Option.isSome_eq_false_iff,
        Option.isNone_iff_eq_none] at hidden
      exact hidden.1
    have same : lastSection (e :: (passed ++ [e'])) = lastSection (passed ++ [e']) := by
      rw [← List.singleton_append, lastSection_append, lastSection_singleton, noHeader,
        Option.or_none]
    rw [moved.sectionName, List.cons_append, same]
  shows := moved.shows

/-- The cursor stops at an entry with a section or a value. -/
theorem cfgNextentry_stops {e : Entry} {rest : List Entry} {c : Config} (h : Before (e :: rest) c)
    (visible : e.visible = true)
    : ∃ c', cfgNextentry c = (0, c') ∧ Before rest c' ∧ MovedTo c c' [] e := by
  obtain ⟨sectionName, id, value, comment⟩ := e
  simp only [cfgNextentry, h.valid, h.eof, h.rest, nextentryFrom]
  cases sectionName with
  | some name =>
      exact ⟨_, rfl, ⟨rfl, rfl, h.next⟩, rfl, rfl, rfl, rfl, rfl, rfl, rfl⟩
  | none =>
      cases value with
      | none => contradiction
      | some value =>
          cases id with
          | some id => exact ⟨_, rfl, ⟨rfl, rfl, h.next⟩, rfl, rfl, rfl, rfl, rfl, rfl⟩
          | none => exact ⟨_, rfl, ⟨rfl, rfl, h.next⟩, rfl, rfl, rfl, rfl, rfl, rfl⟩

/-- At the end of the entries, the end of the file is set. -/
theorem cfgNextentry_ends {c : Config} (h : Before [] c)
    : ∃ c', cfgNextentry c = (-1, c') ∧ c'.eof = true := by
  simp only [cfgNextentry, h.valid, h.eof, h.rest, nextentryFrom]
  exact ⟨_, rfl, rfl⟩

/-- A call that passes an entry with only a comment. -/
theorem Steps.skip {stops : Entry → Bool} {run : Checked (Int × Config)} {c : Config} {e : Entry}
    {rest : List Entry} (hidden : e.visible = false) (other : stops e = false)
    (steps : Steps stops run { c with cursor := c.cursor + 1 } rest)
    : Steps stops run c (e :: rest) := by
  obtain ⟨passed, e', behind, c', rfl, none, stop, ran, before, moved⟩ | ⟨none, ends⟩ := steps
  · refine .inl ⟨e :: passed, e', behind, c', rfl, ?_, stop, ran, before, moved.skip hidden⟩
    rw [List.filter_cons_of_neg (by simp [other]), none]
  · refine .inr ⟨?_, ends⟩
    rw [List.filter_cons_of_neg (by simp [other]), none]

/-- A call that goes on behind an entry at which the cursor has stopped. -/
theorem Steps.next {stops : Entry → Bool} {run : Checked (Int × Config)} {c c' : Config}
    {e : Entry} {rest : List Entry} (moved : MovedTo c c' [] e) (other : stops e = false)
    (steps : Steps stops run c' rest)
    : Steps stops run c (e :: rest) := by
  obtain ⟨passed, e', behind, c'', rfl, none, stop, ran, before, further⟩ | ⟨none, ends⟩ := steps
  · refine .inl ⟨e :: passed, e', behind, c'', rfl, ?_, stop, ran, before, moved.trans further⟩
    rw [List.filter_cons_of_neg (by simp [other]), none]
  · refine .inr ⟨?_, ends⟩
    rw [List.filter_cons_of_neg (by simp [other]), none]

/-- `cfg_nextentry` looks for an entry with a section or a value. -/
theorem cfgNextentry_steps {rest : List Entry} {c : Config} (h : Before rest c)
    : Steps CfgEntry.visible (.ok (cfgNextentry c)) c rest := by
  induction rest generalizing c with
  | nil =>
      obtain ⟨c', ended, eof⟩ := cfgNextentry_ends h
      exact .inr ⟨rfl, c', congrArg _ ended, eof⟩
  | cons e rest ih =>
      cases visible : e.visible with
      | true =>
          obtain ⟨c', next, before, moved⟩ := cfgNextentry_stops h visible
          exact .inl ⟨[], e, rest, c', rfl, rfl, visible, congrArg _ next, before, moved⟩
      | false =>
          rw [cfgNextentry_skip h visible]
          exact .skip visible visible (ih h.pass)

/-- `cfg_next_section` looks for a header. -/
theorem cfgNextSection_steps {rest : List Entry} {c : Config} (h : Before rest c)
    : Steps CfgEntry.isHeader (cfgNextSection c) c rest := by
  have loop (bound : Nat) (enough : rest.length < bound)
      : Steps CfgEntry.isHeader (nextSectionLoop bound c) c rest := by
    induction rest generalizing bound c with
    | nil =>
        obtain ⟨bound, rfl⟩ := Nat.exists_eq_succ_of_ne_zero (Nat.ne_of_gt enough)
        obtain ⟨c', ended, eof⟩ := cfgNextentry_ends h
        rw [nextSectionLoop, ended]
        exact .inr ⟨rfl, c', rfl, eof⟩
    | cons e rest ih =>
        obtain ⟨bound, rfl⟩ :=
          Nat.exists_eq_succ_of_ne_zero (Nat.ne_of_gt (Nat.zero_lt_of_lt enough))
        have fewer : rest.length < bound := Nat.lt_of_succ_lt_succ enough
        cases visible : e.visible with
        | false =>
            have other : e.isHeader = false := by
              simp only [CfgEntry.visible, Bool.or_eq_false_iff] at visible
              exact visible.1
            rw [nextSectionLoop, cfgNextentry_skip h visible, ← nextSectionLoop]
            exact .skip visible other (ih h.pass _ (Nat.lt_succ_of_lt fewer))
        | true =>
            obtain ⟨c', next, before, moved⟩ := cfgNextentry_stops h visible
            have type := moved.shows.type_iff
            cases header : e.isHeader with
            | true =>
                have found : nextSectionLoop (bound + 1) c = .ok (0, c') := by
                  simp [nextSectionLoop, next, type.mpr header]
                exact .inl ⟨[], e, rest, c', rfl, rfl, header, found, before, moved⟩
            | false =>
                have onward : nextSectionLoop (bound + 1) c = nextSectionLoop bound c' := by
                  simp [nextSectionLoop, next, type, header]
                rw [onward]
                exact .next moved header (ih before _ fewer)
  refine loop _ (Nat.lt_succ_of_le ?_)
  rw [← h.rest, List.length_drop]
  omega

end Cvos.CfgFile

import Cvos.CfgFile.FileCycle
import Cvos.Lib.Transition

/-! Whether a configuration that is kept open has the entries of its file after it was refreshed,
while both the configuration and the file are changed.
-/

namespace Cvos.CfgFile

open Cvos.Lib

/-- A file, and a configuration that was opened on it. -/
structure OpenFile where
  file : FileData
  config : Config
  deriving DecidableEq, Repr

/-- What is done to the file or to the configuration. -/
inductive Access where
  | rewrite (content : Bytes) (time : Nat)
  | write (sectionName id value : Option Bytes)
  | commit (sys : SysCalls)
  | refresh (sys : SysCalls)
  deriving DecidableEq, Repr

/-- What an access makes of the file and the configuration. The clock does not go back. -/
inductive AccessStep : OpenFile → Access → OpenFile → Prop
  | rewrite {f c content time} (later : f.mtime ≤ time)
    : AccessStep ⟨f, c⟩ (.rewrite content time) ⟨⟨content, time⟩, c⟩
  | write {f c sectionName id value ret c'}
    (returned : cfgWrite c sectionName id value = .ok (ret, c'))
    : AccessStep ⟨f, c⟩ (.write sectionName id value) ⟨f, c'⟩
  | commit {f c sys ret c' f'} (later : f.mtime ≤ sys.time)
    (returned : cfgCommit sys (some f) c = ((ret, c'), some f'))
    : AccessStep ⟨f, c⟩ (.commit sys) ⟨f', c'⟩
  | refresh {f c sys ret c'} (returned : cfgRefresh sys (some f) c = .ok (ret, c'))
    : AccessStep ⟨f, c⟩ (.refresh sys) ⟨f, c'⟩

/-- The entries in memory are those of the text. -/
def Mirrors (content : Bytes) (c : Config) : Prop :=
  ∃ c', Parsed content c' ∧ c.pool.entries = c'.pool.entries

/-- `cfg_commit` writes a dirty configuration. -/
def SysCalls.writes (sys : SysCalls) : Prop :=
  sys.openWrite = true ∧ sys.writeLock = true ∧ sys.fopen = true

/-- The condition on an access: a dirty configuration is not refreshed while its file looks as it
did when it was read, and a change that leaves the file looking so leaves it with the entries in
memory.
-/
def Access.Noticed (s : OpenFile) : Access → Prop
  | .rewrite content time =>
      s.config.dirty = false
      → Recorded ⟨content, time⟩ s.config
      → Mirrors content s.config
  | .write .. => True
  | .commit sys =>
      s.config.valid = true
      → s.config.dirty = true
      → sys.writes
      → Recorded ⟨cfgOutput s.config, sys.time⟩ s.config
      → Mirrors (cfgOutput s.config) s.config
  | .refresh sys => sys.stats → Recorded s.file s.config → s.config.dirty = false

-----------------------------------------------------------------------------------------
-- What the calls do
-----------------------------------------------------------------------------------------

/-- Updating an entry leaves the configuration dirty. -/
theorem updateEntry_dirty {c c' : Config} {e : Nat} {value : Option Bytes} {ret : Int}
    (returned : updateEntry c e value = .ok (ret, c'))
    : c'.dirty = true := by
  cases value with
  | none => cases returned
  | some value =>
      cases returned
      rfl

/-- Deleting entries leaves the configuration dirty. -/
theorem doDelete_dirty {c c' : Config} {eSect e : Nat} {ret : Int}
    (returned : doDelete c eSect e = .ok (ret, c'))
    : c'.dirty = true := by
  obtain ⟨start, -, same⟩ := Checked.bind_eq_ok.mp returned
  cases same
  rfl

/-- In the section that was found, the configuration is left as it is, or dirty. -/
theorem writeFound_dirty {c c' : Config} {eSect : Nat} {i : Int} {id value : Option Bytes}
    {ret : Int} (returned : writeFound c eSect i id value = .ok (ret, c'))
    : c' = c ∨ c'.dirty = true := by
  obtain ⟨stop, -, edit⟩ := Checked.bind_eq_ok.mp returned
  cases id with
  | none =>
      cases stop <;>
        obtain ⟨e, -, deleted⟩ := Checked.bind_eq_ok.mp edit <;>
        exact .inr (doDelete_dirty deleted)
  | some id =>
      cases value with
      | none =>
          cases stop with
          | key e => exact .inr (doDelete_dirty edit)
          | header e =>
              cases edit
              exact .inl rfl
          | last e =>
              cases edit
              exact .inl rfl
      | some value =>
          cases stop with
          | header e =>
              obtain ⟨pool, -, same⟩ := Checked.bind_eq_ok.mp edit
              cases same
              exact .inr rfl
          | key e => exact .inr (updateEntry_dirty edit)
          | last e =>
              cases edit
              exact .inr rfl

/-- `cfg_write` leaves the configuration as it is, or dirty. -/
theorem cfgWrite_dirty {c c' : Config} {sectionName id value : Option Bytes} {ret : Int}
    (returned : cfgWrite c sectionName id value = .ok (ret, c'))
    : c' = c ∨ c'.dirty = true := by
  unfold cfgWrite at returned
  split at returned
  next =>
    cases returned
    exact .inl rfl
  next =>
    dsimp only at returned
    split at returned
    all_goals
      obtain ⟨⟨key, i⟩, -, rest⟩ := Checked.bind_eq_ok.mp returned
      cases key with
      | some e => exact .inr (updateEntry_dirty rest)
      | none =>
          obtain ⟨⟨found, i⟩, -, rest⟩ := Checked.bind_eq_ok.mp rest
          cases found with
          | some eSect => exact writeFound_dirty rest
          | none =>
              dsimp only at rest
              split at rest
              · cases rest
                exact .inr rfl
              · cases rest
                exact .inl rfl

/-- `cfg_commit` leaves the file and the configuration as they are, or it writes the text of a
dirty configuration, which is then clean.
-/
theorem cfgCommit_cases {sys : SysCalls} {f f' : FileData} {c c' : Config} {ret : Int}
    (returned : cfgCommit sys (some f) c = ((ret, c'), some f'))
    : (f' = f ∧ c' = c)
      ∨ (c.valid = true
        ∧ c.dirty = true
        ∧ sys.writes
        ∧ f' = ⟨cfgOutput c, sys.time⟩
        ∧ c' = { c with dirty := false }) := by
  rw [cfgCommit] at returned
  split at returned
  next =>
    cases returned
    exact .inl ⟨rfl, rfl⟩
  next valid =>
    split at returned
    next =>
      cases returned
      exact .inl ⟨rfl, rfl⟩
    next dirty =>
      split at returned
      next =>
        cases returned
        exact .inl ⟨rfl, rfl⟩
      next opened =>
        split at returned
        next =>
          cases returned
          exact .inl ⟨rfl, rfl⟩
        next locked =>
          split at returned
          next =>
            cases returned
            exact .inl ⟨rfl, rfl⟩
          next truncated =>
            cases returned
            exact .inr ⟨by simpa using valid, by simpa using dirty,
              ⟨by simpa using opened, by simpa using locked, by simpa using truncated⟩, rfl, rfl⟩

-----------------------------------------------------------------------------------------
-- Runs
-----------------------------------------------------------------------------------------

/-- What the fast path of `cfg_refresh` relies on: a clean configuration whose file looks as it did
when it was read has its entries.
-/
def Trustworthy (s : OpenFile) : Prop :=
  s.config.dirty = false → Recorded s.file s.config → Mirrors s.file.content s.config

/-- An access that meets the condition keeps the fast path trustworthy. -/
theorem AccessStep.trustworthy {s s' : OpenFile} {a : Access} (step : AccessStep s a s')
    (noticed : a.Noticed s) (trustworthy : Trustworthy s)
    : Trustworthy s' := by
  cases step with
  | rewrite later => exact noticed
  | write returned =>
      intro clean
      rcases cfgWrite_dirty returned with rfl | dirty
      · exact trustworthy clean
      · exact absurd (dirty.symm.trans clean) (by decide)
  | commit later returned =>
      rcases cfgCommit_cases returned with ⟨rfl, rfl⟩ | ⟨valid, dirty, writes, rfl, rfl⟩
      · exact trustworthy
      · intro clean recorded
        exact noticed valid dirty writes ⟨recorded.image, recorded.size, recorded.mtime⟩
  | refresh returned =>
      rcases cfgRefresh_cases returned with ⟨-, dropped⟩ | ⟨-, -, -, rfl⟩ | ⟨-, parsed⟩
      · intro clean recorded
        have image := recorded.image
        simp [dropped] at image
      · exact trustworthy
      · exact fun clean recorded => ⟨_, parsed, rfl⟩

/-- In a run whose accesses meet the condition, a configuration has the entries of its file whenever
`cfg_refresh` returns 0.
-/
theorem mirrors_of_noticed {f : FileData} {trace : List (OpenFile × Access)} {s : OpenFile}
    (run : Run AccessStep ⟨f, cfgFreeimage⟩ trace s)
    (noticed : ∀ taken ∈ trace, taken.2.Noticed taken.1) {sys : SysCalls}
    (last : (Access.refresh sys).Noticed s) {c : Config}
    (refreshed : cfgRefresh sys (some s.file) s.config = .ok (0, c))
    : Mirrors s.file.content c := by
  have trustworthy : Trustworthy s := by
    refine run.invariant Trustworthy ?_ ?_
    · intro clean recorded
      cases recorded.image
    · intro current a next member step trustworthy
      exact step.trustworthy (noticed _ member) trustworthy
  rcases cfgRefresh_cases refreshed with ⟨negative, -⟩ | ⟨-, stats, recorded, rfl⟩ | ⟨-, parsed⟩
  · exact absurd negative (by decide)
  · exact trustworthy (last stats recorded) recorded
  · exact ⟨c, parsed, rfl⟩

/-- Witness: a value is written and committed in a later second, and then refreshed. -/
theorem mirrors_committed
    : ∃ trace s c,
        Run AccessStep ⟨⟨text "[s]\nk=1\n", 5⟩, cfgFreeimage⟩ trace s
        ∧ trace.map Prod.snd
          = [.refresh (.succeed 0), .write (some (text "s")) (some (text "k")) (some (text "2")),
            .commit (.succeed 7)]
        ∧ cfgRefresh (.succeed 0) (some s.file) s.config = .ok (0, c)
        ∧ Mirrors s.file.content c := by
  have opened := Run.start.extend (@AccessStep.refresh ⟨text "[s]\nk=1\n", 5⟩ cfgFreeimage
    (.succeed 0) _ _ rfl)
  have written := opened.extend (@AccessStep.write _ _ (some (text "s")) (some (text "k"))
    (some (text "2")) _ _ rfl)
  have run := written.extend (@AccessStep.commit _ _ (.succeed 7) _ _ _ (by decide) rfl)
  refine ⟨_, _, _, run, rfl, rfl, @mirrors_of_noticed _ _ _ run ?_ (.succeed 0) ?_ _ rfl⟩
  · simp only [List.nil_append, List.cons_append, List.forall_mem_cons, List.not_mem_nil,
      false_implies, implies_true, and_true]
    refine ⟨fun _ _ => rfl, trivial, ?_⟩
    intro _ _ _ recorded
    have mtime : 7 = 5 := recorded.mtime
    cases mtime
  · exact fun _ _ => rfl

/-- A value that is written is still there after a refresh in the same second. -/
theorem not_mirrors_dirty
    : ∃ trace s c,
        Run AccessStep ⟨⟨text "[s]\nk=1\n", 5⟩, cfgFreeimage⟩ trace s
        ∧ trace.map Prod.snd
          = [.refresh (.succeed 0), .write (some (text "s")) (some (text "k")) (some (text "2"))]
        ∧ cfgRefresh (.succeed 0) (some s.file) s.config = .ok (0, c)
        ∧ ¬Mirrors s.file.content c := by
  have opened := Run.start.extend (@AccessStep.refresh ⟨text "[s]\nk=1\n", 5⟩ cfgFreeimage
    (.succeed 0) _ _ rfl)
  have run := opened.extend (@AccessStep.write _ _ (some (text "s")) (some (text "k"))
    (some (text "2")) _ _ rfl)
  refine ⟨_, _, _, run, rfl, rfl, ?_⟩
  rintro ⟨c', parsed, same⟩
  obtain ⟨-, -, entries⟩ := parsed.entries parsed.nulFree
  rw [entries] at same
  revert same
  decide

end Cvos.CfgFile

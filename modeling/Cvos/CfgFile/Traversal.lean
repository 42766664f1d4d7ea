import Cvos.CfgFile.Cursor
import Cvos.CfgFile.FlagWord

/-! A traversal of a configuration: from the start on, the calls of `cfg_nextentry` stop at the
entries with a section or a value, one after the other, those of `cfg_next_section` at the headers,
and behind the last one all of them fail.
-/

namespace Cvos.CfgFile

open Cvos.Lib

/-- A call that looks for something behind the cursor. -/
inductive NextCall where
  | nextentry
  | nextSection
  deriving DecidableEq

/-- What the call returns and the configuration it leaves. -/
def NextCall.run : NextCall → FlaggedConfig → Checked (Int × FlaggedConfig)
  | nextentry, w => .ok w.cfgNextentry
  | nextSection, w => w.cfgNextSection

/-- The call looks for the entry. -/
def NextCall.stops : NextCall → Entry → Bool
  | nextentry => CfgEntry.visible
  | nextSection => CfgEntry.isHeader

/-- The configuration after the call was made a number of times. -/
def NextCall.times (call : NextCall) : Nat → FlaggedConfig → Checked FlaggedConfig
  | 0, w => .ok w
  | n + 1, w => do
      let result ← call.run w
      call.times n result.2

/-- A move to the entry with the number `n` among those that a call looks for. -/
def Reaches (stops : Entry → Bool) (rest : List Entry) (n : Nat) (c c' : Config) (e : Entry)
    : Prop :=
  ∃ passed behind,
    rest = passed ++ e :: behind
    ∧ passed.filter stops = (rest.filter stops).take n
    ∧ MovedTo c c' passed e

/-- A call looks for its entries behind the cursor. -/
theorem NextCall.steps (call : NextCall) {rest : List Entry} {w : FlaggedConfig}
    (h : Before rest w.split)
    : Steps call.stops ((call.run w).map FlaggedConfig.splitResult) w.split rest := by
  cases call with
  | nextentry =>
      have steps := cfgNextentry_steps h
      rw [← FlaggedConfig.split_cfgNextentry] at steps
      exact steps
  | nextSection =>
      have steps := cfgNextSection_steps h
      rw [← FlaggedConfig.split_cfgNextSection] at steps
      exact steps

/-- A result on the parts of the word is one on the word. -/
theorem of_splitResult {result : Checked (Int × FlaggedConfig)} {ret : Int} {c : Config}
    (same : result.map FlaggedConfig.splitResult = .ok (ret, c))
    : ∃ w, result = .ok (ret, w) ∧ w.split = c := by
  cases result with
  | error fault => contradiction
  | ok result =>
      obtain ⟨rfl, rfl⟩ := Prod.mk.inj (Except.ok.inj same)
      exact ⟨result.2, rfl, rfl⟩

/-- At the end of the file every call fails and changes nothing. -/
theorem NextCall.run_eof (call : NextCall) {w : FlaggedConfig} (eof : w.cfgEof = true)
    : call.run w = .ok (-1, w) := by
  have stays : w.cfgNextentry = (-1, w) := by simp [FlaggedConfig.cfgNextentry, eof]
  cases call with
  | nextentry => exact congrArg _ stays
  | nextSection =>
      simp [NextCall.run, FlaggedConfig.cfgNextSection, FlaggedConfig.nextSectionLoop, stays]

/-- The end of the file stays. -/
theorem NextCall.times_eof (call : NextCall) {w : FlaggedConfig} (eof : w.cfgEof = true) (n : Nat)
    : call.times n w = .ok w := by
  induction n with
  | zero => rfl
  | succ n ih => rw [times, call.run_eof eof, Checked.ok_bind, ih]

/-- The entry that is reached first. -/
theorem reaches_zero {stops : Entry → Bool} {c c' : Config} {passed behind : List Entry} {e : Entry}
    (none : passed.filter stops = []) (moved : MovedTo c c' passed e)
    : Reaches stops (passed ++ e :: behind) 0 c c' e :=
  ⟨passed, behind, rfl, none, moved⟩

/-- The entries that are reached behind the first one. -/
theorem Reaches.succ {stops : Entry → Bool} {c c' c'' : Config} {passed behind : List Entry}
    {e e' : Entry} {n : Nat} (none : passed.filter stops = []) (stop : stops e = true)
    (moved : MovedTo c c' passed e) (reaches : Reaches stops behind n c' c'' e')
    : Reaches stops (passed ++ e :: behind) (n + 1) c c'' e' := by
  obtain ⟨passed', behind', rfl, numbered, further⟩ := reaches
  refine ⟨passed ++ e :: passed', behind', by simp, ?_, moved.trans further⟩
  rw [List.filter_append, List.filter_append, none, List.nil_append, List.nil_append,
    List.filter_cons_of_pos stop, List.filter_cons_of_pos stop, List.take_succ_cons, numbered]

/-- A call that follows a number of calls. -/
theorem NextCall.times_run (call : NextCall) (n : Nat) {rest : List Entry} {w : FlaggedConfig}
    (h : Before rest w.split)
    : ∃ w' ret w'',
        call.times n w = .ok w'
        ∧ call.run w' = .ok (ret, w'')
        ∧ match (rest.filter call.stops)[n]? with
          | some e => ret = 0 ∧ Reaches call.stops rest n w.split w''.split e
          | none => ret = -1 ∧ w''.cfgEof = true := by
  induction n generalizing rest w with
  | zero =>
      rcases call.steps h with
        ⟨passed, e, behind, c', rfl, none, stop, ran, before, moved⟩ | ⟨none, c', ended, eof⟩
      · obtain ⟨w', found, rfl⟩ := of_splitResult ran
        refine ⟨w, 0, w', rfl, found, ?_⟩
        have first : ((passed ++ e :: behind).filter call.stops)[0]? = some e := by
          rw [List.filter_append, none, List.filter_cons_of_pos stop]
          rfl
        rw [first]
        exact ⟨rfl, reaches_zero none moved⟩
      · obtain ⟨w', failed, rfl⟩ := of_splitResult ended
        refine ⟨w, -1, w', rfl, failed, ?_⟩
        rw [none]
        exact ⟨rfl, eof⟩
  | succ n ih =>
      rcases call.steps h with
        ⟨passed, e, behind, c', rfl, none, stop, ran, before, moved⟩ | ⟨none, c', ended, eof⟩
      · obtain ⟨w1, found, rfl⟩ := of_splitResult ran
        obtain ⟨w', ret, w'', times, last, result⟩ := ih before
        refine ⟨w', ret, w'', ?_, last, ?_⟩
        · rw [NextCall.times, found, Checked.ok_bind, times]
        · have later
              : ((passed ++ e :: behind).filter call.stops)[n + 1]?
                = (behind.filter call.stops)[n]? := by
            rw [List.filter_append, none, List.filter_cons_of_pos stop]
            rfl
          rw [later]
          cases entry : (behind.filter call.stops)[n]? with
          | none =>
              rw [entry] at result
              exact result
          | some e' =>
              rw [entry] at result
              exact ⟨result.1, .succ none stop moved result.2⟩
      · obtain ⟨w', failed, rfl⟩ := of_splitResult ended
        refine ⟨w', -1, w', ?_, call.run_eof eof, ?_⟩
        · rw [NextCall.times, failed, Checked.ok_bind, call.times_eof eof]
        · rw [none]
          exact ⟨rfl, eof⟩

/-- What the call with the number `n` since the cursor was rewound returns and leaves. It stops at
the entry with the number `n` among those it looks for, and behind the last one every call fails
with the end of the file set.
-/
def Enumerates (call : NextCall) (n : Nat) (w : FlaggedConfig) (ret : Int) (w' : FlaggedConfig)
    : Prop :=
  match (w.pool.entries.filter call.stops)[n]? with
  | some e =>
      ret = 0
      ∧ ∃ passed behind,
          w.pool.entries = passed ++ e :: behind
          ∧ passed.filter call.stops = (w.pool.entries.filter call.stops).take n
          ∧ w'.pool = w.pool
          ∧ w'.cursor = passed.length + 1
          ∧ w'.sectionName = (lastSection (passed ++ [e])).or w.sectionName
          ∧ Shows w'.split e
  | none => ret = -1 ∧ w'.cfgEof = true ∧ ∀ further : NextCall, further.run w' = .ok (-1, w')

/-- Of a valid configuration, the calls of `cfg_nextentry` enumerate the entries with a section or a
value, and those of `cfg_next_section` the headers.
-/
theorem calls_enumerate {w : FlaggedConfig} (valid : w.cfgValid = true) (call : NextCall) (n : Nat)
    : ∃ start w' ret w'',
        w.cfgRewind = (0, start)
        ∧ call.times n start = .ok w'
        ∧ call.run w' = .ok (ret, w'')
        ∧ Enumerates call n w ret w'' := by
  obtain ⟨start, rewound, parts⟩
      : ∃ start,
          w.cfgRewind = (0, start)
          ∧ start.split = { w.split with eof := false, type := .cfgError, cursor := 0 } := by
    have same := FlaggedConfig.split_cfgRewind w
    rw [CfgFile.cfgRewind, if_pos (show w.split.valid = true from valid)] at same
    obtain ⟨ret, parts⟩ := Prod.mk.inj same
    exact ⟨w.cfgRewind.2, Prod.ext ret rfl, parts⟩
  have before : Before w.pool.entries start.split := by
    rw [parts]
    exact @before_rewind w.split valid
  obtain ⟨w', ret, w'', times, last, result⟩ := call.times_run n before
  refine ⟨start, w', ret, w'', rewound, times, last, ?_⟩
  rw [Enumerates]
  cases entry : (w.pool.entries.filter call.stops)[n]? with
  | none =>
      rw [entry] at result
      exact ⟨result.1, result.2, fun further => further.run_eof result.2⟩
  | some e =>
      rw [entry, parts] at result
      obtain ⟨rfl, passed, behind, whole, numbered, moved⟩ := result
      have cursor : w''.cursor = 0 + passed.length + 1 := moved.cursor
      exact ⟨rfl, passed, behind, whole, numbered, moved.pool, by omega, moved.sectionName,
        moved.shows⟩

/-- A section with a comment and an entry. -/
def network : FlaggedConfig where
  dirty := false
  image := none
  size := 0
  mtime := 0
  pool :=
    { entries :=
        [⟨some (text "net"), none, none, none⟩, ⟨none, none, none, some (text "; default")⟩,
          ⟨none, some (text "port"), some (text "80"), none⟩]
      maxEntries := 103
      room := by decide }
  cursor := 0
  sectionName := none
  id := none
  value := none
  flags := validFlag

/-- Witness: the second call of `cfg_nextentry` passes the comment. -/
theorem calls_enumerate_network
    : ∃ start w' ret w'',
        network.cfgRewind = (0, start)
        ∧ NextCall.nextentry.times 1 start = .ok w'
        ∧ NextCall.nextentry.run w' = .ok (ret, w'')
        ∧ Enumerates .nextentry 1 network ret w'' :=
  calls_enumerate (by decide) .nextentry 1

end Cvos.CfgFile

import Cvos.Lib.CBuffer
import Cvos.Lib.Transition
import Mathlib.Data.List.Perm.Basic
import Mathlib.Data.List.Range

/-! The redis connection that the callers of `RedisClt.c` share. It counts them, and the last one
releases it. An init that fails after it has connected tries to release the connection before it
has counted itself.
-/

namespace Cvos.RedisClt

open Cvos.Lib

/-- A `DB_CONN_T`, with what becomes of the contexts: how many `redisConnectWithTimeout` has
returned, which are numbered in this order, and those that went to `redisFree`.
-/
structure DbConn where
  hdl : Option Nat
  insCnt : Int
  connected : Nat
  freed : List Nat
  deriving DecidableEq, Repr

/-- What the server lets an init do. Whether a reply reports an error is only logged. -/
inductive Outcome where
  | noContext
  | context (err authReply selectReply : Bool)
  deriving DecidableEq, Repr

/-- The part of `REDIS_Init` in front of the label `End`, without a connection before. -/
def connect (o : Outcome) (s : DbConn) : Int × DbConn :=
  match o with
  | .noContext => (-2, s)
  | .context err authReply selectReply =>
      let s := { s with hdl := some s.connected, connected := s.connected + 1 }
      if err then (-3, s)
      else if !authReply then (-4, s)
      else if !selectReply then (-5, s)
      else (0, { s with insCnt := 1 })

/-- `REDIS_UnInit` -/
def redisUnInit (s : DbConn) : DbConn :=
  let s := { s with insCnt := int32 (s.insCnt - 1) }
  if s.insCnt = 0 then
    match s.hdl with
    | some hdl => { s with hdl := none, freed := s.freed ++ [hdl] }
    | none => s
  else
    s

/-- `REDIS_Init` -/
def redisInit (o : Outcome) (s : DbConn) : Option Nat × DbConn :=
  match s.hdl with
  | some hdl => (some hdl, { s with insCnt := int32 (s.insCnt + 1) })
  | none =>
      let (ret, s) := connect o s
      let s := if ret < 0 then { redisUnInit s with hdl := none, insCnt := 0 } else s
      (s.hdl, s)

/-- The connection, with the number of successful inits that no `REDIS_UnInit` has balanced. -/
structure State where
  conn : DbConn
  outstanding : Nat
  deriving DecidableEq, Repr

/-- Before the first init. -/
def State.initial : State := ⟨⟨none, 0, 0, []⟩, 0⟩

/-- A call of the shared connection. -/
inductive Call where
  | init (o : Outcome)
  | unInit
  deriving DecidableEq, Repr

/-- A call, where each successful init is balanced at most once. -/
inductive Step : State → Call → State → Prop
  | init (s : State) (o : Outcome)
    : Step s (.init o)
        ⟨(redisInit o s.conn).2,
          s.outstanding + if (redisInit o s.conn).1.isSome then 1 else 0⟩
  | unInit {conn : DbConn} {outstanding : Nat}
    : Step ⟨conn, outstanding + 1⟩ .unInit ⟨redisUnInit conn, outstanding⟩

/-- Each context is the connection or was freed once, and there is a connection exactly while it is
counted, and while an init is not balanced.
-/
structure Released (s : State) : Prop where
  once : (s.conn.freed ++ s.conn.hdl.toList).Perm (List.range s.conn.connected)
  counted : s.conn.hdl.isSome ↔ 0 < s.conn.insCnt
  balanced : s.conn.hdl.isSome ↔ 0 < s.outstanding

/-- The connection counts the inits that are not balanced. -/
structure Counts (s : State) : Prop where
  released : Released s
  same : s.conn.insCnt = s.outstanding
  bound : s.conn.insCnt < 2 ^ 31

/-- A context that is obtained becomes the connection. -/
def Outcome.completes : Outcome → Bool
  | .noContext => true
  | .context err authReply selectReply => !err && authReply && selectReply

/-- An init does not fail once it has obtained a context, and does not count beyond an `int`. -/
def Call.Releases (s : State) : Call → Prop
  | .init o =>
      (s.conn.hdl = none → o.completes) ∧ (s.conn.hdl.isSome → s.conn.insCnt < 2 ^ 31 - 1)
  | .unInit => True

instance (s : State) (call : Call) : Decidable (call.Releases s) :=
  match call with
  | .init o =>
      inferInstanceAs
        (Decidable
          ((s.conn.hdl = none → o.completes) ∧ (s.conn.hdl.isSome → s.conn.insCnt < 2 ^ 31 - 1)))
  | .unInit => .isTrue trivial

/-- Before the first init, nothing is connected or counted. -/
theorem State.initial_counts : Counts .initial where
  released := ⟨.refl _, by decide, by decide⟩
  same := rfl
  bound := by decide

/-- An init that shares the connection only counts. -/
theorem redisInit_shared {s : DbConn} {hdl : Nat} (connected : s.hdl = some hdl) (o : Outcome)
    : redisInit o s = (some hdl, { s with insCnt := int32 (s.insCnt + 1) }) := by
  simp [redisInit, connected]

/-- An init that gets no context leaves everything as it is. -/
theorem redisInit_noContext {s : DbConn} (unconnected : s.hdl = none) (uncounted : s.insCnt = 0)
    : redisInit .noContext s = (none, s) := by
  obtain ⟨hdl, insCnt, connected, freed⟩ := s
  obtain rfl : hdl = none := unconnected
  obtain rfl : insCnt = 0 := uncounted
  rfl

/-- An init that gets through connects. -/
theorem redisInit_completes {s : DbConn} (unconnected : s.hdl = none)
    : redisInit (.context false true true) s
      = (some s.connected,
          { s with hdl := some s.connected, connected := s.connected + 1, insCnt := 1 }) := by
  simp [redisInit, connect, unconnected]

/-- An init that fails with a context forgets it: `REDIS_UnInit` counts to -1, and frees nothing. -/
theorem redisInit_fails {s : DbConn} (unconnected : s.hdl = none) (uncounted : s.insCnt = 0)
    {err authReply selectReply : Bool}
    (fails : (Outcome.context err authReply selectReply).completes = false)
    : redisInit (.context err authReply selectReply) s
      = (none, { s with connected := s.connected + 1 }) := by
  obtain ⟨hdl, insCnt, connected, freed⟩ := s
  obtain rfl : hdl = none := unconnected
  obtain rfl : insCnt = 0 := uncounted
  cases err with
  | true => rfl
  | false =>
      cases authReply with
      | false => rfl
      | true =>
          cases selectReply with
          | false => rfl
          | true => contradiction

/-- Releasing a connection that is counted counts it down, and the last one frees it. -/
theorem redisUnInit_counted {s : DbConn} {hdl n : Nat} (connected : s.hdl = some hdl)
    (counted : s.insCnt = n + 1) (bound : s.insCnt < 2 ^ 31)
    : redisUnInit s
      = if n = 0 then { s with hdl := none, insCnt := 0, freed := s.freed ++ [hdl] }
        else { s with insCnt := n } := by
  have counts : int32 (s.insCnt - 1) = n := by
    rw [int32_eq_self (by omega) (by omega)]
    omega
  by_cases last : n = 0
  · simp [redisUnInit, counts, connected, last]
  · simp [redisUnInit, counts, last]

/-- Without a connection, nothing is counted. -/
theorem Counts.unconnected {s : State} (counts : Counts s) (unconnected : s.conn.hdl = none)
    : s.conn.insCnt = 0 ∧ s.outstanding = 0 := by
  have balanced := counts.released.balanced
  have same := counts.same
  rw [unconnected] at balanced
  simp at balanced
  omega

/-- A step that meets the condition keeps the counts. -/
theorem Counts.step {s s' : State} {call : Call} (counts : Counts s) (taken : Step s call s')
    (releases : call.Releases s)
    : Counts s' := by
  obtain ⟨once, counted, balanced⟩ := counts.released
  have same := counts.same
  have bound := counts.bound
  cases taken with
  | @unInit conn outstanding =>
      obtain ⟨hdl, connected⟩ : ∃ hdl, conn.hdl = some hdl :=
        Option.isSome_iff_exists.mp (balanced.mpr (Nat.succ_pos outstanding))
      have counted : conn.insCnt = outstanding + 1 := same
      rw [redisUnInit_counted connected counted bound]
      split
      next last =>
        subst last
        exact ⟨⟨by simpa [connected] using once, by simp, by simp⟩, rfl, by simp⟩
      next more =>
        have some : 0 < outstanding := Nat.pos_of_ne_zero more
        exact ⟨⟨by simpa [connected] using once, by simp [connected, some],
          by simp [connected, some]⟩, rfl, by simp only at bound ⊢; omega⟩
  | init _ o =>
      obtain ⟨completes, room⟩ := releases
      cases connected : s.conn.hdl with
      | some hdl =>
          rw [connected] at once counted balanced room
          have bound := room rfl
          have positive : 0 < s.conn.insCnt := counted.mp rfl
          rw [redisInit_shared connected, int32_eq_self (by omega) (by omega)]
          exact ⟨⟨by simpa [connected] using once, by simp [connected]; omega, by simp [connected]⟩,
            by simp [same], by simp only; omega⟩
      | none =>
          obtain ⟨uncounted, balanced⟩ := counts.unconnected connected
          cases o with
          | noContext =>
              rw [redisInit_noContext connected uncounted]
              exact counts
          | context err authReply selectReply =>
              obtain ⟨⟨rfl, rfl⟩, rfl⟩ : (err = false ∧ authReply = true) ∧ selectReply = true := by
                simpa [Outcome.completes] using completes connected
              rw [redisInit_completes connected]
              refine ⟨⟨?_, by simp, by simp⟩, by simp [balanced], by simp⟩
              rw [connected, Option.toList_none, List.append_nil] at once
              simpa [List.range_succ] using once.append_right [s.conn.connected]

/-- A step that does not meet the condition loses a context or the count. -/
theorem Counts.not_released {s s' : State} {call : Call} (counts : Counts s)
    (taken : Step s call s') (fails : ¬call.Releases s)
    : ¬Released s' := by
  intro released
  have same := counts.same
  have bound := counts.bound
  cases taken with
  | unInit => exact fails trivial
  | init _ o =>
      cases connected : s.conn.hdl with
      | some hdl =>
          have full : s.conn.insCnt = 2 ^ 31 - 1 := by
            have overflows : ¬s.conn.insCnt < 2 ^ 31 - 1 := by
              simpa [Call.Releases, connected] using fails
            omega
          rw [redisInit_shared connected, full] at released
          have negative : 0 < int32 (2 ^ 31 - 1 + 1) :=
            released.counted.mp (by simp [connected])
          exact absurd negative (by decide)
      | none =>
          obtain ⟨uncounted, -⟩ := counts.unconnected connected
          have fails : o.completes = false := by simpa [Call.Releases, connected] using fails
          cases o with
          | noContext => contradiction
          | context err authReply selectReply =>
              rw [redisInit_fails connected uncounted fails] at released
              have before := counts.released.once.length_eq
              have after := released.once.length_eq
              simp [connected] at before after
              omega

/-- In a run, every context is freed exactly once or is the shared connection, which is there
exactly while it is counted and needed, if and only if no init fails after it has obtained a
context, or counts beyond an `int`.
-/
theorem released_run_iff {calls : List (State × Call)} {s : State}
    (run : Run Step .initial calls s)
    : ((∀ taken ∈ calls, Released taken.1) ∧ Released s)
      ↔ ∀ taken ∈ calls, taken.2.Releases taken.1 :=
  run.throughout_iff_of_invariant Counts Released (fun s call => call.Releases s)
    State.initial_counts State.initial_counts.released
    (fun taken counts =>
      ⟨fun released => by_contra fun fails => counts.not_released taken fails released,
        fun releases => (counts.step taken releases).released⟩)
    (fun taken counts releases => counts.step taken releases)

/-- Witness: a run in which a second init shares the connection that the last call frees. -/
theorem released_run_shared
    : ∃ calls s,
        Run Step .initial calls s
        ∧ calls.length = 4
        ∧ ((∀ taken ∈ calls, Released taken.1) ∧ Released s)
        ∧ s.conn.freed = [0] := by
  have opened : Run Step .initial _ _ :=
    Run.start.extend (.init .initial (.context false true true))
  have run := ((opened.extend (.init _ .noContext)).extend .unInit).extend .unInit
  exact ⟨_, _, run, rfl, (released_run_iff run).mpr (by decide), rfl⟩

/-- An init whose `AUTH` gets no reply loses its context. -/
theorem not_released_auth
    : ¬ ∀ calls s,
        Run Step .initial calls s
        → (∀ taken ∈ calls, Released taken.1) ∧ Released s := by
  intro always
  have run : Run Step .initial _ _ := Run.start.extend (.init .initial (.context false false true))
  have once := (always _ _ run).2.once.length_eq
  contradiction

end Cvos.RedisClt

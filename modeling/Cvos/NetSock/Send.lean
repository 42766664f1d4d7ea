import Cvos.Lib.CBuffer
import Mathlib.Algebra.BigOperators.Group.Finset.Basic
import Mathlib.Algebra.BigOperators.Intervals
import Mathlib.Algebra.Order.BigOperators.Group.Finset
import Mathlib.Data.Nat.Find

/-! How `netsock.c` sends a buffer, as often as the socket takes a part of it only. -/

namespace Cvos.NetSock

open Cvos.Lib

/-- The variables of the loop in `NET_Send`, and the bytes that the socket has taken. -/
structure Sending where
  p : Nat
  len : Int
  cnt : Int
  ret : Int
  sent : Bytes
  deriving DecidableEq, Repr

/-- The loop of `NET_Send`, before the call of `send` with the number `k`. The outcomes are what
the calls return, and a call that returns a number takes as many of the bytes that it is given.
-/
def sendLoop (outcomes : Nat → Int) (buf : Bytes) (k : Nat) (v : Sending) : Checked Sending :=
  if 0 < v.len then do
    let bytes ← copyFrom buf v.p v.len.toNat
    let ret := outcomes k
    if ret < 1 then
      .ok { v with ret := ret }
    else
      sendLoop outcomes buf (k + 1)
        { p := v.p + ret.toNat
          len := v.len - ret
          cnt := v.cnt + ret
          ret := ret
          sent := v.sent ++ bytes.take ret.toNat }
  else
    .ok v
termination_by v.len.toNat

/-- `NET_Send`: its result, and the bytes that the socket has taken. What was counted is returned
when a part of the buffer is left.
-/
def netSend (outcomes : Nat → Int) (buf : Option Bytes) (len : Int) : Checked (Int × Bytes) :=
  match buf with
  | none => .ok (-1, [])
  | some buf =>
      if len < 1 then
        .ok (-1, [])
      else do
        let v ← sendLoop outcomes buf 0 ⟨0, len, 0, 0, []⟩
        .ok (if v.len ≠ 0 then v.cnt else v.ret, v.sent)

/-- The bytes that the first `n` calls take, if none of them fails. -/
def taken (outcomes : Nat → Int) (n : Nat) : Int := ∑ k ∈ Finset.range n, outcomes k

/-- The first `n` calls do not fail. -/
def Succeed (outcomes : Nat → Int) (n : Nat) : Prop := ∀ k < n, 0 < outcomes k

/-- No call takes more bytes than it is given. -/
def Bounded (outcomes : Nat → Int) (len : Int) : Prop :=
  ∀ n, Succeed outcomes n → taken outcomes n < len → taken outcomes (n + 1) ≤ len

/-- The bytes that the socket takes are those at the start of the buffer, in their order, and their
number is returned unless it is 0.
-/
def Reports (outcomes : Nat → Int) (buf : Bytes) (len : Int) : Prop :=
  ∃ ret sent,
    netSend outcomes (some buf) len = .ok (ret, sent)
    ∧ sent.IsPrefix (buf.take len.toNat)
    ∧ (sent ≠ [] → ret = sent.length ∧ (ret = len ↔ sent = buf.take len.toNat))

section Loop

variable {outcomes : Nat → Int} {buf : Bytes} {len : Int} {n : Nat}

theorem taken_succ : taken outcomes (n + 1) = taken outcomes n + outcomes n :=
  Finset.sum_range_succ outcomes n

/-- The calls before the last one do not fail either. -/
theorem Succeed.before (succeed : Succeed outcomes (n + 1)) : Succeed outcomes n :=
  fun k earlier => succeed k (Nat.lt_succ_of_lt earlier)

/-- More calls take more bytes. -/
theorem Succeed.taken_lt {m : Nat} (succeed : Succeed outcomes n) (fewer : m < n)
    : taken outcomes m < taken outcomes n := by
  induction n with
  | zero => omega
  | succ n ih =>
      have last := succeed n (Nat.lt_succ_self n)
      rw [taken_succ]
      rcases Nat.lt_succ_iff_lt_or_eq.mp fewer with earlier | rfl
      · have further := ih succeed.before earlier
        omega
      · omega

theorem Succeed.taken_le {m : Nat} (succeed : Succeed outcomes n) (most : m ≤ n)
    : taken outcomes m ≤ taken outcomes n := by
  rcases Nat.lt_or_eq_of_le most with fewer | rfl
  · exact Int.le_of_lt (succeed.taken_lt fewer)
  · exact Int.le_refl _

/-- The number of calls is known from the number of bytes that they take. -/
theorem Succeed.eq_of_taken {m : Nat} (succeed : Succeed outcomes n) (succeed' : Succeed outcomes m)
    (same : taken outcomes n = taken outcomes m)
    : n = m := by
  rcases Nat.lt_trichotomy n m with fewer | same | more
  · have less := succeed'.taken_lt fewer
    omega
  · exact same
  · have greater := succeed.taken_lt more
    omega

theorem Succeed.taken_nonneg (succeed : Succeed outcomes n) : 0 ≤ taken outcomes n := by
  cases n with
  | zero => exact Int.le_refl 0
  | succ n => exact Int.le_of_lt (succeed.taken_lt (Nat.succ_pos n))

/-- A call that does not fail. -/
theorem sendLoop_takes {k : Nat} {v : Sending} (left : 0 < v.len)
    (inside : v.p + v.len.toNat ≤ buf.length) (takes : 0 < outcomes k)
    : sendLoop outcomes buf k v
      = sendLoop outcomes buf (k + 1)
          { p := v.p + (outcomes k).toNat
            len := v.len - outcomes k
            cnt := v.cnt + outcomes k
            ret := outcomes k
            sent := v.sent ++ ((buf.drop v.p).take v.len.toNat).take (outcomes k).toNat } := by
  rw [sendLoop, if_pos left, copyFrom, if_pos inside, Checked.ok_bind]
  exact if_neg (by omega)

/-- A call that fails ends the loop. -/
theorem sendLoop_fails {k : Nat} {v : Sending} (left : 0 < v.len)
    (inside : v.p + v.len.toNat ≤ buf.length) (fails : outcomes k < 1)
    : sendLoop outcomes buf k v = .ok { v with ret := outcomes k } := by
  rw [sendLoop, if_pos left, copyFrom, if_pos inside, Checked.ok_bind]
  exact if_pos fails

/-- With nothing left the loop ends. -/
theorem sendLoop_ends {k : Nat} {v : Sending} (nothing : v.len = 0)
    : sendLoop outcomes buf k v = .ok v := by
  rw [sendLoop, if_neg (by omega)]

/-- The variables of the loop after `n` calls that have not failed. -/
def after (outcomes : Nat → Int) (buf : Bytes) (len : Int) (n : Nat) : Sending where
  p := (taken outcomes n).toNat
  len := len - taken outcomes n
  cnt := taken outcomes n
  ret := if n = 0 then 0 else outcomes (n - 1)
  sent := buf.take (taken outcomes n).toNat

/-- What is left of the buffer lies inside it. -/
theorem after_inside (room : len ≤ buf.length) (succeed : Succeed outcomes n)
    (part : taken outcomes n ≤ len)
    : (after outcomes buf len n).p + (after outcomes buf len n).len.toNat ≤ buf.length := by
  have nonneg := succeed.taken_nonneg
  simp only [after]
  omega

/-- One call that does not fail. -/
theorem sendLoop_after_succ (room : len ≤ buf.length) (succeed : Succeed outcomes (n + 1))
    (part : taken outcomes (n + 1) ≤ len)
    : sendLoop outcomes buf n (after outcomes buf len n)
      = sendLoop outcomes buf (n + 1) (after outcomes buf len (n + 1)) := by
  have takes := succeed n (Nat.lt_succ_self n)
  have nonneg := succeed.before.taken_nonneg
  have next := @taken_succ outcomes n
  have left : 0 < (after outcomes buf len n).len := by
    simp only [after]
    omega
  rw [sendLoop_takes left (after_inside room succeed.before (by omega)) takes]
  have count : (taken outcomes (n + 1)).toNat = (taken outcomes n).toNat + (outcomes n).toNat := by
    omega
  have least : min (outcomes n).toNat (len - taken outcomes n).toNat = (outcomes n).toNat := by
    omega
  have rest : len - taken outcomes n - outcomes n = len - taken outcomes (n + 1) := by omega
  simp only [after, count, List.take_add, List.take_take, least, rest, ← next]
  simp

/-- The calls that do not fail, by induction on their number. -/
theorem sendLoop_after (room : len ≤ buf.length) (succeed : Succeed outcomes n)
    (part : taken outcomes n ≤ len)
    : sendLoop outcomes buf 0 ⟨0, len, 0, 0, []⟩
      = sendLoop outcomes buf n (after outcomes buf len n) := by
  induction n with
  | zero => simp [after, taken]
  | succ n ih =>
      have fewer := succeed.taken_lt (Nat.lt_succ_self n)
      rw [ih succeed.before (by omega), sendLoop_after_succ room succeed part]

/-- When the calls have taken the whole buffer, what the last of them took is returned. -/
theorem netSend_all (room : len ≤ buf.length) (positive : 0 < len)
    (succeed : Succeed outcomes (n + 1)) (all : taken outcomes (n + 1) = len)
    : netSend outcomes (some buf) len = .ok (outcomes n, buf.take len.toNat) := by
  have run := sendLoop_after room succeed (Int.le_of_eq all)
  rw [@sendLoop_ends _ _ _ (after outcomes buf len (n + 1)) (by simp [after, all])] at run
  simp only [netSend]
  rw [if_neg (by omega), run, Checked.ok_bind]
  simp [after, all]

/-- When a call fails, what the calls before it took is returned. -/
theorem netSend_failed (room : len ≤ buf.length) (succeed : Succeed outcomes n)
    (part : taken outcomes n < len) (fails : outcomes n < 1)
    : netSend outcomes (some buf) len
      = .ok (taken outcomes n, buf.take (taken outcomes n).toNat) := by
  have nonneg := succeed.taken_nonneg
  have run := sendLoop_after room succeed (Int.le_of_lt part)
  have left : 0 < (after outcomes buf len n).len := by
    simp only [after]
    omega
  rw [sendLoop_fails left (after_inside room succeed (by omega)) fails] at run
  simp only [netSend]
  rw [if_neg (by omega), run, Checked.ok_bind]
  dsimp only
  rw [if_pos (by omega)]
  rfl

/-- The calls go on until they have taken the whole buffer or one of them fails. -/
theorem exists_end (bounded : Bounded outcomes len) (positive : 0 < len)
    : ∃ n,
        Succeed outcomes n
        ∧ ((∃ last, n = last + 1 ∧ taken outcomes n = len)
          ∨ (taken outcomes n < len ∧ outcomes n < 1)) := by
  have ends : ∃ n, outcomes n < 1 ∨ len ≤ taken outcomes n := by
    by_contra never
    have succeed (n : Nat) : Succeed outcomes n := by
      intro k _
      have further := not_or.mp (not_exists.mp never k)
      omega
    -- Every call takes a byte at least.
    have grows (n : Nat) : (n : Int) ≤ taken outcomes n := by
      induction n with
      | zero => exact Int.le_refl 0
      | succ n ih =>
          have more := (succeed (n + 1)).taken_lt (Nat.lt_succ_self n)
          omega
    have enough := grows len.toNat
    have further := not_or.mp (not_exists.mp never len.toNat)
    omega
  have earlier {k : Nat} (before : k < Nat.find ends)
      : 0 < outcomes k ∧ taken outcomes k < len := by
    have further := not_or.mp (Nat.find_min ends before)
    omega
  have last := Nat.find_spec ends
  generalize Nat.find ends = n at *
  have succeed : Succeed outcomes n := fun k before => (earlier before).1
  refine ⟨n, succeed, ?_⟩
  by_cases all : len ≤ taken outcomes n
  · left
    cases n with
    | zero =>
        have zero : taken outcomes 0 = 0 := rfl
        omega
    | succ n =>
        have bound := bounded n succeed.before (earlier (Nat.lt_succ_self n)).2
        exact ⟨n, rfl, by omega⟩
  · right
    omega

/-- The number of bytes at the start of a buffer. -/
theorem length_front (room : len ≤ buf.length) {count : Int} (nonneg : 0 ≤ count)
    (part : count ≤ len)
    : (buf.take count.toNat).length = count := by
  rw [List.length_take]
  omega

/-- A whole buffer that was sent is reported exactly when one call has taken it. -/
theorem reports_all_iff (room : len ≤ buf.length) (positive : 0 < len)
    (succeed : Succeed outcomes (n + 1)) (all : taken outcomes (n + 1) = len)
    : Reports outcomes buf len ↔ n = 0 := by
  have sent := netSend_all room positive succeed all
  have whole := length_front room (Int.le_of_lt positive) (Int.le_refl len)
  have next := @taken_succ outcomes n
  constructor
  · rintro ⟨ret, bytes, returned, -, reported⟩
    rw [sent] at returned
    obtain ⟨rfl, rfl⟩ := Prod.mk.inj (Except.ok.inj returned)
    obtain ⟨count, -⟩ := reported (List.ne_nil_of_length_pos (by omega))
    -- The last call has taken all, so there was none before it.
    have none : Succeed outcomes 0 := fun k before => absurd before (Nat.not_lt_zero k)
    have zero : taken outcomes 0 = 0 := rfl
    exact succeed.before.eq_of_taken none (by omega)
  · rintro rfl
    have zero : taken outcomes 0 = 0 := rfl
    exact ⟨_, _, sent, List.prefix_refl _, fun _ => ⟨by omega, iff_of_true (by omega) rfl⟩⟩

/-- What was sent before a call that fails is reported. -/
theorem reports_failed (room : len ≤ buf.length) (succeed : Succeed outcomes n)
    (part : taken outcomes n < len) (fails : outcomes n < 1)
    : Reports outcomes buf len := by
  have nonneg := succeed.taken_nonneg
  have count := length_front room nonneg (Int.le_of_lt part)
  have whole := length_front room (by omega) (Int.le_refl len)
  refine ⟨_, _, netSend_failed room succeed part fails, ?_, fun _ => ⟨count.symm, ?_⟩⟩
  · exact List.take_prefix_take_left (by omega)
  · refine iff_of_false (by omega) ?_
    intro same
    rw [same] at count
    omega

end Loop

/-- What was sent is reported exactly when the whole buffer is taken by one call or not at all. -/
theorem reports_iff {outcomes : Nat → Int} {buf : Bytes} {len : Int} (positive : 0 < len)
    (room : len ≤ buf.length) (bounded : Bounded outcomes len)
    : Reports outcomes buf len
      ↔ ∀ n, Succeed outcomes n → taken outcomes n = len → n = 1 := by
  obtain ⟨n, succeed, ⟨last, rfl, all⟩ | ⟨part, fails⟩⟩ := exists_end bounded positive
  · rw [reports_all_iff room positive succeed all]
    constructor
    · rintro rfl n' succeed' all'
      exact succeed'.eq_of_taken succeed (all'.trans all.symm)
    · intro single
      have one := single _ succeed all
      omega
  · refine iff_of_true (reports_failed room succeed part fails) ?_
    intro n' succeed' all'
    rcases Nat.lt_or_ge n n' with more | fewer
    · have positive' := succeed' n more
      omega
    · have less := succeed.taken_le fewer
      omega

/-- Calls that all take the same number of bytes take no more than they are given, if the number
divides the length.
-/
theorem bounded_const {part : Int} {calls : Nat} (positive : 0 < part)
    : Bounded (fun _ => part) (calls * part) := by
  have total (n : Nat) : taken (fun _ => part) n = n * part := by simp [taken]
  intro n _ less
  rw [total] at less ⊢
  have fewer : (n : Int) < calls := Int.lt_of_mul_lt_mul_right less (Int.le_of_lt positive)
  exact Int.mul_le_mul_of_nonneg_right (by omega) (Int.le_of_lt positive)

/-- Witness: a buffer of two bytes that the first call takes. -/
theorem reports_iff_once : Reports (fun _ => 2) [1, 2] 2 := by
  refine (reports_iff (by decide) (by decide) (@bounded_const 2 1 (by decide))).mpr ?_
  intro n succeed all
  have total : taken (fun _ => 2) n = n * 2 := by simp [taken]
  omega

/-- Two calls that take a byte each are reported as one byte. -/
theorem not_reports_twice
    : ¬ ∀ (outcomes : Nat → Int) (buf : Bytes) (len : Int),
        0 < len → len ≤ buf.length → Bounded outcomes len → Reports outcomes buf len := by
  intro always
  obtain ⟨ret, sent, returned, -, reported⟩ :=
    always (fun _ => 1) [1, 2] 2 (by decide) (by decide) (@bounded_const 1 2 (by decide))
  have last :=
    @netSend_all (fun _ => 1) [1, 2] 2 1 (by decide) (by decide) (fun _ _ => Int.one_pos) rfl
  rw [returned] at last
  obtain ⟨rfl, rfl⟩ := Prod.mk.inj (Except.ok.inj last)
  obtain ⟨count, -⟩ := reported (by decide)
  exact absurd count (by decide)

end Cvos.NetSock

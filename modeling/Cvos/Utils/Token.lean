import Cvos.Utils.Interfaces
import Cvos.Vos.Md5Digest

/-! The tokens of `utils.c`, digests of a name and the time. -/

namespace Cvos.Utils

open Cvos.Lib Cvos.Vos Md5

/-- `utl_TokenCreate` at a time, with what the context held before: the bytes that are written to
`md5` and `ssum`, if they are no null pointers.
-/
def utlTokenCreate (ctx : MD5CTX) (seconds : Int) (str : Bytes) (md5 ssum : Bool)
    : Checked (Option Bytes × Option Bytes) := do
  let ctx := md5Init ctx
  let len ← strlen str 0
  let ctx ← md5UpdateInt ctx str 0 (int32 len)
  let ctx ← md5Update ctx (leBytes 8 (seconds % 2 ^ 64).toNat) 0 8
  let (sum, _) ← md5Final ctx
  .ok (if md5 then some sum else none, if ssum then some (sum.flatMap hex02 ++ [0]) else none)

/-- The number of bytes of a digest. -/
theorem length_bytes (s : State) : s.bytes.length = 16 := by simp [State.bytes]

/-- A token is the digest of the name with the time behind it, and its text has 32 digits. -/
theorem utlTokenCreate_eq {ctx : MD5CTX} (size : ctx.block.length = 64) (seconds : Int)
    {name : Bytes} (nulFree : ∀ c ∈ name, c ≠ 0) (short : name.length < 2 ^ 31) (behind : Bytes)
    (md5 ssum : Bool)
    : ∃ sum text,
        utlTokenCreate ctx seconds (name ++ 0 :: behind) md5 ssum
          = .ok (if md5 then some sum else none, if ssum then some (text ++ [0]) else none)
        ∧ sum = digest (name ++ leBytes 8 (seconds % 2 ^ 64).toNat)
        ∧ text = sum.flatMap hex02
        ∧ text.length = 32 := by
  have start : Tracks (md5Init ctx) [] := ⟨rfl, ⟨ctx.block, rfl⟩, size, rfl⟩
  obtain ⟨ctx₁, updated₁, tracks₁⟩ := md5UpdateInt_tracks start [] name (0 :: behind) short
  obtain ⟨ctx₂, updated₂, tracks₂⟩ :=
    md5Update_tracks tracks₁ [] (leBytes 8 (seconds % 2 ^ 64).toNat) []
  have final := md5Final_eq tracks₂
  rw [List.nil_append, List.length_nil] at updated₁
  rw [List.nil_append, List.append_nil, List.length_nil, length_leBytes] at updated₂
  rw [List.nil_append] at final
  refine ⟨_, _, ?_, rfl, rfl, ?_⟩
  · rw [utlTokenCreate, strlen_append nulFree, Checked.ok_bind]
    refine Checked.bind_eq_ok.mpr ⟨ctx₁, updated₁, Checked.bind_eq_ok.mpr ⟨ctx₂, updated₂, ?_⟩⟩
    exact Checked.bind_eq_ok.mpr ⟨_, final, rfl⟩
  · rw [List.length_flatMap, digest]
    simp [hex02, length_bytes]

/-- A token for a name of one letter, of which only the text is asked for. -/
theorem utlTokenCreate_letter
    : ∃ sum text,
        utlTokenCreate ⟨⟨0, 0, 0, 0⟩, List.replicate 64 0, 0⟩ 1700000000 [0x61, 0] false true
          = .ok (none, some (text ++ [0]))
        ∧ sum = digest ([0x61] ++ leBytes 8 1700000000)
        ∧ text = sum.flatMap hex02
        ∧ text.length = 32 :=
  @utlTokenCreate_eq ⟨⟨0, 0, 0, 0⟩, List.replicate 64 0, 0⟩ rfl 1700000000 [0x61] (by decide)
    (by decide) [] false true

end Cvos.Utils

import Cvos.Lib.CMemory
import Mathlib.Algebra.Group.Int.Defs
import Mathlib.Algebra.Group.Nat.Defs

/-! Accesses to a block of bytes by the integer types of C: indices that are an `int`, the length
of a string, and copies from and into a block.
-/

namespace Cvos.Lib

/-- The value of an `int` that is given an integer. -/
def int32 (z : Int) : Int := z.bmod (2 ^ 32)

/-- The value of an `unsigned int` that is given an integer. -/
def uint32 (z : Int) : Nat := (z % 2 ^ 32).toNat

/-- The value `mem[i]` for an `int` index. -/
def loadAt (mem : Bytes) (i : Int) : Checked UInt8 :=
  if i < 0 then .error .outOfBounds else load mem i.toNat

/-- The effect of `mem[i] = c` for an `int` index. -/
def storeAt (mem : Bytes) (i : Int) (c : UInt8) : Checked Bytes :=
  if i < 0 then .error .outOfBounds else store mem i.toNat c

/-- `strlen (p)` -/
def strlen (mem : Bytes) (p : Nat) : Checked Nat := do
  let stop ← scanWhile mem (· != 0) p
  .ok (stop - p)

/-- The bytes that `memcpy` reads. -/
def copyFrom (mem : Bytes) (p n : Nat) : Checked Bytes :=
  if p + n ≤ mem.length then .ok ((mem.drop p).take n) else .error .outOfBounds

/-- The effect of copying bytes to `p`. -/
def copyTo (mem : Bytes) (p : Nat) (bytes : Bytes) : Checked Bytes :=
  if p + bytes.length ≤ mem.length then
    .ok (mem.take p ++ (bytes ++ mem.drop (p + bytes.length)))
  else
    .error .outOfBounds

/-- The `n` bytes that `strncpy` writes for the string at the start of the block. -/
def strncpy : Bytes → Nat → Checked Bytes
  | _, 0 => .ok []
  | [], _ + 1 => .error .outOfBounds
  | c :: rest, n + 1 =>
      if c = 0 then .ok (List.replicate (n + 1) 0) else do
        let bytes ← strncpy rest n
        .ok (c :: bytes)

/-- The loop `for (i = 0; i < count; i++)` over the bytes `p[i]`, each of which changes a value. -/
def foldBytes {α : Type} (mem : Bytes) (step : α → UInt8 → α) : Nat → Nat → α → Checked α
  | _, 0, value => .ok value
  | p, count + 1, value => do
      let byte ← load mem p
      foldBytes mem step (p + 1) count (step value byte)

/-- An integer in the range of an `int` is its value. -/
theorem int32_eq_self {z : Int} (low : -2 ^ 31 ≤ z) (high : z < 2 ^ 31) : int32 z = z := by
  rw [int32, Int.bmod_eq_of_le] <;> omega

/-- A small length is an `int`. -/
theorem int32_natCast {len : Nat} (small : len < 2 ^ 31) : int32 len = len :=
  int32_eq_self (by omega) (by omega)

/-- The value of an `int` is below its bound. -/
theorem int32_lt (z : Int) : int32 z < 2 ^ 31 := by
  have bound := Int.bmod_lt (x := z) (m := 2 ^ 32) (by decide)
  rw [int32]
  omega

/-- Only an integer in the range of an `int` is its value. -/
theorem int32_eq_self_iff (z : Int) : int32 z = z ↔ -2 ^ 31 ≤ z ∧ z < 2 ^ 31 := by
  constructor
  · intro same
    have low := Int.le_bmod (x := z) (m := 2 ^ 32) (by decide)
    have high := int32_lt z
    rw [int32] at same high
    omega
  · exact fun range => int32_eq_self range.1 range.2

/-- From its bound up to twice the bound, the value of an `int` is negative. -/
theorem int32_neg {z : Int} (low : 2 ^ 31 ≤ z) (high : z < 2 ^ 32) : int32 z < 0 := by
  rw [int32, Int.bmod_def]
  omega

/-- A number in the range of an `unsigned int` is its value. -/
theorem uint32_eq_self {n : Nat} (bound : n < 2 ^ 32) : uint32 n = n := by
  rw [uint32]
  omega

/-- The value of an `int` that is not negative is that of an `unsigned int`. -/
theorem int32_eq_uint32 {z : Int} (small : uint32 z < 2 ^ 31) : int32 z = uint32 z := by
  rw [uint32] at small ⊢
  rw [int32, Int.bmod_def]
  omega

/-- An `unsigned int` only depends on the value of the `int` that it is given. -/
theorem uint32_int32 (z : Int) : uint32 (int32 z) = uint32 z := by
  have same : z.bmod (2 ^ 32) % (2 ^ 32 : Nat) = z % (2 ^ 32 : Nat) := Int.bmod_emod
  rw [uint32, uint32, int32]
  exact congrArg Int.toNat same

/-- Reading at an index that is not negative. -/
theorem loadAt_natCast (mem : Bytes) (p : Nat) : loadAt mem p = load mem p := by
  rw [loadAt, if_neg (by omega), Int.toNat_natCast]

/-- Writing behind a prefix that is known by its length. -/
theorem store_of_index {before : Bytes} {p : Nat} (index : p = before.length) (old c : UInt8)
    (rest : Bytes)
    : store (before ++ old :: rest) p c = .ok (before ++ c :: rest) := by
  rw [index, store_append_cons]

/-- Reading behind a prefix that is known by its length. -/
theorem load_of_index {before : Bytes} {p : Nat} (index : p = before.length) (c : UInt8)
    (rest : Bytes)
    : load (before ++ c :: rest) p = .ok c := by
  rw [index, load_append_cons]

/-- Writing behind a prefix that is known by its length, at an `int` index. -/
theorem storeAt_of_index {before : Bytes} {i : Int} (index : i = before.length)
    (bound : before.length < 2 ^ 31) (old c : UInt8) (rest : Bytes)
    : storeAt (before ++ old :: rest) (int32 i) c = .ok (before ++ c :: rest) := by
  rw [index, int32_eq_self (by omega) (by omega), storeAt, if_neg (by omega), Int.toNat_natCast,
    store_append_cons]

/-- Reading behind a prefix that is known by its length, at an `int` index. -/
theorem loadAt_of_index {before : Bytes} {i : Int} (index : i = before.length)
    (bound : before.length < 2 ^ 31) (c : UInt8) (rest : Bytes)
    : loadAt (before ++ c :: rest) (int32 i) = .ok c := by
  rw [index, int32_eq_self (by omega) (by omega), loadAt_natCast, load_append_cons]

/-- A write that does not go wrong has an index that is not negative. -/
theorem nonneg_of_storeAt {mem mem' : Bytes} {i : Int} {c : UInt8}
    (stored : storeAt mem i c = .ok mem')
    : 0 ≤ i := by
  rw [storeAt] at stored
  split at stored
  next => contradiction
  next nonneg => omega

/-- A read that does not go wrong has an index that is not negative. -/
theorem nonneg_of_loadAt {mem : Bytes} {i : Int} {c : UInt8} (read : loadAt mem i = .ok c)
    : 0 ≤ i := by
  rw [loadAt] at read
  split at read
  next => contradiction
  next nonneg => omega

/-- The length of a string at the start of a block. -/
theorem strlen_append {text : Bytes} (nulFree : ∀ c ∈ text, c ≠ 0) (rest : Bytes)
    : strlen (text ++ 0 :: rest) 0 = .ok text.length := by
  have filled : ∀ c ∈ text, (c != 0) = true := by simpa using nulFree
  have scanned := scanWhile_append [] rest filled (c := 0) rfl
  rw [List.nil_append, List.length_nil, Nat.zero_add] at scanned
  rw [strlen, scanned]
  rfl

/-- Copying a text without NUL copies the text. -/
theorem strncpy_append {text : Bytes} (nulFree : ∀ c ∈ text, c ≠ 0) (rest : Bytes)
    : strncpy (text ++ rest) text.length = .ok text := by
  induction text with
  | nil => cases rest <;> rfl
  | cons c text ih =>
      have filled : c ≠ 0 := nulFree c List.mem_cons_self
      rw [List.cons_append, List.length_cons, strncpy, if_neg filled,
        ih fun d member => nulFree d (List.mem_cons_of_mem c member)]
      rfl

/-- The loop over the bytes behind a prefix. -/
theorem foldBytes_append {α : Type} (before bytes rest : Bytes) (step : α → UInt8 → α) (value : α)
    : foldBytes (before ++ (bytes ++ rest)) step before.length bytes.length value
      = .ok (bytes.foldl step value) := by
  induction bytes generalizing before value with
  | nil => rfl
  | cons byte bytes ih =>
      have further := ih (before ++ [byte]) (step value byte)
      rw [List.append_assoc, List.singleton_append, List.length_append, List.length_singleton]
        at further
      rw [List.length_cons, List.cons_append, foldBytes, load_append_cons, Checked.ok_bind, further,
        List.foldl_cons]

/-- Reading the bytes behind a prefix. -/
theorem copyFrom_append (before bytes rest : Bytes)
    : copyFrom (before ++ (bytes ++ rest)) before.length bytes.length = .ok bytes := by
  rw [copyFrom, if_pos (by simp), List.drop_left, List.take_left]

/-- Copying over the bytes behind a prefix. -/
theorem copyTo_append (before old rest : Bytes) {bytes : Bytes} (length : bytes.length = old.length)
    : copyTo (before ++ (old ++ rest)) before.length bytes = .ok (before ++ (bytes ++ rest)) := by
  have behind : (before ++ (old ++ rest)).drop (before.length + bytes.length) = rest := by
    rw [length, ← List.append_assoc, ← List.length_append, List.drop_left]
  rw [copyTo, if_pos (by simp [length]), List.take_left, behind]

end Cvos.Lib

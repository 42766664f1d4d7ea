import Cvos.Utils.TextFields
import Mathlib.Algebra.Order.Round
import Mathlib.Data.Rat.Floor

/-! What `vos.c` reports of a mounted volume, and how it copies a file. Strings are given without
their terminators, and both functions print what they have done into a buffer on the stack.
-/

namespace Cvos.Vos

open Cvos.Lib

/-- `VosPrint`, which prints the line into a buffer of 1000 bytes. What the log does with it is left
out.
-/
def vosPrint (line : Bytes) : Checked Unit :=
  if line.length + 1 ≤ 1000 then .ok () else .error .outOfBounds

/-- A `struct statfs`, whose block size has a signed type. -/
structure StatFs where
  fBlocks : UInt64
  fBavail : UInt64
  fBsize : Int64

/-- `kscale` -/
def kscale (b bs : UInt64) : UInt64 := (b * bs + 1024 / 2) / 1024

/-- The line that `osGetStorageInfo` prints, where the sizes are passed on as unsigned numbers. -/
def storageLine (mountPoint : Bytes) (totalKiloBytes freeKiloBytes ret : Int) : Bytes :=
  Utils.literal ":osGetStorageInfo("
    ++ mountPoint
    ++ Utils.literal ",1K-blocks="
    ++ blankPadded 9 (totalKiloBytes % 2 ^ 64).toNat
    ++ Utils.literal ",Available="
    ++ blankPadded 9 (freeKiloBytes % 2 ^ 64).toNat
    ++ Utils.literal "),ret="
    ++ decimalInt ret
    ++ Utils.literal "\n"

/-- `osGetStorageInfo`: its result, and the two sizes behind its pointers. -/
def osGetStorageInfo (statfs : Bytes → Option StatFs) (mountPoint : Option Bytes)
    (totalKiloBytes freeKiloBytes : Option Int)
    : Checked (Int × Option Int × Option Int) :=
  match mountPoint, totalKiloBytes, freeKiloBytes with
  | some mountPoint, some totalKiloBytes, some freeKiloBytes =>
      match statfs mountPoint with
      | none => do
          let ret := -2
          vosPrint (storageLine mountPoint totalKiloBytes freeKiloBytes ret)
          .ok (ret, some totalKiloBytes, some freeKiloBytes)
      | some statFS => do
          let ret := 0
          let totalKiloBytes := int32 (kscale statFS.fBlocks statFS.fBsize.toUInt64).toNat
          let freeKiloBytes := int32 (kscale statFS.fBavail statFS.fBsize.toUInt64).toNat
          vosPrint (storageLine mountPoint totalKiloBytes freeKiloBytes ret)
          .ok (ret, some totalKiloBytes, some freeKiloBytes)
  | _, _, _ => .ok (-1, totalKiloBytes, freeKiloBytes)

/-- The number of bytes in some blocks. -/
def inBytes (blocks : UInt64) (bsize : Int64) : Int := blocks.toNat * bsize.toInt

/-- The number of kilobytes in some blocks, rounded to the nearest integer. -/
def inKiloBytes (blocks : UInt64) (bsize : Int64) : Int := round ((inBytes blocks bsize : ℚ) / 1024)

/-- The sizes of a volume are stored as numbers of kilobytes. -/
def Stores (statfs : Bytes → Option StatFs) (mountPoint : Bytes) (volume : StatFs) : Prop :=
  ∀ oldTotal oldFree, ∃ totalKiloBytes freeKiloBytes,
    osGetStorageInfo statfs (some mountPoint) (some oldTotal) (some oldFree)
        = .ok (0, some totalKiloBytes, some freeKiloBytes)
      ∧ totalKiloBytes = inKiloBytes volume.fBlocks volume.fBsize
      ∧ freeKiloBytes = inKiloBytes volume.fBavail volume.fBsize
      ∧ 0 ≤ freeKiloBytes
      ∧ freeKiloBytes ≤ totalKiloBytes

/-- A half is rounded up. -/
theorem inKiloBytes_eq (blocks : UInt64) (bsize : Int64)
    : inKiloBytes blocks bsize = (inBytes blocks bsize + 512) / 1024 := by
  have half
      : (inBytes blocks bsize : ℚ) / 1024 + 1 / 2
        = ((inBytes blocks bsize + 512 : Int) : ℚ) / (1024 : Nat) := by
    push_cast
    ring
  rw [inKiloBytes, round_eq, half, Rat.floor_intCast_div_natCast]
  rfl

/-- A signed number as an unsigned one. -/
theorem toNat_toUInt64 (z : Int64) : (z.toUInt64.toNat : Int) = z.toInt % 2 ^ 64 := by
  have signed : z.toInt = (z.toUInt64.toNat : Int).bmod (2 ^ 64) :=
    BitVec.toInt_eq_toNat_bmod z.toBitVec
  have same := @Int.bmod_emod z.toUInt64.toNat (2 ^ 64)
  have small := z.toUInt64.toNat_lt
  omega

/-- What `kscale` loses in its product does not reach the `int` that is stored. -/
theorem int32_kscale (blocks : UInt64) (bsize : Int64)
    : int32 (kscale blocks bsize.toUInt64).toNat = int32 (inKiloBytes blocks bsize) := by
  have product
      : ((blocks * bsize.toUInt64).toNat : Int) = inBytes blocks bsize % 2 ^ 64 := by
    have factor (b z : Int) : b * (z % 2 ^ 64) % 2 ^ 64 = b * z % 2 ^ 64 := by
      rw [Int.mul_emod, Int.emod_emod, ← Int.mul_emod]
    rw [UInt64.toNat_mul, Int.natCast_emod, Int.natCast_mul, toNat_toUInt64 bsize]
    exact factor _ _
  have value
      : ((kscale blocks bsize.toUInt64).toNat : Int)
        = (inBytes blocks bsize + 512) % 2 ^ 64 / 1024 := by
    rw [kscale, UInt64.toNat_div, UInt64.toNat_add]
    have half : (1024 / 2 : UInt64).toNat = 512 := rfl
    have unit : (1024 : UInt64).toNat = 1024 := rfl
    rw [half, unit]
    omega
  -- The multiples of 2 ^ 64 are multiples of 2 ^ 32 also after the division.
  have cut
      : (inBytes blocks bsize + 512) % 2 ^ 64 / 1024
        = (inBytes blocks bsize + 512) / 1024
          - (2 ^ 32 : Nat) * (2 ^ 22 * ((inBytes blocks bsize + 512) / 2 ^ 64)) := by
    omega
  rw [value, cut, inKiloBytes_eq, int32, Int.sub_mul_bmod_self_left]
  rfl

/-- A call for a mounted volume. -/
theorem osGetStorageInfo_mounted {statfs : Bytes → Option StatFs} {mountPoint : Bytes}
    {volume : StatFs} (mounted : statfs mountPoint = some volume) (oldTotal oldFree : Int)
    : osGetStorageInfo statfs (some mountPoint) (some oldTotal) (some oldFree)
      = (do
          let totalKiloBytes := int32 (inKiloBytes volume.fBlocks volume.fBsize)
          let freeKiloBytes := int32 (inKiloBytes volume.fBavail volume.fBsize)
          vosPrint (storageLine mountPoint totalKiloBytes freeKiloBytes 0)
          .ok (0, some totalKiloBytes, some freeKiloBytes)) := by
  simp only [osGetStorageInfo, mounted, int32_kscale]

/-- No more blocks are available than there are, so neither is the number of their bytes larger, or
the block size is negative.
-/
theorem inBytes_available {volume : StatFs} (available : volume.fBavail ≤ volume.fBlocks)
    : let total := inBytes volume.fBlocks volume.fBsize
      let free := inBytes volume.fBavail volume.fBsize
      (0 ≤ free ∧ free ≤ total) ∨ (total ≤ free ∧ free ≤ 0) := by
  have fewer : (volume.fBavail.toNat : Int) ≤ volume.fBlocks.toNat :=
    Int.ofNat_le.mpr (UInt64.le_iff_toNat_le.mp available)
  have nonneg : (0 : Int) ≤ volume.fBavail.toNat := Int.natCast_nonneg _
  rcases Int.le_total 0 volume.fBsize.toInt with positive | negative
  · exact .inl ⟨Int.mul_nonneg nonneg positive, Int.mul_le_mul_of_nonneg_right fewer positive⟩
  · exact .inr ⟨Int.mul_le_mul_of_nonpos_right fewer negative,
      Int.mul_nonpos_of_nonneg_of_nonpos nonneg negative⟩

/-- Sizes that are stored fit an `int`, and the line that is printed fits its buffer. -/
theorem range_of_stores {statfs : Bytes → Option StatFs} {mountPoint : Bytes} {volume : StatFs}
    (mounted : statfs mountPoint = some volume) (stores : Stores statfs mountPoint volume)
    : 0 ≤ inKiloBytes volume.fBavail volume.fBsize
      ∧ inKiloBytes volume.fBavail volume.fBsize ≤ inKiloBytes volume.fBlocks volume.fBsize
      ∧ inKiloBytes volume.fBlocks volume.fBsize < 2 ^ 31
      ∧ (storageLine mountPoint (inKiloBytes volume.fBlocks volume.fBsize)
          (inKiloBytes volume.fBavail volume.fBsize) 0).length
        < 1000 := by
  obtain ⟨totalKiloBytes, freeKiloBytes, run, sameTotal, sameFree, nonneg, less⟩ := stores 0 0
  rw [osGetStorageInfo_mounted mounted] at run
  obtain ⟨⟨⟩, printed, run⟩ := Checked.bind_eq_ok.mp run
  have stored := Prod.mk.inj (Prod.mk.inj (Except.ok.inj run)).2
  have storedTotal := (Option.some.inj stored.1).trans sameTotal
  have storedFree := (Option.some.inj stored.2).trans sameFree
  rw [storedTotal, storedFree, vosPrint] at printed
  rw [sameFree] at nonneg
  rw [sameTotal, sameFree] at less
  refine ⟨nonneg, less, ((int32_eq_self_iff _).mp storedTotal).2, ?_⟩
  split at printed
  next fits => exact fits
  next => contradiction

/-- The sizes are stored exactly when the volume has less than 2 TiB, up to the rounding, and the
line that is printed fits its buffer.
-/
theorem stores_iff {statfs : Bytes → Option StatFs} {mountPoint : Bytes} {volume : StatFs}
    (mounted : statfs mountPoint = some volume) (available : volume.fBavail ≤ volume.fBlocks)
    : Stores statfs mountPoint volume
      ↔ (-512 ≤ inBytes volume.fBlocks volume.fBsize
          ∧ inBytes volume.fBlocks volume.fBsize < 2 ^ 41 - 512)
        ∧ (storageLine mountPoint (inKiloBytes volume.fBlocks volume.fBsize)
            (inKiloBytes volume.fBavail volume.fBsize) 0).length
          < 1000 := by
  have order := inBytes_available available
  have total := inKiloBytes_eq volume.fBlocks volume.fBsize
  have free := inKiloBytes_eq volume.fBavail volume.fBsize
  dsimp only at order
  constructor
  · intro stores
    obtain ⟨nonneg, less, small, fits⟩ := range_of_stores mounted stores
    exact ⟨by omega, fits⟩
  · rintro ⟨range, fits⟩ oldTotal oldFree
    have storedTotal : int32 (inKiloBytes volume.fBlocks volume.fBsize) = _ :=
      int32_eq_self (by omega) (by omega)
    have storedFree : int32 (inKiloBytes volume.fBavail volume.fBsize) = _ :=
      int32_eq_self (by omega) (by omega)
    refine ⟨_, _, ?_, rfl, rfl, by omega, by omega⟩
    rw [osGetStorageInfo_mounted mounted, storedTotal, storedFree]
    dsimp only
    rw [vosPrint, if_pos (Nat.succ_le_of_lt fits), Checked.ok_bind]

/-- A card of 4 GB, of which a half is available. -/
def card : StatFs := ⟨1000000, 500000, 4096⟩

/-- Witness: the sizes of a card are stored. -/
theorem stores_iff_card : Stores (fun _ => some card) (Utils.literal "/mnt/sd") card := by
  refine (stores_iff rfl (by decide)).mpr ⟨by decide, ?_⟩
  rw [inKiloBytes_eq, inKiloBytes_eq]
  decide

/-- A disk of 2 TiB. -/
def disk : StatFs := ⟨0x20000000, 0, 4096⟩

/-- The size of a disk of 2 TiB is stored as a negative number. -/
theorem not_stores_disk
    : ¬ ∀ (statfs : Bytes → Option StatFs) (mountPoint : Bytes) (volume : StatFs),
        statfs mountPoint = some volume
        → volume.fBavail ≤ volume.fBlocks
        → inBytes volume.fBlocks volume.fBsize < 2 ^ 63
        → Stores statfs mountPoint volume := by
  intro always
  have stores := always (fun _ => some disk) (Utils.literal "/mnt") disk rfl (by decide) (by decide)
  have small := (range_of_stores rfl stores).2.2.1
  rw [inKiloBytes_eq] at small
  exact absurd small (by decide)

/-- What the system calls of `osFileCopy` return. A file can be opened or not, `fstat` succeeds or
not, and a call of `read` or `write` moves no more bytes than its outcome says.
-/
structure Outcomes where
  rd : Bool
  wd : Bool
  fstat : Bool
  read : Nat → Int
  write : Nat → Int

/-- The variables of the loop in `osFileCopy`: the offsets of both files, the bytes of the second
one, and the number of bytes that were counted.
-/
structure Copying where
  rd : Nat
  wd : Nat
  bytes : Bytes
  size : Int
  deriving DecidableEq, Repr

/-- A file after a write at an offset. What lies behind the write stays. -/
def writeAt (bytes : Bytes) (offset : Nat) (buf : Bytes) : Bytes :=
  bytes.take offset ++ (buf ++ bytes.drop (offset + buf.length))

/-- What the call of `read` with the number `k` returns at an offset. The buffer has `0x1000` bytes.
-/
def readLen (outcomes : Outcomes) (content : Bytes) (k rd : Nat) : Int :=
  min (outcomes.read k) (min 0x1000 (content.length - rd) : Nat)

/-- The loop of `osFileCopy`, before the calls with the number `k`. The result of a `write` that
fails is overwritten behind the loop.
-/
def copyLoop (outcomes : Outcomes) (content : Bytes) (k : Nat) (v : Copying) : Copying :=
  let len := readLen outcomes content k v.rd
  if len ≤ 0 then
    v
  else
    let buf := (content.drop v.rd).take len.toNat
    let ret := min (outcomes.write k) len
    let bytes := writeAt v.bytes v.wd (buf.take ret.toNat)
    if len ≠ ret then
      { v with rd := v.rd + len.toNat, wd := v.wd + ret.toNat, bytes := bytes }
    else
      copyLoop outcomes content (k + 1)
        { rd := v.rd + len.toNat
          wd := v.wd + ret.toNat
          bytes := bytes
          size := int32 (v.size + len) }
termination_by content.length - v.rd
decreasing_by
  have some : ¬ readLen outcomes content k v.rd ≤ 0 := by assumption
  rw [readLen] at some ⊢
  omega

/-- The line that `osFileCopy` prints. -/
def copyLine (infile outfile : Bytes) (ret : Int) : Bytes :=
  Utils.literal ":osFileCopy("
    ++ infile
    ++ Utils.literal ","
    ++ outfile
    ++ Utils.literal "),ret="
    ++ decimalInt ret
    ++ Utils.literal "\n"

/-- What `osFileCopy` does in front of `End`. The file that is written is created if it is absent,
and keeps its bytes otherwise.
-/
def copyFile (outcomes : Outcomes) (content : Bytes) (old : Option Bytes) : Int × Option Bytes :=
  if outcomes.rd = false then
    (-2, old)
  else if outcomes.wd = false then
    (-3, old)
  else if outcomes.fstat = false then
    (-4, some (old.getD []))
  else
    let v := copyLoop outcomes content 0 ⟨0, 0, old.getD [], 0⟩
    (if content.length ≠ v.size then -5 else 0, some v.bytes)

/-- `osFileCopy`: its result, and the second file after the call. The names are those of different
files.
-/
def osFileCopy (outcomes : Outcomes) (infile outfile : Option Bytes) (content : Bytes)
    (old : Option Bytes)
    : Checked (Int × Option Bytes) :=
  match infile, outfile with
  | some infile, some outfile => do
      let copy := copyFile outcomes content old
      vosPrint (copyLine infile outfile copy.1)
      .ok copy
  | _, _ => .ok (-1, old)

/-- A copy that reports success is a copy. -/
def CopiesOnSuccess (content : Bytes) (old : Option Bytes) : Prop :=
  ∀ outcomes infile outfile bytes,
    osFileCopy outcomes infile outfile content old = .ok (0, bytes) → bytes = some content

/-- The part of a file that was read has been counted, and written over the old bytes. -/
structure Copied (content old : Bytes) (v : Copying) : Prop where
  inside : v.rd ≤ content.length
  wd : v.wd = v.rd
  bytes : v.bytes = content.take v.rd ++ old.drop v.rd
  size : v.size = int32 v.rd

section Copy

variable {outcomes : Outcomes} {content old : Bytes}

/-- Before the loop. -/
theorem Copied.start : Copied content old ⟨0, 0, old, 0⟩ where
  inside := Nat.zero_le _
  wd := rfl
  bytes := by simp
  size := by simp [int32]

/-- A write behind what was copied. -/
theorem writeAt_copied {offset n : Nat} (inside : offset + n ≤ content.length)
    : writeAt (content.take offset ++ old.drop offset) offset ((content.drop offset).take n)
      = content.take (offset + n) ++ old.drop (offset + n) := by
  have before : (content.take offset).length = offset := by
    rw [List.length_take]
    omega
  have length : ((content.drop offset).take n).length = n := by
    rw [List.length_take, List.length_drop]
    omega
  rw [writeAt, length, List.take_left' before, ← List.drop_drop, List.drop_left' before,
    List.drop_drop, List.take_add, List.append_assoc]

/-- A further part. -/
theorem Copied.next {v : Copying} (copied : Copied content old v) {n : Nat}
    (inside : v.rd + n ≤ content.length)
    : Copied content old
        { rd := v.rd + n
          wd := v.wd + n
          bytes := writeAt v.bytes v.wd ((content.drop v.rd).take n)
          size := int32 (v.size + n) } where
  inside := inside
  wd := by rw [copied.wd]
  bytes := by rw [copied.bytes, copied.wd, writeAt_copied inside]
  size := by
    simp only [copied.size, int32, Int.bmod_add_bmod, Int.natCast_add]

/-- The loop ends where nothing is read. -/
theorem copyLoop_ends {k : Nat} {v : Copying} (none : readLen outcomes content k v.rd ≤ 0)
    : copyLoop outcomes content k v = v := by
  rw [copyLoop, if_pos none]

/-- A `write` that does not take all bytes ends the loop, and none of them is counted. -/
theorem copyLoop_fails {k : Nat} {v : Copying} (some : 0 < readLen outcomes content k v.rd)
    (fails : outcomes.write k < readLen outcomes content k v.rd)
    : (copyLoop outcomes content k v).size = v.size := by
  rw [copyLoop, if_neg (by omega), if_pos (by omega)]

/-- The bytes that are read are written. -/
theorem copyLoop_moves {k n : Nat} {v : Copying} (read : readLen outcomes content k v.rd = n)
    (some : 0 < n) (moved : n ≤ outcomes.write k)
    : copyLoop outcomes content k v
      = copyLoop outcomes content (k + 1)
          { rd := v.rd + n
            wd := v.wd + n
            bytes := writeAt v.bytes v.wd ((content.drop v.rd).take n)
            size := int32 (v.size + n) } := by
  have ret : min (outcomes.write k) n = n := Int.min_eq_right moved
  rw [copyLoop, read, if_neg (by omega), ret, if_neg (not_not.mpr rfl), Int.toNat_natCast,
    List.take_take, Nat.min_self]

/-- The loop ends behind a part that was copied, where nothing is read or a `write` fails, by
induction on the bytes that are left.
-/
theorem copyLoop_run (k : Nat) {v : Copying} (copied : Copied content old v)
    : ∃ k' v',
        Copied content old v'
        ∧ (copyLoop outcomes content k v).size = v'.size
        ∧ ((readLen outcomes content k' v'.rd ≤ 0 ∧ copyLoop outcomes content k v = v')
          ∨ (0 < readLen outcomes content k' v'.rd
            ∧ outcomes.write k' < readLen outcomes content k' v'.rd)) := by
  induction left : content.length - v.rd using Nat.strongRecOn generalizing k v with
  | ind left ih =>
      rcases lt_or_ge 0 (readLen outcomes content k v.rd) with some | none
      · rcases lt_or_ge (outcomes.write k) (readLen outcomes content k v.rd) with fails | moved
        · exact ⟨k, v, copied, copyLoop_fails some fails, .inr ⟨some, fails⟩⟩
        · obtain ⟨n, read⟩ := Int.eq_ofNat_of_zero_le (Int.le_of_lt some)
          have room : n ≤ content.length - v.rd := by
            rw [readLen] at read
            omega
          rw [copyLoop_moves read (by omega) (by omega)]
          exact ih _ (by dsimp only; omega) (k + 1) (copied.next (by omega)) rfl
      · exact ⟨k, v, copied, by rw [copyLoop_ends none], .inl ⟨none, copyLoop_ends none⟩⟩

/-- A loop that counts all bytes has written them over the old ones. -/
theorem copyLoop_counts (k : Nat) {v : Copying} (copied : Copied content old v)
    (counts : (content.length : Int) = (copyLoop outcomes content k v).size)
    : content.length < 2 ^ 31
      ∧ (copyLoop outcomes content k v).bytes = content ++ old.drop content.length := by
  obtain ⟨k', v', copied', size, ends⟩ := @copyLoop_run outcomes content old k v copied
  have inside := copied'.inside
  rw [size, copied'.size] at counts
  have short := int32_lt v'.rd
  have own : int32 v'.rd = v'.rd := int32_eq_self (by omega) (by omega)
  have all : v'.rd = content.length := by omega
  have none : readLen outcomes content k' v'.rd ≤ 0 := by
    rw [readLen]
    omega
  rcases ends with ⟨-, same⟩ | ⟨some, -⟩
  · rw [same, copied'.bytes, all, List.take_length]
    exact ⟨by omega, rfl⟩
  · omega

/-- With calls that do not fail, the loop counts all bytes. -/
theorem copyLoop_all (reads : ∀ k, 0 < outcomes.read k) (writes : ∀ k, 0x1000 ≤ outcomes.write k)
    (k : Nat) {v : Copying} (copied : Copied content old v)
    : (copyLoop outcomes content k v).size = int32 content.length := by
  obtain ⟨k', v', copied', size, ends⟩ := @copyLoop_run outcomes content old k v copied
  have inside := copied'.inside
  have positive := reads k'
  have enough := writes k'
  have all : v'.rd = content.length := by
    rw [readLen] at ends
    omega
  rw [size, copied'.size, all]

end Copy

/-- Success is reported when the loop has counted as many bytes as the file has. -/
theorem counts_of_copyFile {outcomes : Outcomes} {content : Bytes} {old bytes : Option Bytes}
    (success : copyFile outcomes content old = (0, bytes))
    : (content.length : Int) = (copyLoop outcomes content 0 ⟨0, 0, old.getD [], 0⟩).size
      ∧ bytes = some (copyLoop outcomes content 0 ⟨0, 0, old.getD [], 0⟩).bytes := by
  rw [copyFile] at success
  split at success
  next => cases success
  next =>
    split at success
    next => cases success
    next =>
      split at success
      next => cases success
      next =>
        obtain ⟨ret, same⟩ := Prod.mk.inj success
        split at ret
        next => cases ret
        next counts => exact ⟨not_not.mp counts, same.symm⟩

/-- A call that reports success has written the first file over the second one. -/
theorem bytes_of_success {outcomes : Outcomes} {infile outfile : Option Bytes} {content : Bytes}
    {old bytes : Option Bytes}
    (success : osFileCopy outcomes infile outfile content old = .ok (0, bytes))
    : content.length < 2 ^ 31
      ∧ bytes = some (content ++ (old.getD []).drop content.length) := by
  cases infile with
  | none => cases success
  | some infile =>
      cases outfile with
      | none => cases success
      | some outfile =>
          obtain ⟨⟨⟩, -, run⟩ := Checked.bind_eq_ok.mp success
          obtain ⟨counts, rfl⟩ := counts_of_copyFile (Except.ok.inj run)
          obtain ⟨short, same⟩ := copyLoop_counts 0 Copied.start counts
          exact ⟨short, congrArg some same⟩

/-- No call fails, and each one moves all bytes that it can. -/
def Outcomes.whole : Outcomes := ⟨true, true, true, fun _ => 0x1000, fun _ => 0x1000⟩

/-- When no call fails, the first file is written over the second one. -/
theorem success_of_all {infile outfile content : Bytes}
    (printed : vosPrint (copyLine infile outfile 0) = .ok ()) (short : content.length < 2 ^ 31)
    (old : Option Bytes)
    : osFileCopy .whole (some infile) (some outfile) content old
      = .ok (0, some (content ++ (old.getD []).drop content.length)) := by
  have positive : (0 : Int) < 0x1000 := by decide
  have size :=
    @copyLoop_all .whole content (old.getD []) (fun _ => positive) (fun _ => Int.le_refl _) 0 _
      Copied.start
  rw [int32_eq_self (by omega) (by omega)] at size
  have bytes := (copyLoop_counts 0 Copied.start size.symm).2
  have copy
      : copyFile .whole content old
        = (0, some (content ++ (old.getD []).drop content.length)) := by
    rw [copyFile, if_neg nofun, if_neg nofun, if_neg nofun]
    dsimp only
    rw [size, bytes, if_neg (not_not.mpr rfl)]
  simp only [osFileCopy, copy, printed]
  rfl

/-- A copy that reports success is a copy exactly when the old file was not longer than the new one,
or no copy is ever reported since the size of the new one is no `int`.
-/
theorem copiesOnSuccess_iff (content : Bytes) (old : Option Bytes)
    : CopiesOnSuccess content old
      ↔ (old.getD []).length ≤ content.length ∨ 2 ^ 31 ≤ content.length := by
  constructor
  · intro copies
    have printed : vosPrint (copyLine (Utils.literal "a") (Utils.literal "b") 0) = .ok () := rfl
    rcases lt_or_ge content.length (2 ^ 31) with short | long
    · left
      have same := Option.some.inj (copies _ _ _ _ (success_of_all printed short old))
      exact List.drop_eq_nil_iff.mp (List.append_right_eq_self.mp same)
    · exact .inr long
  · rintro shorter outcomes infile outfile bytes success
    obtain ⟨short, rfl⟩ := bytes_of_success success
    rw [List.drop_eq_nil_iff.mpr (by omega), List.append_nil]

/-- A longer file keeps its end. -/
theorem not_copiesOnSuccess_longer
    : ¬ ∀ (content : Bytes) (old : Option Bytes), CopiesOnSuccess content old := by
  intro always
  have copies := always (Utils.literal "ab") (some (Utils.literal "wxyz"))
  have printed : vosPrint (copyLine (Utils.literal "a") (Utils.literal "b") 0) = .ok () := rfl
  have same := copies _ _ _ _ (success_of_all printed (by decide) _)
  exact absurd same (by decide)

end Cvos.Vos

import Cvos.Lib.CBuffer
import Cvos.Lib.Md5

/-! The message digest of `vos.c`, on a machine whose byte order is little-endian. The steps of a
block are written out one by one on four variables, a context gathers its message in parts, and
`md5_final` pads it inside the context.
-/

namespace Cvos.Vos

open Cvos.Lib Md5

/-- `F1` -/
def f1 (x y z : UInt32) : UInt32 := z ^^^ (x &&& (y ^^^ z))

/-- `F2` -/
def f2 (x y z : UInt32) : UInt32 := f1 z x y

/-- `F3` -/
def f3 (x y z : UInt32) : UInt32 := x ^^^ y ^^^ z

/-- `F4` -/
def f4 (x y z : UInt32) : UInt32 := y ^^^ (x ||| ~~~z)

/-- The value of `w` after `MD5STEP`. -/
def md5Step (f : UInt32 → UInt32 → UInt32 → UInt32) (w x y z input s : UInt32) : UInt32 :=
  let w := w + (f x y z + input)
  ((w <<< s) ||| (w >>> (32 - s))) + x

section Steps

variable (f : UInt32 → UInt32 → UInt32 → UInt32) (input s : UInt32) (v : State)

/-- `MD5STEP (f, a, b, c, d, in, s)` -/
def stepA : State := { v with a := md5Step f v.a v.b v.c v.d input s }

/-- `MD5STEP (f, d, a, b, c, in, s)` -/
def stepD : State := { v with d := md5Step f v.d v.a v.b v.c input s }

/-- `MD5STEP (f, c, d, a, b, in, s)` -/
def stepC : State := { v with c := md5Step f v.c v.d v.a v.b input s }

/-- `MD5STEP (f, b, c, d, a, in, s)` -/
def stepB : State := { v with b := md5Step f v.b v.c v.d v.a input s }

end Steps

/-- The first 16 lines of `md5_transform`. -/
def transform1 (input : Nat → UInt32) (v : State) : State :=
  v
    |> stepA f1 (input 0 + 0xd76aa478) 7
    |> stepD f1 (input 1 + 0xe8c7b756) 12
    |> stepC f1 (input 2 + 0x242070db) 17
    |> stepB f1 (input 3 + 0xc1bdceee) 22
    |> stepA f1 (input 4 + 0xf57c0faf) 7
    |> stepD f1 (input 5 + 0x4787c62a) 12
    |> stepC f1 (input 6 + 0xa8304613) 17
    |> stepB f1 (input 7 + 0xfd469501) 22
    |> stepA f1 (input 8 + 0x698098d8) 7
    |> stepD f1 (input 9 + 0x8b44f7af) 12
    |> stepC f1 (input 10 + 0xffff5bb1) 17
    |> stepB f1 (input 11 + 0x895cd7be) 22
    |> stepA f1 (input 12 + 0x6b901122) 7
    |> stepD f1 (input 13 + 0xfd987193) 12
    |> stepC f1 (input 14 + 0xa679438e) 17
    |> stepB f1 (input 15 + 0x49b40821) 22

/-- The second 16 lines of `md5_transform`. -/
def transform2 (input : Nat → UInt32) (v : State) : State :=
  v
    |> stepA f2 (input 1 + 0xf61e2562) 5
    |> stepD f2 (input 6 + 0xc040b340) 9
    |> stepC f2 (input 11 + 0x265e5a51) 14
    |> stepB f2 (input 0 + 0xe9b6c7aa) 20
    |> stepA f2 (input 5 + 0xd62f105d) 5
    |> stepD f2 (input 10 + 0x02441453) 9
    |> stepC f2 (input 15 + 0xd8a1e681) 14
    |> stepB f2 (input 4 + 0xe7d3fbc8) 20
    |> stepA f2 (input 9 + 0x21e1cde6) 5
    |> stepD f2 (input 14 + 0xc33707d6) 9
    |> stepC f2 (input 3 + 0xf4d50d87) 14
    |> stepB f2 (input 8 + 0x455a14ed) 20
    |> stepA f2 (input 13 + 0xa9e3e905) 5
    |> stepD f2 (input 2 + 0xfcefa3f8) 9
    |> stepC f2 (input 7 + 0x676f02d9) 14
    |> stepB f2 (input 12 + 0x8d2a4c8a) 20

/-- The third 16 lines of `md5_transform`. -/
def transform3 (input : Nat → UInt32) (v : State) : State :=
  v
    |> stepA f3 (input 5 + 0xfffa3942) 4
    |> stepD f3 (input 8 + 0x8771f681) 11
    |> stepC f3 (input 11 + 0x6d9d6122) 16
    |> stepB f3 (input 14 + 0xfde5380c) 23
    |> stepA f3 (input 1 + 0xa4beea44) 4
    |> stepD f3 (input 4 + 0x4bdecfa9) 11
    |> stepC f3 (input 7 + 0xf6bb4b60) 16
    |> stepB f3 (input 10 + 0xbebfbc70) 23
    |> stepA f3 (input 13 + 0x289b7ec6) 4
    |> stepD f3 (input 0 + 0xeaa127fa) 11
    |> stepC f3 (input 3 + 0xd4ef3085) 16
    |> stepB f3 (input 6 + 0x04881d05) 23
    |> stepA f3 (input 9 + 0xd9d4d039) 4
    |> stepD f3 (input 12 + 0xe6db99e5) 11
    |> stepC f3 (input 15 + 0x1fa27cf8) 16
    |> stepB f3 (input 2 + 0xc4ac5665) 23

/-- The fourth 16 lines of `md5_transform`. -/
def transform4 (input : Nat → UInt32) (v : State) : State :=
  v
    |> stepA f4 (input 0 + 0xf4292244) 6
    |> stepD f4 (input 7 + 0x432aff97) 10
    |> stepC f4 (input 14 + 0xab9423a7) 15
    |> stepB f4 (input 5 + 0xfc93a039) 21
    |> stepA f4 (input 12 + 0x655b59c3) 6
    |> stepD f4 (input 3 + 0x8f0ccc92) 10
    |> stepC f4 (input 10 + 0xffeff47d) 15
    |> stepB f4 (input 1 + 0x85845dd1) 21
    |> stepA f4 (input 8 + 0x6fa87e4f) 6
    |> stepD f4 (input 15 + 0xfe2ce6e0) 10
    |> stepC f4 (input 6 + 0xa3014314) 15
    |> stepB f4 (input 13 + 0x4e0811a1) 21
    |> stepA f4 (input 4 + 0xf7537e82) 6
    |> stepD f4 (input 11 + 0xbd3af235) 10
    |> stepC f4 (input 2 + 0x2ad7d2bb) 15
    |> stepB f4 (input 9 + 0xeb86d391) 21

/-- `md5_transform` -/
def md5Transform (hash : State) (input : Nat → UInt32) : State :=
  let v := hash |> transform1 input |> transform2 input |> transform3 input |> transform4 input
  ⟨hash.a + v.a, hash.b + v.b, hash.c + v.c, hash.d + v.d⟩

/-- `MD5CTX_S`, whose `block` holds 16 words of four bytes each. -/
structure MD5CTX where
  hash : State
  block : Bytes
  byteCount : UInt64
  deriving DecidableEq, Repr

/-- `md5_transform_helper` -/
def md5TransformHelper (ctx : MD5CTX) : MD5CTX :=
  { ctx with hash := md5Transform ctx.hash (wordOf ctx.block) }

/-- `md5_init`, which leaves the block of the context as it is. -/
def md5Init (mctx : MD5CTX) : MD5CTX :=
  { mctx with hash := ⟨0x67452301, 0xefcdab89, 0x98badcfe, 0x10325476⟩, byteCount := 0 }

/-- The effect of `memcpy` from the data into the block. -/
def copyBlock (mctx : MD5CTX) (start : Nat) (mem : Bytes) (data len : Nat) : Checked MD5CTX := do
  let bytes ← copyFrom mem data len
  let block ← copyTo mctx.block start bytes
  .ok { mctx with block }

/-- The loop of `md5_update` over the full blocks of the data, and the copy behind it. -/
def md5Blocks (mem : Bytes) : Nat → MD5CTX → Nat → Nat → Checked MD5CTX
  | 0, _, _, _ => .error .diverges
  | fuel + 1, mctx, data, len =>
      if 64 ≤ len then do
        let mctx ← copyBlock mctx 0 mem data 64
        md5Blocks mem fuel (md5TransformHelper mctx) (data + 64) (len - 64)
      else
        copyBlock mctx 0 mem data len

/-- `md5_update` of the `len` bytes at `data`. -/
def md5Update (mctx : MD5CTX) (mem : Bytes) (data len : Nat) : Checked MD5CTX :=
  let avail := 64 - (mctx.byteCount &&& 0x3f).toNat
  let mctx := { mctx with byteCount := mctx.byteCount + UInt64.ofNat len }
  if avail > len then
    copyBlock mctx (64 - avail) mem data len
  else do
    let mctx ← copyBlock mctx (64 - avail) mem data avail
    md5Blocks mem (len + 1) (md5TransformHelper mctx) (data + avail) (len - avail)

/-- `md5_update` with an `int` length. The count takes it with its sign, and the bytes are those of
the `unsigned int`.
-/
def md5UpdateInt (mctx : MD5CTX) (mem : Bytes) (data : Nat) (len : Int) : Checked MD5CTX := do
  let updated ← md5Update mctx mem data (uint32 len)
  .ok { updated with byteCount := mctx.byteCount + UInt64.ofInt len }

/-- The part of `md5_final` behind the marker, for which there has to be room for the length: where
the zeros start and how many there are.
-/
def md5Padding (mctx : MD5CTX) (p : Nat) (padding : Int) : Checked (MD5CTX × Nat × Int) :=
  if padding < 0 then do
    let block ← copyTo mctx.block p (List.replicate (padding + 8).toNat 0)
    .ok (md5TransformHelper { mctx with block }, 0, 56)
  else
    .ok (mctx, p, padding)

/-- `md5_final`: the bytes of `out`, and the context. -/
def md5Final (mctx : MD5CTX) : Checked (Bytes × MD5CTX) := do
  let offset := (mctx.byteCount &&& 0x3f).toNat
  let block ← store mctx.block offset 0x80
  let (mctx, p, padding) ← md5Padding { mctx with block } (offset + 1) (56 - (offset + 1))
  let block ← copyTo mctx.block p (List.replicate padding.toNat 0)
  let block ← copyTo block 56 (leBytes 4 (mctx.byteCount <<< 3).toUInt32.toNat)
  let block ← copyTo block 60 (leBytes 4 (mctx.byteCount >>> 29).toUInt32.toNat)
  let hash := md5Transform mctx.hash (wordOf block)
  .ok (hash.bytes, ⟨⟨0, 0, 0, 0⟩, List.replicate 64 0, 0⟩)

end Cvos.Vos

import Cvos.Lib.BlockHash

/-! The message digest MD5: the 64 steps of a block in the form of a loop over tables, the padding
of a message to full blocks, and the digest as bytes.
-/

namespace Cvos.Lib.Md5

/-- The four words of the state. -/
structure State where
  a : UInt32
  b : UInt32
  c : UInt32
  d : UInt32
  deriving DecidableEq, Repr

/-- The state in front of the first block. -/
def initial : State := ⟨0x67452301, 0xefcdab89, 0x98badcfe, 0x10325476⟩

/-- The functions of the four rounds. -/
def mix (round : Nat) (x y z : UInt32) : UInt32 :=
  match round with
  | 0 => (x &&& y) ||| (~~~x &&& z)
  | 1 => (x &&& z) ||| (y &&& ~~~z)
  | 2 => x ^^^ y ^^^ z
  | _ => y ^^^ (x ||| ~~~z)

/-- The word of the block that a step takes. -/
def wordIndex (step : Nat) : Nat :=
  match step / 16 with
  | 0 => step
  | 1 => (5 * step + 1) % 16
  | 2 => (3 * step + 5) % 16
  | _ => 7 * step % 16

/-- The amounts by which the four rounds rotate in turn. -/
def rotations : List (List UInt32) :=
  [[7, 12, 17, 22], [5, 9, 14, 20], [4, 11, 16, 23], [6, 10, 15, 21]]

/-- The constants of the 64 steps, the fractions of sines of integers. -/
def constants : List UInt32 :=
  [
    0xd76aa478, 0xe8c7b756, 0x242070db, 0xc1bdceee, 0xf57c0faf, 0x4787c62a, 0xa8304613, 0xfd469501,
    0x698098d8, 0x8b44f7af, 0xffff5bb1, 0x895cd7be, 0x6b901122, 0xfd987193, 0xa679438e, 0x49b40821,
    0xf61e2562, 0xc040b340, 0x265e5a51, 0xe9b6c7aa, 0xd62f105d, 0x02441453, 0xd8a1e681, 0xe7d3fbc8,
    0x21e1cde6, 0xc33707d6, 0xf4d50d87, 0x455a14ed, 0xa9e3e905, 0xfcefa3f8, 0x676f02d9, 0x8d2a4c8a,
    0xfffa3942, 0x8771f681, 0x6d9d6122, 0xfde5380c, 0xa4beea44, 0x4bdecfa9, 0xf6bb4b60, 0xbebfbc70,
    0x289b7ec6, 0xeaa127fa, 0xd4ef3085, 0x04881d05, 0xd9d4d039, 0xe6db99e5, 0x1fa27cf8, 0xc4ac5665,
    0xf4292244, 0x432aff97, 0xab9423a7, 0xfc93a039, 0x655b59c3, 0x8f0ccc92, 0xffeff47d, 0x85845dd1,
    0x6fa87e4f, 0xfe2ce6e0, 0xa3014314, 0x4e0811a1, 0xf7537e82, 0xbd3af235, 0x2ad7d2bb, 0xeb86d391
  ]

/-- A word that is rotated to the left. -/
def rotate (word amount : UInt32) : UInt32 := (word <<< amount) ||| (word >>> (32 - amount))

/-- A step with a function, a word of the block, a constant and an amount. -/
def turn (f : UInt32 → UInt32 → UInt32 → UInt32) (word constant amount : UInt32) (s : State)
    : State where
  a := s.d
  b := s.b + rotate (s.a + f s.b s.c s.d + word + constant) amount
  c := s.b
  d := s.c

/-- A step of the loop. -/
def step (word : Nat → UInt32) (s : State) (i : Nat) : State :=
  turn (mix (i / 16)) (word (wordIndex i)) (constants.getD i 0)
    ((rotations.getD (i / 16) []).getD (i % 4) 0) s

/-- The words of a block. -/
def wordOf (block : Bytes) (i : Nat) : UInt32 :=
  UInt32.ofNat (littleEndian ((block.drop (4 * i)).take 4))

/-- The state after a block of 16 words. -/
def compressWords (word : Nat → UInt32) (s : State) : State :=
  let t := (List.range 64).foldl (step word) s
  ⟨s.a + t.a, s.b + t.b, s.c + t.c, s.d + t.d⟩

/-- The state after a block. -/
def compress (s : State) (block : Bytes) : State := compressWords (wordOf block) s

/-- A message that is padded to full blocks, with its length in bits at the end. -/
def pad (message : Bytes) : Bytes :=
  message
    ++ 0x80
      :: (List.replicate ((119 - message.length % 64) % 64) 0 ++ leBytes 8 (8 * message.length))

/-- The bytes of the state. -/
def State.bytes (s : State) : Bytes :=
  leBytes 4 s.a.toNat ++ (leBytes 4 s.b.toNat ++ (leBytes 4 s.c.toNat ++ leBytes 4 s.d.toNat))

/-- The digest of a message. -/
def digest (message : Bytes) : Bytes := (absorb compress 64 initial (pad message)).bytes

example
    : digest [0x61, 0x62, 0x63]
      = [0x90, 0x01, 0x50, 0x98, 0x3c, 0xd2, 0x4f, 0xb0, 0xd6, 0x96, 0x3f, 0x7d, 0x28, 0xe1, 0x7f,
        0x72] := by decide +kernel

end Cvos.Lib.Md5

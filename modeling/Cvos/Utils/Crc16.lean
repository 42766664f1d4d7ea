import Cvos.Lib.CBuffer
import Mathlib.Logic.Function.Iterate
import Mathlib.Tactic.IntervalCases

/-! The checksum of `utl_CalcCRC16`, which keeps its register in two bytes and moves the carry
between them itself.
-/

namespace Cvos.Utils

open Cvos.Lib

/-- `CRC16Hi` and `CRC16Lo`. -/
structure SplitRegister where
  hi : UInt8
  lo : UInt8
  deriving DecidableEq, Repr

/-- The loop over `j` in `utl_CalcCRC16` at one bit. -/
def calcBit (crc16 : SplitRegister) : SplitRegister :=
  let saveHi := crc16.hi
  let saveLo := crc16.lo
  let hi := crc16.hi >>> 1
  let lo := crc16.lo >>> 1
  let lo := if saveHi &&& 0x01 = 0x01 then lo ||| 0x80 else lo
  if saveLo &&& 0x01 = 0x01 then ⟨hi ^^^ 0xA0, lo ^^^ 0x01⟩ else ⟨hi, lo⟩

/-- The loop over `j` in `utl_CalcCRC16`, with the exclusive or in front of it. -/
def calcByte (crc16 : SplitRegister) (byte : UInt8) : SplitRegister :=
  (List.range 8).foldl (fun crc16 _ => calcBit crc16) ⟨crc16.hi, crc16.lo ^^^ byte⟩

/-- `utl_CalcCRC16`: the bytes `LByte` and `HByte`. The index stays below `len`. -/
def utlCalcCRC16 (mem : Bytes) (p : Nat) (len : Int) : Checked (UInt8 × UInt8) := do
  let crc16 ← foldBytes mem calcByte p len.toNat ⟨0xFF, 0xFF⟩
  .ok (crc16.lo, crc16.hi)

/-- A register of 16 bits that is shifted to the right, and changed by the polynomial if the bit
that is shifted out was 1.
-/
def shiftRight (register : UInt16) : UInt16 :=
  if register &&& 1 = 1 then (register >>> 1) ^^^ 0xA001 else register >>> 1

/-- A byte is xored into the low half of the register, which is then shifted eight times. -/
def takeByte (register : UInt16) (byte : UInt8) : UInt16 :=
  Nat.iterate shiftRight 8 (register ^^^ byte.toUInt16)

/-- The reflected CRC-16 of some bytes. -/
def reflectedCrc (bytes : Bytes) : UInt16 := bytes.foldl takeByte 0xFFFF

/-- The two bytes of a register as one. -/
def SplitRegister.joined (crc16 : SplitRegister) : UInt16 :=
  .ofBitVec (crc16.hi.toBitVec ++ crc16.lo.toBitVec)

/-- The lowest bit of a word, as it is tested. -/
theorem and_one_eq_one {w : Nat} (word : BitVec (w + 1))
    : word &&& 1#(w + 1) = 1#(w + 1) ↔ word.getLsbD 0 = true := by
  rw [BitVec.and_one_eq_setWidth_ofBool_getLsbD]
  cases word.getLsbD 0 with
  | false => simp
  | true => simp

/-- The lowest bit of a byte. -/
theorem lowBit_byte (byte : UInt8)
    : byte &&& 0x01 = 0x01 ↔ byte.toBitVec.getLsbD 0 = true := by
  rw [← and_one_eq_one, ← UInt8.toBitVec_inj]
  rfl

/-- The lowest bit of a register. -/
theorem lowBit_register (register : UInt16)
    : register &&& 1 = 1 ↔ register.toBitVec.getLsbD 0 = true := by
  rw [← and_one_eq_one, ← UInt16.toBitVec_inj]
  rfl

/-- A shift of two bytes moves the lowest bit of the first one to the second one. -/
theorem append_ushiftRight_one (hi lo : BitVec 8)
    : (hi ++ lo) >>> 1
      = (hi >>> 1) ++ (if hi.getLsbD 0 then lo >>> 1 ||| 0x80#8 else lo >>> 1) := by
  refine BitVec.eq_of_getLsbD_eq fun i bound => ?_
  rw [BitVec.getLsbD_ushiftRight, BitVec.getLsbD_append, BitVec.getLsbD_append]
  cases low : hi.getLsbD 0 with
  | false =>
      rw [BitVec.getLsbD_eq_getElem (by decide)] at low
      interval_cases i <;> simp [low]
  | true =>
      rw [BitVec.getLsbD_eq_getElem (by decide)] at low
      interval_cases i <;> simp [low]

/-- The two bytes of a register are shifted as one. -/
theorem joined_shift (hi lo : UInt8)
    : SplitRegister.joined
        ⟨hi >>> 1, if hi &&& 0x01 = 0x01 then lo >>> 1 ||| 0x80 else lo >>> 1⟩
      = SplitRegister.joined ⟨hi, lo⟩ >>> 1 := by
  have shifted := append_ushiftRight_one hi.toBitVec lo.toBitVec
  apply UInt16.toBitVec_inj.mp
  by_cases carry : hi &&& 0x01 = 0x01
  · rw [if_pos ((lowBit_byte hi).mp carry)] at shifted
    rw [if_pos carry]
    exact shifted.symm
  · rw [if_neg fun low => carry ((lowBit_byte hi).mpr low)] at shifted
    rw [if_neg carry]
    exact shifted.symm

/-- The two bytes of a register are changed as one. -/
theorem joined_xor (hi lo : UInt8)
    : SplitRegister.joined ⟨hi ^^^ 0xA0, lo ^^^ 0x01⟩
      = SplitRegister.joined ⟨hi, lo⟩ ^^^ 0xA001 := by
  apply UInt16.toBitVec_inj.mp
  exact (@BitVec.xor_append 8 8 hi.toBitVec 0xA0#8 lo.toBitVec 0x01#8).symm

/-- One bit of the loop is one shift of the register. -/
theorem joined_calcBit (crc16 : SplitRegister)
    : (calcBit crc16).joined = shiftRight crc16.joined := by
  obtain ⟨hi, lo⟩ := crc16
  have out : lo &&& 0x01 = 0x01 ↔ SplitRegister.joined ⟨hi, lo⟩ &&& 1 = 1 := by
    have low : (hi.toBitVec ++ lo.toBitVec).getLsbD 0 = lo.toBitVec.getLsbD 0 := by
      rw [BitVec.getLsbD_append, if_pos (by decide)]
    rw [lowBit_byte, lowBit_register, ← low]
    rfl
  rw [calcBit, shiftRight]
  by_cases one : lo &&& 0x01 = 0x01
  · rw [if_pos one, if_pos (out.mp one), joined_xor, joined_shift]
  · rw [if_neg one, if_neg fun low => one (out.mpr low), joined_shift]

/-- A byte changes the low half of the register. -/
theorem joined_xor_byte (crc16 : SplitRegister) (byte : UInt8)
    : SplitRegister.joined ⟨crc16.hi, crc16.lo ^^^ byte⟩ = crc16.joined ^^^ byte.toUInt16 := by
  apply UInt16.toBitVec_inj.mp
  refine BitVec.eq_of_getLsbD_eq fun i bound => ?_
  simp only [SplitRegister.joined, UInt16.toBitVec_xor, UInt8.toBitVec_xor,
    UInt8.toBitVec_toUInt16, BitVec.getLsbD_xor, BitVec.getLsbD_append, BitVec.getLsbD_setWidth]
  by_cases low : i < 8
  · simp [low, bound]
  · simp [low, BitVec.getLsbD_of_ge byte.toBitVec i (by omega)]

/-- The two bytes together are taken through the loop as one register. -/
theorem joined_calcByte (crc16 : SplitRegister) (byte : UInt8)
    : (calcByte crc16 byte).joined = takeByte crc16.joined byte := by
  have further (n : Nat) (crc16 : SplitRegister)
      : ((List.range n).foldl (fun crc16 _ => calcBit crc16) crc16).joined
        = Nat.iterate shiftRight n crc16.joined := by
    induction n with
    | zero => rfl
    | succ n ih =>
        rw [List.range_succ, List.foldl_append, List.foldl_cons, List.foldl_nil, joined_calcBit, ih,
          Function.iterate_succ_apply']
  rw [calcByte, further, joined_xor_byte, takeByte]

/-- The value of two bytes. -/
theorem toNat_joined (crc16 : SplitRegister)
    : crc16.joined.toNat = 256 * crc16.hi.toNat + crc16.lo.toNat := by
  have small : crc16.lo.toNat < 2 ^ 8 := crc16.lo.toNat_lt
  have parts : crc16.joined.toNat = crc16.hi.toNat <<< 8 ||| crc16.lo.toNat :=
    BitVec.toNat_append crc16.hi.toBitVec crc16.lo.toBitVec
  rw [parts, ← Nat.shiftLeft_add_eq_or_of_lt small, Nat.shiftLeft_eq]
  omega

/-- `utl_CalcCRC16` delivers the reflected CRC-16 of the bytes in two bytes. -/
theorem utlCalcCRC16_eq (before bytes rest : Bytes)
    : ∃ lByte hByte,
        utlCalcCRC16 (before ++ (bytes ++ rest)) before.length bytes.length = .ok (lByte, hByte)
        ∧ 256 * hByte.toNat + lByte.toNat = (reflectedCrc bytes).toNat := by
  have further (crc16 : SplitRegister)
      : (bytes.foldl calcByte crc16).joined = bytes.foldl takeByte crc16.joined := by
    induction bytes generalizing crc16 with
    | nil => rfl
    | cons byte bytes ih => rw [List.foldl_cons, ih, joined_calcByte, List.foldl_cons]
  refine ⟨(bytes.foldl calcByte ⟨0xFF, 0xFF⟩).lo, (bytes.foldl calcByte ⟨0xFF, 0xFF⟩).hi, ?_, ?_⟩
  · rw [utlCalcCRC16, Int.toNat_natCast, foldBytes_append, Checked.ok_bind]
  · rw [← toNat_joined, further]
    rfl

end Cvos.Utils

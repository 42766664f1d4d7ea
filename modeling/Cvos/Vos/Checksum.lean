import Cvos.Lib.BinaryPolynomial
import Cvos.Msg.Checksum

/-! The checksum of `vos.c`, a copy of the one of `msg.c` that takes its bytes as `signed char`.
Each is the remainder of a division by the CCITT polynomial.
-/

namespace Cvos.Vos

open Cvos.Lib Cvos.Msg Polynomial

/-- The loop over `j` in `CRC16_CRCCCITT` at one bit of the byte. The byte and the register are
promoted to an `int`, the byte with its sign, which the shift moves as any other bit.
-/
def crcBit (byte : UInt8) (wCRC : UInt16) (j : Nat) : UInt16 :=
  let dataBit : BitVec 32 := (byte.toBitVec.signExtend 32 <<< j) &&& 0x80#32
  let outBit : BitVec 32 := (wCRC.toBitVec.setWidth 32 &&& 0x8000#32) >>> 8
  let wTemp : UInt16 := .ofBitVec ((dataBit ^^^ outBit).setWidth 16)
  let wCRC := wCRC <<< 1
  if wTemp ≠ 0 then wCRC ^^^ 0x1021 else wCRC

/-- The loop over `j` in `CRC16_CRCCCITT`. -/
def crcByte (wCRC : UInt16) (byte : UInt8) : UInt16 := (List.range 8).foldl (crcBit byte) wCRC

/-- `CRC16_CRCCCITT` -/
def crc16CRCCCITT (mem : Bytes) (pDataIn : Nat) (iLenIn : Int) : Checked UInt16 :=
  foldBytes mem crcByte pDataIn iLenIn.toNat 0xffff

/-- The bit of the byte that is compared does not depend on the sign. -/
theorem dataBit_eq (byte : UInt8) {j : Nat} (bound : j < 8)
    : ((byte.toBitVec.signExtend 32 <<< j) &&& 0x80#32).setWidth 16
      = (byte.toUInt16 <<< j.toUInt16 &&& (0x80 : UInt16)).toBitVec := by
  refine BitVec.eq_of_getLsbD_eq fun i width => ?_
  simp only [UInt16.toBitVec_and, UInt16.toBitVec_shiftLeft, UInt8.toBitVec_toUInt16,
    BitVec.getLsbD_setWidth, BitVec.getLsbD_and]
  by_cases place : i = 7
  · -- The bit has not passed the sign.
    subst place
    interval_cases j <;> simp [BitVec.getElem_signExtend]
  · have clear : (0x80#32).getLsbD i = false := by
      interval_cases i <;> first | rfl | contradiction
    have clear' : (0x80 : UInt16).toBitVec.getLsbD i = false := by
      interval_cases i <;> first | rfl | contradiction
    rw [clear, clear']
    simp

/-- Both copies take in a bit alike. -/
theorem crcBit_eq (byte : UInt8) (wCRC : UInt16) {j : Nat} (bound : j < 8)
    : crcBit byte wCRC j = sumBit byte wCRC j := by
  have outBit
      : ((wCRC.toBitVec.setWidth 32 &&& 0x8000#32) >>> 8).setWidth 16
        = ((wCRC &&& (0x8000 : UInt16)) >>> (8 : UInt16)).toBitVec := by
    refine BitVec.eq_of_getLsbD_eq fun i width => ?_
    simp only [UInt16.toBitVec_and, UInt16.toBitVec_shiftRight, BitVec.getLsbD_setWidth,
      BitVec.getLsbD_and, BitVec.getLsbD_ushiftRight]
    interval_cases i <;> simp
  have wTemp
      : UInt16.ofBitVec
            ((((byte.toBitVec.signExtend 32 <<< j) &&& 0x80#32)
              ^^^ ((wCRC.toBitVec.setWidth 32 &&& 0x8000#32) >>> 8)).setWidth 16)
        = (byte.toUInt16 <<< j.toUInt16 &&& (0x80 : UInt16))
          ^^^ ((wCRC &&& (0x8000 : UInt16)) >>> (8 : UInt16)) := by
    rw [BitVec.setWidth_xor, dataBit_eq byte bound, outBit, ← UInt16.toBitVec_xor]
  rw [crcBit, sumBit, wTemp]

/-- Both copies take in a byte alike. -/
theorem crcByte_eq : crcByte = sumByte := by
  funext wCRC byte
  exact List.foldl_ext _ _ wCRC fun wCRC j member =>
    crcBit_eq byte wCRC (List.mem_range.mp member)

/-- The CCITT polynomial. -/
theorem generator_ccitt : generator ccitt = X ^ 16 + X ^ 12 + X ^ 5 + 1 := by
  have bits
      : msbFirst ccitt
        = [false, false, false, true, false, false, false, false,
            false, false, true, false, false, false, false, true] := by
    decide
  rw [generator, wordPoly, bits]
  simp only [bitPoly_cons]
  simp [bitValue]
  ring

/-- Both copies compute the remainder of the bits of the bytes and 16 zeros, with the initial
register xored into the first 16 of them.
-/
theorem sums_eq_remainder (before bytes rest : Bytes) (short : bytes.length < 2 ^ 31)
    : ∃ crc16,
        sumCRC16 (before ++ (bytes ++ rest)) before.length bytes.length = .ok crc16
        ∧ crc16CRCCCITT (before ++ (bytes ++ rest)) before.length bytes.length = .ok crc16
        ∧ wordPoly crc16.toBitVec
          = bitPoly (preset 0xFFFF#16 (bitsOf bytes ++ List.replicate 16 false))
            %ₘ (X ^ 16 + X ^ 12 + X ^ 5 + 1) := by
  refine ⟨checksum bytes, sumCRC16_append before bytes rest (Nat.le_of_lt short), ?_, ?_⟩
  · rw [crc16CRCCCITT, Int.toNat_natCast, crcByte_eq, foldBytes_append]
    rfl
  · rw [checksum_toBitVec, wordPoly_shiftBits_preset, generator_ccitt]
    rfl

/-- The check string of the two routines. -/
theorem sums_eq_remainder_digits
    : ∃ crc16,
        sumCRC16 ([0x31, 0x32, 0x33] : Bytes) 0 3 = .ok crc16
        ∧ crc16CRCCCITT ([0x31, 0x32, 0x33] : Bytes) 0 3 = .ok crc16
        ∧ wordPoly crc16.toBitVec
          = bitPoly (preset 0xFFFF#16 (bitsOf [0x31, 0x32, 0x33] ++ List.replicate 16 false))
            %ₘ (X ^ 16 + X ^ 12 + X ^ 5 + 1) :=
  sums_eq_remainder [] [0x31, 0x32, 0x33] [] (by decide)

end Cvos.Vos

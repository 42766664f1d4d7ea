import Cvos.Lib.CBuffer
import Cvos.Lib.ShiftRegister
import Mathlib.Tactic.IntervalCases

/-! The checksum of `msg.c`: `_SumCRC16` divides the bits of its bytes, the most significant ones
first, by the CCITT polynomial.
-/

namespace Cvos.Msg

open Cvos.Lib

/-- The loop over `j` in `_SumCRC16` at one bit of the byte. -/
def sumBit (byte : UInt8) (wCRC : UInt16) (j : Nat) : UInt16 :=
  let dataBit : UInt16 := (byte.toUInt16 <<< j.toUInt16) &&& (0x80 : UInt16)
  let wTemp := dataBit ^^^ ((wCRC &&& (0x8000 : UInt16)) >>> (8 : UInt16))
  let wCRC := wCRC <<< 1
  if wTemp ≠ 0 then wCRC ^^^ 0x1021 else wCRC

/-- The loop over `j` in `_SumCRC16`. -/
def sumByte (wCRC : UInt16) (byte : UInt8) : UInt16 := (List.range 8).foldl (sumBit byte) wCRC

/-- The loop over `i` in `_SumCRC16` when `count` bytes are left. -/
def sumFrom (mem : Bytes) (pDataIn : Nat) : Nat → Nat → UInt16 → Checked UInt16
  | 0, _, wCRC => .ok wCRC
  | count + 1, i, wCRC => do
      let byte ← loadAt mem (pDataIn + int32 i)
      sumFrom mem pDataIn count (i + 1) (sumByte wCRC byte)

/-- `_SumCRC16` -/
def sumCRC16 (mem : Bytes) (pDataIn iLenIn : Nat) : Checked UInt16 :=
  sumFrom mem pDataIn iLenIn 0 0xffff

/-- The checksum of a text. -/
def checksum (bytes : Bytes) : UInt16 := bytes.foldl sumByte 0xffff

/-- `(crc16>>8)&0xFF` -/
def highByte (crc16 : UInt16) : UInt8 := ((crc16 >>> 8) &&& 0xff).toUInt8

/-- `(crc16)&0xFF` -/
def lowByte (crc16 : UInt16) : UInt8 := (crc16 &&& 0xff).toUInt8

/-- The checksum that two bytes of a frame hold. -/
def joinBytes (high low : UInt8) : UInt16 :=
  ((high.toUInt16 <<< 8) &&& 0xff00) ||| (low.toUInt16 &&& 0x00ff)

/-- `_SumCRC16` computes the checksum of the bytes it is given, as long as its index does not
overflow.
-/
theorem sumCRC16_append (before bytes rest : Bytes) (bound : bytes.length ≤ 2 ^ 31)
    : sumCRC16 (before ++ (bytes ++ rest)) before.length bytes.length = .ok (checksum bytes) := by
  have further (done bytes : Bytes) (wCRC : UInt16) (bound : done.length + bytes.length ≤ 2 ^ 31)
      : sumFrom (before ++ (done ++ (bytes ++ rest))) before.length bytes.length done.length wCRC
        = .ok (bytes.foldl sumByte wCRC) := by
    induction bytes generalizing done wCRC with
    | nil => rfl
    | cons c bytes ih =>
        rw [List.length_cons] at bound
        have index
            : (before.length : Int) + int32 done.length = (before.length + done.length : Nat) := by
          rw [int32_eq_self (by omega) (by omega), Int.natCast_add]
        rw [List.length_cons, sumFrom, index, loadAt_natCast, List.cons_append, load_behind,
          Checked.ok_bind, List.foldl_cons]
        have next := ih (done ++ [c]) (sumByte wCRC c) (by simp; omega)
        rwa [List.append_assoc, List.length_append, List.length_singleton] at next
  exact further [] bytes 0xffff (by simpa using bound)

/-- When `_SumCRC16` does not go wrong, its index has not overflowed. -/
theorem le_of_sumCRC16 {mem : Bytes} {pDataIn iLenIn : Nat} {crc16 : UInt16}
    (summed : sumCRC16 mem pDataIn iLenIn = .ok crc16) (near : pDataIn < 2 ^ 31)
    : iLenIn ≤ 2 ^ 31 := by
  have further (count i : Nat) (wCRC : UInt16) (small : i ≤ 2 ^ 31)
      (summed : sumFrom mem pDataIn count i wCRC = .ok crc16)
      : i + count ≤ 2 ^ 31 := by
    induction count generalizing i wCRC with
    | zero => exact small
    | succ count ih =>
        obtain ⟨byte, read, summed⟩ := Checked.bind_eq_ok.mp summed
        have nonneg := nonneg_of_loadAt read
        have smaller : i < 2 ^ 31 := by
          rcases Nat.lt_or_eq_of_le small with smaller | rfl
          · exact smaller
          · have negative : int32 (2 ^ 31 : Nat) = -2 ^ 31 := rfl
            omega
        have bound := ih (i + 1) (sumByte wCRC byte) smaller summed
        omega
  simpa using further iLenIn 0 0xffff (by simp) summed

/-- The bits of the bytes in the order in which `_SumCRC16` takes them in. -/
def bitsOf (bytes : Bytes) : List Bool := bytes.flatMap fun byte => msbFirst byte.toBitVec

theorem bitsOf_cons (byte : UInt8) (bytes : Bytes)
    : bitsOf (byte :: bytes) = msbFirst byte.toBitVec ++ bitsOf bytes := List.flatMap_cons

theorem bitsOf_append (bytes bytes' : Bytes)
    : bitsOf (bytes ++ bytes') = bitsOf bytes ++ bitsOf bytes' := List.flatMap_append

/-- The CCITT polynomial without its leading term. -/
def ccitt : BitVec 16 := 0x1021

theorem ccitt_constant : ccitt.getLsbD 0 = true := rfl

/-- Some bit of each byte is compared with the bit that is shifted out. -/
theorem sumBit_toBitVec (byte : UInt8) (wCRC : UInt16) {j : Nat} (bound : j < 8)
    : (sumBit byte wCRC j).toBitVec = shiftBit ccitt wCRC.toBitVec (byte.toBitVec.getMsbD j) := by
  have dataBit
      : byte.toUInt16 <<< j.toUInt16 &&& (0x80 : UInt16)
        = if byte.toBitVec.getMsbD j then 0x80 else 0 := by
    have place : (byte.toUInt16 <<< j.toUInt16).toBitVec.getLsbD 7 = byte.toBitVec.getMsbD j := by
      have small : j % 16 = j := Nat.mod_eq_of_lt (by omega)
      simp [small, BitVec.getMsbD, bound, show j ≤ 7 by omega]
    apply UInt16.toBitVec_inj.mp
    rw [UInt16.toBitVec_and, ← place]
    exact (BitVec.and_twoPow _ 7).trans (by split <;> rfl)
  have outBit
      : (wCRC &&& (0x8000 : UInt16)) >>> (8 : UInt16)
        = if wCRC.toBitVec.msb then 0x80 else 0 := by
    have top : wCRC &&& (0x8000 : UInt16) = if wCRC.toBitVec.msb then 0x8000 else 0 := by
      apply UInt16.toBitVec_inj.mp
      rw [UInt16.toBitVec_and, BitVec.msb_eq_getLsbD_last]
      exact (BitVec.and_twoPow _ 15).trans (by split <;> rfl)
    rw [top]
    split <;> rfl
  rw [sumBit, dataBit, outBit, shiftBit]
  cases byte.toBitVec.getMsbD j <;> cases wCRC.toBitVec.msb <;> simp [ccitt]

/-- A byte is taken in bit by bit. -/
theorem sumByte_toBitVec (wCRC : UInt16) (byte : UInt8)
    : (sumByte wCRC byte).toBitVec = shiftBits ccitt wCRC.toBitVec (msbFirst byte.toBitVec) := by
  have further (places : List Nat) (bound : ∀ j ∈ places, j < 8) (wCRC : UInt16)
      : (places.foldl (sumBit byte) wCRC).toBitVec
        = shiftBits ccitt wCRC.toBitVec (places.map byte.toBitVec.getMsbD) := by
    induction places generalizing wCRC with
    | nil => rfl
    | cons j places ih =>
        rw [List.foldl_cons, ih fun k member => bound k (List.mem_cons_of_mem j member),
          sumBit_toBitVec byte wCRC (bound j List.mem_cons_self), List.map_cons, shiftBits_cons]
  exact further (List.range 8) (fun j member => List.mem_range.mp member) wCRC

/-- The checksum is the register after all bits. -/
theorem checksum_toBitVec (bytes : Bytes)
    : (checksum bytes).toBitVec = shiftBits ccitt 0xffff (bitsOf bytes) := by
  have further (wCRC : UInt16)
      : (bytes.foldl sumByte wCRC).toBitVec = shiftBits ccitt wCRC.toBitVec (bitsOf bytes) := by
    induction bytes generalizing wCRC with
    | nil => rfl
    | cons byte bytes ih =>
        rw [List.foldl_cons, ih, sumByte_toBitVec, bitsOf_cons, shiftBits_append]
  exact further 0xffff

/-- The two bytes of a frame are put together. -/
theorem joinBytes_toBitVec (high low : UInt8)
    : (joinBytes high low).toBitVec = high.toBitVec ++ low.toBitVec := by
  refine BitVec.eq_of_getLsbD_eq fun i bound => ?_
  simp only [joinBytes, UInt16.toBitVec_or, UInt16.toBitVec_and, UInt16.toBitVec_shiftLeft,
    UInt8.toBitVec_toUInt16, BitVec.getLsbD_or, BitVec.getLsbD_and, BitVec.getLsbD_append]
  interval_cases i <;> simp

/-- A frame holds a checksum in its two bytes. -/
theorem joinBytes_eq (crc16 : UInt16) : joinBytes (highByte crc16) (lowByte crc16) = crc16 := by
  refine UInt16.toBitVec_inj.mp ((joinBytes_toBitVec _ _).trans ?_)
  refine BitVec.eq_of_getLsbD_eq fun i bound => ?_
  rw [BitVec.getLsbD_append]
  simp only [highByte, lowByte, UInt16.toBitVec_toUInt8, UInt16.toBitVec_and,
    UInt16.toBitVec_shiftRight, BitVec.getLsbD_setWidth, BitVec.getLsbD_and]
  interval_cases i <;> simp

/-- The two bytes of a frame are known by the checksum that they hold. -/
theorem joinBytes_inj {high low high' low' : UInt8}
    (same : joinBytes high low = joinBytes high' low')
    : high = high' ∧ low = low' := by
  have bits : high.toBitVec ++ low.toBitVec = high'.toBitVec ++ low'.toBitVec := by
    rw [← joinBytes_toBitVec, ← joinBytes_toBitVec, same]
  constructor
  · apply UInt8.toBitVec_inj.mp
    rw [← @BitVec.extractLsb'_append_eq_left 8 8 high.toBitVec low.toBitVec, bits,
      BitVec.extractLsb'_append_eq_left]
  · apply UInt8.toBitVec_inj.mp
    rw [← @BitVec.extractLsb'_append_eq_right 8 8 high.toBitVec low.toBitVec, bits,
      BitVec.extractLsb'_append_eq_right]

/-- Two bytes are the checksum of the bytes before them exactly when all bits together empty the
register.
-/
theorem checksum_eq_joinBytes_iff (bytes : Bytes) (high low : UInt8)
    : checksum bytes = joinBytes high low
      ↔ shiftBits ccitt 0xffff (bitsOf (bytes ++ [high, low])) = 0 := by
  have word : bitsOf [high, low] = msbFirst (joinBytes high low).toBitVec := by
    rw [joinBytes_toBitVec, msbFirst_append, bitsOf_cons, bitsOf_cons]
    exact congrArg _ (List.append_nil _)
  rw [bitsOf_append, word, shiftBits_append, shiftBits_msbFirst_eq_zero _ ccitt_constant,
    ← checksum_toBitVec, UInt16.toBitVec_inj]

/-- The number of bits. -/
theorem length_bitsOf (bytes : Bytes) : (bitsOf bytes).length = 8 * bytes.length := by
  induction bytes with
  | nil => rfl
  | cons byte bytes ih =>
      rw [bitsOf_cons, List.length_append, length_msbFirst, ih, List.length_cons]
      omega

/-- The bits of bytes that are changed by an error pattern. -/
theorem bitsOf_zipWith {bytes pattern : Bytes} (length : bytes.length = pattern.length)
    : bitsOf (List.zipWith (· ^^^ ·) bytes pattern)
      = List.zipWith xor (bitsOf bytes) (bitsOf pattern) := by
  induction bytes generalizing pattern with
  | nil => rfl
  | cons byte bytes ih =>
      cases pattern with
      | nil => cases length
      | cons flips pattern =>
          rw [List.zipWith_cons_cons, bitsOf_cons, UInt8.toBitVec_xor, msbFirst_xor,
            ih (Nat.succ.inj length), bitsOf_cons, bitsOf_cons]
          exact (List.zipWith_append (by simp)).symm

end Cvos.Msg

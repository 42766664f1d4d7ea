import Cvos.Msg.HexFrame

/-! Transmission errors in binary frames of version 2: those within 16 consecutive bits of the
body and the checksum are always detected.
-/

namespace Cvos.Msg

open Cvos.Lib

/-- The frame with the bits of the error pattern flipped, from its body on. -/
def corrupt (frame pattern : Bytes) : Bytes :=
  frame.take 4
    ++ (List.zipWith (· ^^^ ·) (frame.drop 4) pattern ++ frame.drop (4 + pattern.length))

/-- A body and two bytes behind it are changed by an error pattern for all of them. -/
theorem corrupt_append (a b c d : UInt8) {bytes pattern : Bytes}
    (length : pattern.length = bytes.length) (rest : Bytes)
    : corrupt (a :: b :: c :: d :: (bytes ++ rest)) pattern
      = a :: b :: c :: d :: (List.zipWith (· ^^^ ·) bytes pattern ++ rest) := by
  have changed
      : List.zipWith (· ^^^ ·) (bytes ++ rest) pattern
        = List.zipWith (· ^^^ ·) bytes pattern := by
    have joined
        : List.zipWith (· ^^^ ·) (bytes ++ rest) (pattern ++ [])
          = List.zipWith (· ^^^ ·) bytes pattern ++ List.zipWith (· ^^^ ·) rest [] :=
      List.zipWith_append length.symm
    simpa using joined
  have behind : (a :: b :: c :: d :: (bytes ++ rest)).drop (4 + pattern.length) = rest := by
    rw [length, Nat.add_comm]
    simp
  rw [corrupt, behind]
  simp [changed]

/-- The bytes of a body and a checksum, changed by an error pattern for them. -/
theorem zipWith_split {body pattern : Bytes} (length : pattern.length = body.length + 2)
    (high low : UInt8)
    : ∃ body' high' low',
        body'.length = body.length
        ∧ List.zipWith (· ^^^ ·) (body ++ [high, low]) pattern = body' ++ [high', low'] := by
  have count : (List.zipWith (· ^^^ ·) (body ++ [high, low]) pattern).length = body.length + 2 := by
    simp [length]
  generalize List.zipWith (· ^^^ ·) (body ++ [high, low]) pattern = bytes at *
  have two : (bytes.drop body.length).length = 2 := by simp [count]
  obtain ⟨high', low', tail⟩ := List.length_eq_two.mp two
  exact ⟨bytes.take body.length, high', low', by simp [count],
    by rw [← tail, List.take_append_drop]⟩

/-- A checksum that was right is wrong after a burst of errors. -/
theorem checksum_ne_of_burst {body pattern : Bytes} (length : pattern.length = body.length + 2)
    (set : true ∈ bitsOf pattern) {first : Nat}
    (window : ∀ i, (bitsOf pattern)[i]? = some true → first ≤ i ∧ i < first + 16)
    {body' : Bytes} {high' low' : UInt8}
    (changed
      : List.zipWith (· ^^^ ·)
          (body ++ [highByte (checksum body), lowByte (checksum body)]) pattern
        = body' ++ [high', low'])
    : checksum body' ≠ joinBytes high' low' := by
  have right := (checksum_eq_joinBytes_iff body (highByte (checksum body))
    (lowByte (checksum body))).mp (joinBytes_eq _).symm
  have same
      : (body ++ [highByte (checksum body), lowByte (checksum body)]).length
        = pattern.length := by
    simp [length]
  have bits : (bitsOf (body ++ [highByte (checksum body), lowByte (checksum body)])).length
      = (bitsOf pattern).length := by
    rw [length_bitsOf, length_bitsOf, same]
  have long : 16 ≤ (bitsOf pattern).length := by
    rw [length_bitsOf, length]
    omega
  rw [ne_eq, checksum_eq_joinBytes_iff, ← changed, bitsOf_zipWith same]
  have linear := shiftBits_xor ccitt 0xffff 0 bits
  rw [show (0xffff : BitVec 16) ^^^ 0 = 0xffff from rfl, right] at linear
  rw [linear]
  intro empty
  exact shiftBits_window ccitt ccitt_constant long set first window
    (BitVec.zero_xor.symm.trans empty)

/-- Every burst of errors that fits into 16 bits is detected. -/
theorem msgUnPackHex_burst (sn : UInt8) (body pattern mem : Bytes) (fits : body.length ≤ 255)
    (room : body.length + 6 ≤ mem.length) (length : pattern.length = body.length + 2)
    (set : true ∈ bitsOf pattern) (first : Nat)
    (window : ∀ i, (bitsOf pattern)[i]? = some true → first ≤ i ∧ i < first + 16)
    : ∃ total frame,
        msgPackHex 2 sn (some body) body.length (some mem) = .ok (total, some frame)
        ∧ msgUnPackHex true true true (some (corrupt frame pattern))
          = .ok (-3, ⟨some 2, some sn, none⟩) := by
  have room : (hexFrame 2 sn body).length ≤ mem.length := by
    rw [length_hexFrame]
    exact room
  refine ⟨_, _, msgPackHex_eq (by omega) room, ?_⟩
  generalize mem.drop (hexFrame 2 sn body).length = rest
  obtain ⟨body', high', low', same, changed⟩ :=
    zipWith_split length (highByte (checksum body)) (lowByte (checksum body))
  have wrong := checksum_ne_of_burst length set window changed
  have bytes
      : corrupt (hexFrame 2 sn body ++ rest) pattern
        = msgHexHead :: 2 :: sn :: UInt8.ofNat body'.length
          :: (body' ++ high' :: low' :: rest) := by
    have two
        : pattern.length
          = (body ++ [highByte (checksum body), lowByte (checksum body)]).length := by
      simp [length]
    have bytes := corrupt_append msgHexHead 2 sn (UInt8.ofNat body.length) two rest
    rw [changed] at bytes
    rw [same]
    simpa [hexFrame, hexTrailer] using bytes
  have checked := @checkHex_two sn body' (by omega) high' low' rest
  rw [beq_eq_false_iff_ne.mpr wrong] at checked
  rw [bytes]
  exact msgUnPackHex_eq (by omega) _ checked

/-- Witness: a flipped bit of a two-byte body is detected. -/
theorem msgUnPackHex_burst_bit
    : ∃ total frame,
        msgPackHex 2 20 (some [1, 2]) 2 (some (List.replicate 8 0)) = .ok (total, some frame)
        ∧ msgUnPackHex true true true (some (corrupt frame [0, 1, 0, 0]))
          = .ok (-3, ⟨some 2, some 20, none⟩) := by
  refine msgUnPackHex_burst 20 [1, 2] [0, 1, 0, 0] (List.replicate 8 0) (by decide) (by decide) rfl
    (by decide) 0 ?_
  intro i found
  obtain ⟨bound, value⟩ := List.getElem?_eq_some_iff.mp found
  have all : ∀ i : Fin 32, (bitsOf [0, 1, 0, 0])[i] = true → i < 16 := by decide
  exact ⟨Nat.zero_le i, all ⟨i, bound⟩ value⟩

end Cvos.Msg

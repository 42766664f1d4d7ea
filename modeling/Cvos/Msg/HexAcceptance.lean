import Cvos.Msg.HexFrame

/-! What `MSG_UnPackHex` makes of any buffer: a buffer that holds the longest frame is never read
behind its end, and what is accepted is the frame that `MSG_PackHex` builds.
-/

namespace Cvos.Msg

open Cvos.Lib

/-- A buffer with room for the longest frame starts with a head of four bytes, has the body that
the last of them counts, and two bytes behind the body.
-/
theorem exists_hexParts {mem : Bytes} (room : 261 ≤ mem.length)
    : ∃ head ver sn len body high low rest,
        mem = head :: ver :: sn :: len :: (body ++ high :: low :: rest)
        ∧ body.length = len.toNat := by
  obtain ⟨head, ver, sn, len, mem, rfl⟩
      : ∃ head ver sn len behind, mem = head :: ver :: sn :: len :: behind := by
    rcases mem with _ | ⟨head, _ | ⟨ver, _ | ⟨sn, _ | ⟨len, behind⟩⟩⟩⟩
    case cons.cons.cons.cons => exact ⟨head, ver, sn, len, behind, rfl⟩
    all_goals
      simp only [List.length_cons, List.length_nil] at room
      omega
  simp only [List.length_cons] at room
  have bound := len.toNat_lt
  obtain ⟨high, low, rest, behind⟩ : ∃ high low rest, mem.drop len.toNat = high :: low :: rest := by
    have two : 2 ≤ (mem.drop len.toNat).length := by
      rw [List.length_drop]
      omega
    generalize mem.drop len.toNat = behind at two
    rcases behind with _ | ⟨high, _ | ⟨low, rest⟩⟩
    case cons.cons => exact ⟨high, low, rest, rfl⟩
    all_goals
      simp only [List.length_cons, List.length_nil] at two
      omega
  refine ⟨head, ver, sn, len, mem.take len.toNat, high, low, rest, ?_, ?_⟩
  · rw [← behind, List.take_append_drop]
  · rw [List.length_take]
    omega

/-- A buffer with another head is refused. -/
theorem msgUnPackHex_unheaded {head : UInt8} (other : head ≠ msgHexHead) (rest : Bytes)
    : msgUnPackHex true true true (some (head :: rest)) = .ok (-2, ⟨none, none, none⟩) := by
  simp [msgUnPackHex, load, other]

/-- Behind the head every buffer with room for the longest frame is a frame with its checksum
right, or has its checksum refused.
-/
theorem msgUnPackHex_cases (ver sn len : UInt8) {body : Bytes} (count : body.length = len.toNat)
    (high low : UInt8) (rest : Bytes)
    : (∃ behind,
        msgHexHead :: ver :: sn :: len :: (body ++ high :: low :: rest)
          = hexFrame ver sn body ++ behind
        ∧ msgUnPackHex true true true
            (some (msgHexHead :: ver :: sn :: len :: (body ++ high :: low :: rest)))
          = .ok (body.length, ⟨some ver, some sn, some body⟩))
      ∨ msgUnPackHex true true true
          (some (msgHexHead :: ver :: sn :: len :: (body ++ high :: low :: rest)))
        = .ok (-3, ⟨some ver, some sn, none⟩) := by
  have bound := len.toNat_lt
  obtain rfl : len = UInt8.ofNat body.length := by
    rw [count, UInt8.ofNat_toNat]
  by_cases crc : ver = 2
  · subst crc
    have checked := @checkHex_two sn body (by omega) high low rest
    by_cases right : checksum body = joinBytes high low
    · rw [beq_iff_eq.mpr right] at checked
      left
      rw [← joinBytes_eq (checksum body)] at right
      obtain ⟨rfl, rfl⟩ := joinBytes_inj right
      refine ⟨rest, ?_, (msgUnPackHex_eq (by omega) _ checked).trans (if_pos rfl)⟩
      simp [hexFrame, hexTrailer]
    · rw [beq_eq_false_iff_ne.mpr right] at checked
      right
      exact msgUnPackHex_eq (by omega) _ checked
  · left
    refine ⟨high :: low :: rest, ?_, (msgUnPackHex_eq (by omega) _ ?_).trans (if_pos rfl)⟩
    · simp [hexFrame, hexTrailer, crc]
    · rw [checkHex, if_neg crc]

/-- Unpacking a buffer with room for the longest frame does not go wrong, and packing what it
accepts writes the bytes that it was unpacked from, as many as its result says.
-/
theorem msgPackHex_msgUnPackHex (ver sn body : Bool) {mem : Bytes} (room : 261 ≤ mem.length)
    : ∃ n out,
        msgUnPackHex ver sn body (some mem) = .ok (n, out)
        ∧ (0 ≤ n
          → ∃ (ver sn : UInt8) (body : Bytes) (size : Nat),
              out = ⟨some ver, some sn, some body⟩
              ∧ size = 4 + n + (if ver = 2 then 2 else 0)
              ∧ size ≤ mem.length
              ∧ ∀ msgBuf : Bytes,
                  size ≤ msgBuf.length
                  → msgPackHex ver sn (some body) n.toNat (some msgBuf)
                    = .ok (size, some (mem.take size ++ msgBuf.drop size))) := by
  by_cases given : ver = true ∧ sn = true ∧ body = true
  case neg =>
    refine ⟨-1, ⟨none, none, none⟩, ?_, by simp⟩
    revert given
    cases ver <;> cases sn <;> cases body <;> simp [msgUnPackHex]
  obtain ⟨rfl, rfl, rfl⟩ := given
  obtain ⟨head, ver, sn, len, body, high, low, rest, rfl, count⟩ := exists_hexParts room
  by_cases other : head ≠ msgHexHead
  · exact ⟨_, _, msgUnPackHex_unheaded other _, by simp⟩
  obtain rfl := not_not.mp other
  rcases msgUnPackHex_cases ver sn len count high low rest with ⟨behind, parts, unpacked⟩ | refused
  · refine ⟨_, _, unpacked, fun _ => ⟨ver, sn, body, (hexFrame ver sn body).length, rfl, ?_⟩⟩
    refine ⟨?_, ?_, ?_⟩
    · rw [length_hexFrame]
      split <;> omega
    · rw [parts, List.length_append]
      omega
    · intro msgBuf fits
      have bound := len.toNat_lt
      rw [Int.toNat_natCast, msgPackHex_eq (by omega) fits, parts, List.take_left]
  · exact ⟨_, _, refused, by simp⟩

/-- Witness: the frame of three bytes is packed again. -/
theorem msgPackHex_msgUnPackHex_three
    : msgPackHex 2 20 (some [1, 2, 3]) 3 (some (List.replicate 9 0))
      = .ok (9, some (hexFrame 2 20 [1, 2, 3])) := by
  have room : 261 ≤ (hexFrame 2 20 [1, 2, 3] ++ List.replicate 252 0).length := by
    rw [List.length_append, length_hexFrame, List.length_replicate]
    decide
  obtain ⟨n, out, unpacked, packed⟩ := msgPackHex_msgUnPackHex true true true room
  rw [msgUnPackHex_hexFrame (by decide)] at unpacked
  obtain ⟨rfl, rfl⟩ := Prod.mk.inj (Except.ok.inj unpacked)
  obtain ⟨ver, sn, body, size, same, size_eq, -, packed⟩ := packed (by simp)
  obtain ⟨rfl, rfl, rfl⟩ : 2 = ver ∧ 20 = sn ∧ [1, 2, 3] = body := by simpa using same
  obtain rfl : size = 9 := Int.ofNat.inj (by simpa using size_eq)
  exact packed (List.replicate 9 0) (by simp)

end Cvos.Msg

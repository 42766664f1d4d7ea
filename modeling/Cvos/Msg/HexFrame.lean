import Cvos.Msg.Checksum

/-! The binary frames of `msg.c`: a head byte, a version, a sequence number, the length of the
body in one byte, the body, and for version 2 a checksum.
-/

namespace Cvos.Msg

open Cvos.Lib

/-- `MSG_HEX_HEAD` -/
def msgHexHead : UInt8 := 0xaa

/-- The bytes in front of the body, as `MSG_PackHex` writes them. -/
def storeHexHead (mem : Bytes) (ver sn : UInt8) (len : Nat) : Checked Bytes := do
  let mem ← store mem 0 msgHexHead
  let mem ← store mem 1 ver
  let mem ← store mem 2 sn
  store mem 3 (UInt8.ofNat len)

/-- `MSG_PackHex`: its result and the buffer. -/
def msgPackHex (ver sn : UInt8) (body : Option Bytes) (len : Nat) (msgBuf : Option Bytes)
    : Checked (Nat × Option Bytes) :=
  match body, msgBuf with
  | some body, some mem => do
      let mem ← storeHexHead mem ver sn len
      let bytes ← copyFrom body 0 len
      let mem ← copyTo mem 4 bytes
      let total := uint32 (len + 4)
      if ver = 2 then
        let crc16 ← sumCRC16 body 0 len
        let mem ← store mem (uint32 (len + 4)) (highByte crc16)
        let mem ← store mem (uint32 (len + 5)) (lowByte crc16)
        .ok (uint32 (total + 2), some mem)
      else
        .ok (total, some mem)
  | _, _ => .ok (0, msgBuf)

/-- What `MSG_UnPackHex` delivers: the version and number are delivered before the checksum is
compared.
-/
structure HexOutput where
  ver : Option UInt8
  sn : Option UInt8
  body : Option Bytes
  deriving DecidableEq, Repr

/-- Whether the checksum of a frame is right, if its version has one. -/
def checkHex (mem : Bytes) (protocol : UInt8) (len : Nat) : Checked Bool :=
  if protocol = 2 then do
    let sum ← sumCRC16 mem 4 len
    let high ← load mem (len + 4)
    let low ← load mem (len + 5)
    .ok (sum == joinBytes high low)
  else
    .ok true

/-- `MSG_UnPackHex`: its result and what it delivers. The first three arguments say whether there
is room for the version, the number and the body.
-/
def msgUnPackHex (ver sn body : Bool) (msgBuf : Option Bytes) : Checked (Int × HexOutput) :=
  match msgBuf with
  | none => .ok (-1, ⟨none, none, none⟩)
  | some mem =>
      if !ver || !sn || !body then
        .ok (-1, ⟨none, none, none⟩)
      else do
        let head ← load mem 0
        if head ≠ msgHexHead then
          .ok (-2, ⟨none, none, none⟩)
        else
          let protocol ← load mem 1
          let number ← load mem 2
          let len ← load mem 3
          let valid ← checkHex mem protocol len.toNat
          if !valid then
            .ok (-3, ⟨some protocol, some number, none⟩)
          else
            let bytes ← copyFrom mem 4 len.toNat
            .ok (len.toNat, ⟨some protocol, some number, some bytes⟩)

/-- What stands in a frame behind its body. -/
def hexTrailer (ver : UInt8) (body : Bytes) : Bytes :=
  if ver = 2 then [highByte (checksum body), lowByte (checksum body)] else []

/-- The frame that is built for a body, whose length is cut to one byte. -/
def hexFrame (ver sn : UInt8) (body : Bytes) : Bytes :=
  [msgHexHead, ver, sn, UInt8.ofNat body.length] ++ (body ++ hexTrailer ver body)

/-- The bytes that `MSG_UnPackHex` takes for the frame: the head, as many bytes as the length says
and, for version 2, the checksum.
-/
def hexSize (frame : Bytes) : Nat :=
  4 + (frame.getD 3 0).toNat + if frame.getD 1 0 = 2 then 2 else 0

section Frames

variable {ver sn : UInt8} {body mem : Bytes}

theorem length_hexFrame
    : (hexFrame ver sn body).length = body.length + 4 + if ver = 2 then 2 else 0 := by
  rw [hexFrame, hexTrailer, List.length_append, List.length_append]
  split <;> simp <;> omega

/-- Packing builds the frame at the start of the buffer and leaves the rest of it alone, when the
index of `_SumCRC16` does not overflow.
-/
theorem msgPackHex_eq (bound : body.length ≤ 2 ^ 31)
    (room : (hexFrame ver sn body).length ≤ mem.length)
    : msgPackHex ver sn (some body) body.length (some mem)
      = .ok ((hexFrame ver sn body).length,
          some (hexFrame ver sn body ++ mem.drop (hexFrame ver sn body).length)) := by
  rw [length_hexFrame] at room ⊢
  obtain ⟨a, b, c, d, mem, rfl⟩ : ∃ a b c d rest, mem = a :: b :: c :: d :: rest := by
    rcases mem with _ | ⟨a, _ | ⟨b, _ | ⟨c, _ | ⟨d, mem⟩⟩⟩⟩
    case cons.cons.cons.cons => exact ⟨a, b, c, d, mem, rfl⟩
    all_goals
      simp only [List.length_cons, List.length_nil] at room
      omega
  simp only [List.length_cons] at room
  obtain ⟨old, behind, length, rfl⟩
      : ∃ old behind, body.length = old.length ∧ mem = old ++ behind :=
    ⟨mem.take body.length, mem.drop body.length, by simp; omega, (List.take_append_drop ..).symm⟩
  have read : copyFrom body 0 body.length = .ok body := by
    simpa using copyFrom_append [] body []
  have copied := copyTo_append [msgHexHead, ver, sn, UInt8.ofNat body.length] old behind length
  have summed : sumCRC16 body 0 body.length = .ok (checksum body) := by
    simpa using sumCRC16_append [] body [] bound
  simp only [List.cons_append, List.nil_append, List.length_cons, List.length_nil, Nat.zero_add]
    at copied
  have head
      : storeHexHead (a :: b :: c :: d :: (old ++ behind)) ver sn body.length
        = .ok (msgHexHead :: ver :: sn :: UInt8.ofNat body.length :: (old ++ behind)) := by
    simp [storeHexHead, store]
  have total (n : Nat) (small : n ≤ 6) : uint32 ((body.length : Int) + n) = body.length + n := by
    rw [← Int.natCast_add, uint32_eq_self (by omega)]
  have total4 := total 4 (by decide)
  have total5 := total 5 (by decide)
  simp only [Nat.cast_ofNat] at total4 total5
  simp only [msgPackHex, head, read, copied, Checked.ok_bind]
  rw [total4, total5, summed]
  by_cases crc : ver = 2
  · rw [if_pos crc] at room ⊢
    obtain ⟨x, y, rest, rfl⟩ : ∃ x y rest, behind = x :: y :: rest := by
      rcases behind with _ | ⟨x, _ | ⟨y, behind⟩⟩
      case cons.cons => exact ⟨x, y, behind, rfl⟩
      all_goals
        simp only [List.length_append, List.length_cons, List.length_nil] at room
        omega
    have put (front : Bytes) (old c : UInt8) (rest : Bytes) {p : Nat} (index : p = front.length)
        : store (front ++ old :: rest) p c = .ok ((front ++ [c]) ++ rest) := by
      rw [store_of_index index, List.append_assoc, List.singleton_append]
    have first := put (msgHexHead :: ver :: sn :: UInt8.ofNat body.length :: body) x
      (highByte (checksum body)) (y :: rest) (show body.length + 4 = _ by simp)
    have second := put
      (msgHexHead :: ver :: sn :: UInt8.ofNat body.length :: body ++ [highByte (checksum body)]) y
      (lowByte (checksum body)) rest (show body.length + 5 = _ by simp)
    simp only [List.cons_append] at first second ⊢
    rw [if_pos crc, Checked.ok_bind, first, Checked.ok_bind, second, Checked.ok_bind]
    have total6 : uint32 ((body.length + 4 : Nat) + 2) = body.length + 4 + 2 := by
      rw [uint32]
      omega
    have rest_eq : (old ++ x :: y :: rest).drop (body.length + 2) = rest := by
      rw [length, ← List.drop_drop, List.drop_left]
      rfl
    rw [total6]
    simp [hexFrame, hexTrailer, crc, rest_eq]
  · rw [if_neg crc, if_neg crc]
    simp [hexFrame, hexTrailer, crc, length]

/-- The result of unpacking is the length byte of the frame. -/
theorem msgUnPackHex_ret {ret : Int} {out : HexOutput} {delivered : Bytes}
    (unpacked : msgUnPackHex true true true (some mem) = .ok (ret, out))
    (body : out.body = some delivered)
    : ret < 256 := by
  simp only [msgUnPackHex, Bool.not_true, Bool.or_false, Bool.false_eq_true, if_false,
    Checked.bind_eq_ok] at unpacked
  obtain ⟨head, -, unpacked⟩ := unpacked
  split at unpacked
  next =>
    obtain ⟨-, rfl⟩ := Prod.mk.inj (Except.ok.inj unpacked)
    contradiction
  next =>
    simp only [Checked.bind_eq_ok] at unpacked
    obtain ⟨_, -, _, -, len, -, valid, -, unpacked⟩ := unpacked
    split at unpacked
    next =>
      obtain ⟨-, rfl⟩ := Prod.mk.inj (Except.ok.inj unpacked)
      contradiction
    next =>
      obtain ⟨_, -, same⟩ := Checked.bind_eq_ok.mp unpacked
      obtain ⟨rfl, -⟩ := Prod.mk.inj (Except.ok.inj same)
      have bound := len.toNat_lt
      omega

/-- Unpacking a buffer with a body of the length that it states delivers the body, or refuses its
checksum.
-/
theorem msgUnPackHex_eq (fits : body.length ≤ 255) (rest : Bytes) {valid : Bool}
    (checked
      : checkHex (msgHexHead :: ver :: sn :: UInt8.ofNat body.length :: (body ++ rest)) ver
          body.length
        = .ok valid)
    : msgUnPackHex true true true
        (some (msgHexHead :: ver :: sn :: UInt8.ofNat body.length :: (body ++ rest)))
      = if valid then .ok (body.length, ⟨some ver, some sn, some body⟩)
        else .ok (-3, ⟨some ver, some sn, none⟩) := by
  have len : (UInt8.ofNat body.length).toNat = body.length := by
    rw [UInt8.toNat_ofNat']
    omega
  generalize content : msgHexHead :: ver :: sn :: UInt8.ofNat body.length :: (body ++ rest) = mem
    at checked
  have copied : copyFrom mem 4 body.length = .ok body := by
    rw [← content]
    exact copyFrom_append [msgHexHead, ver, sn, UInt8.ofNat body.length] body rest
  have head : load mem 0 = .ok msgHexHead := by rw [← content]; rfl
  have version : load mem 1 = .ok ver := by rw [← content]; rfl
  have number : load mem 2 = .ok sn := by rw [← content]; rfl
  have length : load mem 3 = .ok (UInt8.ofNat body.length) := by rw [← content]; rfl
  simp only [msgUnPackHex, Bool.not_true, Bool.or_false, Bool.false_eq_true, if_false, head,
    version, number, length, len, checked, copied, Checked.ok_bind]
  cases valid <;> rfl

/-- For version 2 the two bytes behind the body are compared with its checksum. -/
theorem checkHex_two (fits : body.length ≤ 255) (high low : UInt8) (rest : Bytes)
    : checkHex (msgHexHead :: 2 :: sn :: UInt8.ofNat body.length :: (body ++ high :: low :: rest)) 2
        body.length
      = .ok (checksum body == joinBytes high low) := by
  have summed :=
    sumCRC16_append [msgHexHead, 2, sn, UInt8.ofNat body.length] body (high :: low :: rest)
      (by omega)
  have first :=
    @load_of_index ([msgHexHead, 2, sn, UInt8.ofNat body.length] ++ body) (body.length + 4)
      (by simp) high (low :: rest)
  have second :=
    @load_of_index ([msgHexHead, 2, sn, UInt8.ofNat body.length] ++ body ++ [high])
      (body.length + 5) (by simp) low rest
  simp only [List.append_assoc, List.cons_append, List.nil_append, List.length_cons,
    List.length_nil, Nat.zero_add] at summed first second
  rw [checkHex, if_pos rfl]
  simp [summed, first, second]

/-- Unpacking a frame whose body fits into it finds the body again. -/
theorem msgUnPackHex_hexFrame (fits : body.length ≤ 255) (rest : Bytes)
    : msgUnPackHex true true true (some (hexFrame ver sn body ++ rest))
      = .ok (body.length, ⟨some ver, some sn, some body⟩) := by
  rw [hexFrame, List.append_assoc, List.append_assoc]
  refine (msgUnPackHex_eq fits _ ?_).trans (if_pos rfl)
  by_cases crc : ver = 2
  · subst crc
    have valid :=
      @checkHex_two sn body fits (highByte (checksum body)) (lowByte (checksum body)) rest
    rwa [joinBytes_eq, beq_self_eq_true] at valid
  · rw [checkHex, if_neg crc]

/-- When the total does not overflow, packing does not return 0. -/
theorem msgPackHex_ret {total : Nat} {frame : Option Bytes}
    (noOverflow : (hexFrame ver sn body).length < 2 ^ 32)
    (packed : msgPackHex ver sn (some body) body.length (some mem) = .ok (total, frame))
    : total ≠ 0 := by
  rw [length_hexFrame] at noOverflow
  simp only [msgPackHex, Checked.bind_eq_ok] at packed
  obtain ⟨_, -, _, -, _, -, packed⟩ := packed
  split at packed
  next crc =>
    simp only [Checked.bind_eq_ok] at packed
    obtain ⟨_, -, _, -, _, -, same⟩ := packed
    obtain ⟨rfl, -⟩ := Prod.mk.inj (Except.ok.inj same)
    rw [if_pos crc] at noOverflow
    rw [uint32, uint32]
    omega
  next other =>
    obtain ⟨rfl, -⟩ := Prod.mk.inj (Except.ok.inj packed)
    rw [if_neg other] at noOverflow
    rw [uint32]
    omega

/-- The decoder takes exactly the frame for the frame, when the body fits into it. -/
theorem hexSize_hexFrame (fits : body.length ≤ 255) (rest : Bytes)
    : hexSize (hexFrame ver sn body ++ rest) = (hexFrame ver sn body).length := by
  have len : (UInt8.ofNat body.length).toNat = body.length := by
    rw [UInt8.toNat_ofNat']
    omega
  rw [length_hexFrame, Nat.add_comm body.length]
  simp [hexSize, hexFrame, len]

end Frames

/-- A binary frame is refused or gives its body back exactly when the length of the body fits into
a byte.
-/
theorem msgUnPackHex_msgPackHex_iff (ver sn : UInt8) (body mem : Bytes)
    (noOverflow : (hexFrame ver sn body).length < 2 ^ 32)
    (room : (hexFrame ver sn body).length ≤ mem.length)
    : (∃ total frame,
        msgPackHex ver sn (some body) body.length (some mem) = .ok (total, some frame)
        ∧ (total = 0
          ∨ msgUnPackHex true true true (some frame)
              = .ok (body.length, ⟨some ver, some sn, some body⟩)
            ∧ total = hexSize frame))
      ↔ body.length ≤ 255 := by
  constructor
  · rintro ⟨total, frame, packed, zero | ⟨unpacked, -⟩⟩
    · exact absurd zero (msgPackHex_ret noOverflow packed)
    · have small := msgUnPackHex_ret unpacked rfl
      omega
  · intro fits
    have packed := @msgPackHex_eq ver sn body mem (by omega) room
    exact ⟨_, _, packed, Or.inr ⟨msgUnPackHex_hexFrame fits _, (hexSize_hexFrame fits _).symm⟩⟩

/-- Witness: the frame of three bytes comes back. -/
theorem msgUnPackHex_msgPackHex_iff_three
    : ∃ total frame,
        msgPackHex 2 20 (some [1, 2, 3]) 3 (some (List.replicate 16 0)) = .ok (total, some frame)
        ∧ (total = 0
          ∨ msgUnPackHex true true true (some frame)
              = .ok (3, ⟨some 2, some 20, some [1, 2, 3]⟩)
            ∧ total = hexSize frame) :=
  (msgUnPackHex_msgPackHex_iff 2 20 [1, 2, 3] (List.replicate 16 0) (by decide) (by decide)).mpr
    (by decide)

/-- The length of a body of 256 bytes is sent as 0. -/
theorem msgUnPackHex_empties
    : ¬ ∀ (ver sn : UInt8) (body mem : Bytes),
        (hexFrame ver sn body).length < 2 ^ 32
        → (hexFrame ver sn body).length ≤ mem.length
        → ∃ total frame,
            msgPackHex ver sn (some body) body.length (some mem) = .ok (total, some frame)
            ∧ (total = 0
              ∨ msgUnPackHex true true true (some frame)
                  = .ok (body.length, ⟨some ver, some sn, some body⟩)
                ∧ total = hexSize frame) := by
  intro always
  have size : (hexFrame 1 20 (List.replicate 256 7)).length = 260 := by
    rw [length_hexFrame, List.length_replicate]
    rfl
  obtain ⟨total, frame, packed, zero | ⟨unpacked, -⟩⟩ :=
    always 1 20 (List.replicate 256 7) (List.replicate 260 0) (by rw [size]; decide)
      (by rw [size, List.length_replicate])
  · exact msgPackHex_ret (by rw [size]; decide) packed zero
  · have small := msgUnPackHex_ret unpacked rfl
    rw [List.length_replicate] at small
    omega

end Cvos.Msg

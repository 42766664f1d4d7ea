import Cvos.Msg.Checksum

/-! The text frames of `msg.c`: two at signs, a version, the body, for version `2` a checksum, and
two number signs. Packing counts the bytes of the body, and unpacking looks for the end of the
whole frame with `strlen`.
-/

namespace Cvos.Msg

open Cvos.Lib

/-- `MSG_PackMsg`: its result and the buffer. The body is a string, which its NUL follows. -/
def msgPackMsg (ver : UInt8) (body msgBuf : Option Bytes) : Checked (Int × Option Bytes) :=
  match body, msgBuf with
  | some body, some mem => do
      let mem ← store mem 0 '@'.toUInt8
      let mem ← store mem 1 '@'.toUInt8
      let mem ← store mem 2 ver
      let mem ← copyTo mem 3 (body ++ [0])
      let len := int32 body.length
      if ver = '2'.toUInt8 then
        let crc16 ← sumCRC16 (body ++ [0]) 0 (uint32 len)
        let mem ← storeAt mem (int32 (len + 3)) (highByte crc16)
        let mem ← storeAt mem (int32 (len + 4)) (lowByte crc16)
        let mem ← storeAt mem (int32 (len + 5)) '#'.toUInt8
        let mem ← storeAt mem (int32 (len + 6)) '#'.toUInt8
        .ok (int32 (len + 7), some mem)
      else
        let mem ← storeAt mem (int32 (len + 3)) '#'.toUInt8
        let mem ← storeAt mem (int32 (len + 4)) '#'.toUInt8
        .ok (int32 (len + 5), some mem)
  | _, _ => .ok (-1, msgBuf)

/-- Whether the buffer starts with two at signs. -/
def startsFrame (mem : Bytes) : Checked Bool := do
  let first ← load mem 0
  if first ≠ '@'.toUInt8 then
    .ok false
  else
    let second ← load mem 1
    .ok (second == '@'.toUInt8)

/-- The end of `MSG_UnPackMsg` with a body of `len` bytes: its result, the version and the body.
A negative `len` is a size that no buffer has.
-/
def deliverMsg (mem : Bytes) (protocol : UInt8) (len : Int)
    : Checked (Int × Option (UInt8 × Bytes)) :=
  if len < 0 then .error .outOfBounds else do
    let body ← strncpy (mem.drop 3) len.toNat
    .ok (len, some (protocol, body))

/-- `MSG_UnPackMsg`: its result, and the version and body that it delivers, if it delivers them.
The first two arguments say whether there is room for them.
-/
def msgUnPackMsg (ver body : Bool) (msgBuf : Option Bytes)
    : Checked (Int × Option (UInt8 × Bytes)) :=
  match msgBuf with
  | none => .ok (-1, none)
  | some mem =>
      if !ver || !body then
        .ok (-1, none)
      else do
        let magic ← startsFrame mem
        if !magic then
          .ok (-2, none)
        else
          let protocol ← load mem 2
          let size ← strlen mem 0
          if protocol = '2'.toUInt8 then
            let len := int32 (size - 7)
            let sum ← sumCRC16 mem 3 (uint32 len)
            let high ← loadAt mem (int32 (len + 3))
            let low ← loadAt mem (int32 (len + 4))
            if sum ≠ joinBytes high low then .ok (-3, none) else deliverMsg mem protocol len
          else
            deliverMsg mem protocol (int32 (size - 5))

/-- What stands in a frame behind its body. -/
def trailer (ver : UInt8) (body : Bytes) : Bytes :=
  if ver = '2'.toUInt8 then
    [highByte (checksum body), lowByte (checksum body), '#'.toUInt8, '#'.toUInt8]
  else
    ['#'.toUInt8, '#'.toUInt8]

/-- The frame of a body. -/
def textFrame (ver : UInt8) (body : Bytes) : Bytes :=
  ['@'.toUInt8, '@'.toUInt8, ver] ++ (body ++ trailer ver body)

section Frames

variable {ver : UInt8} {body : Bytes} {size : Nat}

theorem length_textFrame
    : (textFrame ver body).length = body.length + (trailer ver body).length + 3 := by
  rw [textFrame, List.length_append, List.length_append, Nat.add_comm]
  rfl

/-- Packing builds the frame at the start of the buffer and leaves the rest of it alone, when its
indices stay in the range of an `int`.
-/
theorem msgPackMsg_eq (fits : body.length + (trailer ver body).length + 2 < 2 ^ 31) (mem : Bytes)
    (room : (textFrame ver body).length ≤ mem.length)
    : ∃ ret,
        msgPackMsg ver (some body) (some mem)
        = .ok (ret, some (textFrame ver body ++ mem.drop (textFrame ver body).length)) := by
  rw [length_textFrame] at room ⊢
  have filled : 2 ≤ (trailer ver body).length := by
    rw [trailer]
    split <;> simp
  obtain ⟨a, b, c, mem, rfl⟩ : ∃ a b c rest, mem = a :: b :: c :: rest := by
    rcases mem with _ | ⟨a, _ | ⟨b, _ | ⟨c, mem⟩⟩⟩
    case cons.cons.cons => exact ⟨a, b, c, mem, rfl⟩
    all_goals
      simp only [List.length_cons, List.length_nil] at room
      omega
  simp only [List.length_cons] at room
  obtain ⟨old, behind, length, rfl⟩
      : ∃ old behind, (body ++ [0]).length = old.length ∧ mem = old ++ behind :=
    ⟨mem.take (body.length + 1), mem.drop (body.length + 1), by simp; omega,
      (List.take_append_drop ..).symm⟩
  have copied := copyTo_append ['@'.toUInt8, '@'.toUInt8, ver] old behind length
  simp only [List.cons_append, List.nil_append, List.length_cons, List.length_nil, Nat.zero_add]
    at copied
  have summed : sumCRC16 (body ++ [0]) 0 body.length = .ok (checksum body) :=
    sumCRC16_append [] body [0] (by omega)
  have put {front : Bytes} {i : Int} (index : i = front.length) (bound : front.length < 2 ^ 31)
      (old c : UInt8) (rest : Bytes)
      : storeAt (front ++ old :: rest) (int32 i) c = .ok ((front ++ [c]) ++ rest) := by
    rw [storeAt_of_index index bound, List.append_assoc, List.singleton_append]
  rw [List.length_append, List.length_singleton] at length
  simp only [List.length_append, ← length] at room
  have parts
      : '@'.toUInt8 :: '@'.toUInt8 :: ver :: (body ++ [0] ++ behind)
        = ('@'.toUInt8 :: '@'.toUInt8 :: ver :: body) ++ 0 :: behind := by simp
  have dropped (n : Nat) : (a :: b :: c :: (old ++ behind)).drop (body.length + (n + 1) + 3)
      = behind.drop n := by
    have place : body.length + (n + 1) + 3 = (a :: b :: c :: old).length + n := by
      simp only [List.length_cons, ← length]
      omega
    rw [place]
    exact List.drop_length_add_append ..
  rw [msgPackMsg]
  simp only [store, List.length_cons, Nat.zero_lt_succ, if_true, List.set_cons_zero,
    List.set_cons_succ, Checked.ok_bind, Nat.succ_lt_succ_iff, copied]
  rw [int32_eq_self (z := (body.length : Int)) (by omega) (by omega), parts]
  by_cases crc : ver = '2'.toUInt8
  · have count : (trailer ver body).length = 4 := by simp [trailer, crc]
    rw [count] at fits room ⊢
    obtain ⟨x, y, z, rest, rfl⟩ : ∃ x y z rest, behind = x :: y :: z :: rest := by
      rcases behind with _ | ⟨x, _ | ⟨y, _ | ⟨z, rest⟩⟩⟩
      case cons.cons.cons => exact ⟨x, y, z, rest, rfl⟩
      all_goals
        simp only [List.length_cons, List.length_nil] at room
        omega
    rw [if_pos crc, uint32_eq_self (by omega), summed, Checked.ok_bind,
      put (by simp; omega) (by simp; omega), Checked.ok_bind,
      put (by simp; omega) (by simp; omega), Checked.ok_bind,
      put (by simp; omega) (by simp; omega), Checked.ok_bind,
      put (by simp; omega) (by simp; omega), Checked.ok_bind, dropped 3]
    refine ⟨int32 (body.length + 7), ?_⟩
    simp [textFrame, trailer, crc]
  · have count : (trailer ver body).length = 2 := by simp [trailer, crc]
    rw [count] at fits room ⊢
    obtain ⟨x, rest, rfl⟩ : ∃ x rest, behind = x :: rest := by
      cases behind with
      | nil =>
          simp only [List.length_nil] at room
          omega
      | cons x rest => exact ⟨x, rest, rfl⟩
    rw [if_neg crc, put (by simp; omega) (by simp; omega), Checked.ok_bind,
      put (by simp; omega) (by simp; omega), Checked.ok_bind, dropped 1]
    refine ⟨int32 (body.length + 5), ?_⟩
    simp [textFrame, trailer, crc]

/-- Packing into a buffer of zeros that is large enough leaves a NUL behind the frame. -/
theorem msgPackMsg_ok (fits : body.length + (trailer ver body).length + 2 < 2 ^ 31)
    (room : (textFrame ver body).length < size)
    : ∃ ret rest,
        msgPackMsg ver (some body) (some (List.replicate size 0))
        = .ok (ret, some (textFrame ver body ++ 0 :: rest)) := by
  obtain ⟨ret, packed⟩ := msgPackMsg_eq fits (List.replicate size 0) (by simp; omega)
  obtain ⟨more, count⟩ : ∃ more, size - (textFrame ver body).length = more + 1 :=
    Nat.exists_eq_add_one.mpr (by omega)
  exact ⟨ret, List.replicate more 0, by rw [packed, List.drop_replicate, count]; rfl⟩

/-- Packing goes wrong when the index of the last byte does not fit into an `int`. -/
theorem fits_of_msgPackMsg {mem : Bytes} {result : Int × Option Bytes}
    (packed : msgPackMsg ver (some body) (some mem) = .ok result) (bound : body.length < 2 ^ 31)
    : body.length + (trailer ver body).length + 2 < 2 ^ 31 := by
  have last {z : Int} (low : 2 ^ 31 ≤ z) (high : z < 2 ^ 32) {mem mem' : Bytes} {c : UInt8}
      (stored : storeAt mem (int32 z) c = .ok mem')
      : False := by
    have nonneg := nonneg_of_storeAt stored
    have negative := int32_neg low high
    omega
  by_contra long
  simp only [msgPackMsg, Checked.bind_eq_ok] at packed
  obtain ⟨_, -, _, -, _, -, _, -, packed⟩ := packed
  rw [int32_eq_self (z := (body.length : Int)) (by omega) (by omega)] at packed
  by_cases crc : ver = '2'.toUInt8
  · have length : (trailer ver body).length = 4 := by simp [trailer, crc]
    simp only [if_pos crc, Checked.bind_eq_ok] at packed
    obtain ⟨_, -, _, -, _, -, _, -, _, stored, -⟩ := packed
    exact last (by omega) (by omega) stored
  · have length : (trailer ver body).length = 2 := by simp [trailer, crc]
    simp only [if_neg crc, Checked.bind_eq_ok] at packed
    obtain ⟨_, -, _, stored, -⟩ := packed
    exact last (by omega) (by omega) stored

/-- The result of unpacking is computed from the length of the whole frame. -/
theorem msgUnPackMsg_ret {mem : Bytes} {ret : Int} {protocol : UInt8} {delivered : Bytes}
    (unpacked : msgUnPackMsg true true (some mem) = .ok (ret, some (protocol, delivered)))
    : ∃ size,
        strlen mem 0 = .ok size
        ∧ ret = int32 (size - if protocol = '2'.toUInt8 then 7 else 5) := by
  have ends {version : UInt8} {len : Int}
      (unpacked : deliverMsg mem version len = .ok (ret, some (protocol, delivered)))
      : version = protocol ∧ ret = len := by
    rw [deliverMsg] at unpacked
    split at unpacked
    next => contradiction
    next =>
      obtain ⟨_, -, same⟩ := Checked.bind_eq_ok.mp unpacked
      simp only [Except.ok.injEq, Prod.mk.injEq, Option.some.injEq] at same
      exact ⟨same.2.1, same.1.symm⟩
  simp only [msgUnPackMsg, Bool.not_true, Bool.or_false, Bool.false_eq_true, if_false,
    Checked.bind_eq_ok] at unpacked
  obtain ⟨magic, -, unpacked⟩ := unpacked
  split at unpacked
  next => simp at unpacked
  next =>
    simp only [Checked.bind_eq_ok] at unpacked
    obtain ⟨version, -, size, length, unpacked⟩ := unpacked
    refine ⟨size, length, ?_⟩
    split at unpacked
    next crc =>
      simp only [Checked.bind_eq_ok] at unpacked
      obtain ⟨_, -, _, -, _, -, unpacked⟩ := unpacked
      split at unpacked
      next => simp at unpacked
      next =>
        obtain ⟨rfl, rfl⟩ := ends unpacked
        rw [if_pos crc]
    next other =>
      obtain ⟨rfl, rfl⟩ := ends unpacked
      rw [if_neg other]

/-- Unpacking finds the body again when the frame has no NUL. -/
theorem msgUnPackMsg_textFrame (visible : ver ≠ 0) (nulFree : ∀ c ∈ body, c ≠ 0)
    (nulFree' : ∀ c ∈ trailer ver body, c ≠ 0)
    (fits : body.length + (trailer ver body).length + 2 < 2 ^ 31) (rest : Bytes)
    : msgUnPackMsg true true (some (textFrame ver body ++ 0 :: rest))
      = .ok (body.length, some (ver, body)) := by
  have text : ∀ c ∈ textFrame ver body, c ≠ 0 := by
    simp only [textFrame, List.forall_mem_append, List.forall_mem_cons]
    exact ⟨⟨by decide, by decide, visible, by simp⟩, nulFree, nulFree'⟩
  have length := strlen_append text rest
  have size := @length_textFrame ver body
  have copied
      : deliverMsg (textFrame ver body ++ 0 :: rest) ver body.length
        = .ok (body.length, some (ver, body)) := by
    have behind
        : (textFrame ver body ++ 0 :: rest).drop 3 = body ++ (trailer ver body ++ 0 :: rest) := by
      simp [textFrame]
    rw [deliverMsg, if_neg (by omega), behind, Int.toNat_natCast, strncpy_append nulFree]
    rfl
  rw [msgUnPackMsg]
  simp only [Bool.not_true, Bool.or_false, Bool.false_eq_true, if_false, length, Checked.ok_bind]
  have magic : startsFrame (textFrame ver body ++ 0 :: rest) = .ok true := rfl
  have version : load (textFrame ver body ++ 0 :: rest) 2 = .ok ver := rfl
  rw [magic, Checked.ok_bind, version, Checked.ok_bind, size]
  by_cases crc : ver = '2'.toUInt8
  · have tail
        : trailer ver body
          = [highByte (checksum body), lowByte (checksum body), '#'.toUInt8, '#'.toUInt8] :=
      if_pos crc
    have count : (trailer ver body).length = 4 := by rw [tail]; rfl
    have len : int32 ((body.length + (trailer ver body).length + 3 : Nat) - 7) = body.length := by
      rw [tail, int32_eq_self] <;> simp <;> omega
    have summed
        : sumCRC16 (textFrame ver body ++ 0 :: rest) 3 body.length = .ok (checksum body) := by
      rw [textFrame, List.append_assoc, List.append_assoc]
      exact sumCRC16_append ['@'.toUInt8, '@'.toUInt8, ver] body _ (by omega)
    have high
        : loadAt (textFrame ver body ++ 0 :: rest) (int32 (body.length + 3))
          = .ok (highByte (checksum body)) := by
      have parts
          : textFrame ver body ++ 0 :: rest
            = (['@'.toUInt8, '@'.toUInt8, ver] ++ body) ++ highByte (checksum body)
              :: lowByte (checksum body) :: '#'.toUInt8 :: '#'.toUInt8 :: 0 :: rest := by
        simp [textFrame, tail]
      rw [parts, loadAt_of_index (by simp; omega) (by simp; omega)]
    have low
        : loadAt (textFrame ver body ++ 0 :: rest) (int32 (body.length + 4))
          = .ok (lowByte (checksum body)) := by
      have parts
          : textFrame ver body ++ 0 :: rest
            = (['@'.toUInt8, '@'.toUInt8, ver] ++ body ++ [highByte (checksum body)])
              ++ lowByte (checksum body) :: '#'.toUInt8 :: '#'.toUInt8 :: 0 :: rest := by
        simp [textFrame, tail]
      rw [parts, loadAt_of_index (by simp; omega) (by simp; omega)]
    rw [if_neg (by simp), if_pos crc, len, uint32_eq_self (by omega), summed, Checked.ok_bind, high,
      Checked.ok_bind, low, Checked.ok_bind, if_neg (by simp [joinBytes_eq]), copied]
  · have tail : trailer ver body = ['#'.toUInt8, '#'.toUInt8] := if_neg crc
    have len : int32 ((body.length + (trailer ver body).length + 3 : Nat) - 5) = body.length := by
      rw [tail, int32_eq_self] <;> simp <;> omega
    rw [if_neg (by simp), if_neg crc, len, copied]

end Frames

/-- A text frame gives its body back exactly when its indices stay in the range of an `int` and,
for version `2`, neither byte of the checksum is NUL.
-/
theorem msgUnPackMsg_msgPackMsg_iff (ver : UInt8) (visible : ver ≠ 0) (body : Bytes)
    (nulFree : ∀ c ∈ body, c ≠ 0) (size : Nat) (room : (textFrame ver body).length < size)
    : (∃ ret frame,
        msgPackMsg ver (some body) (some (List.replicate size 0)) = .ok (ret, some frame)
        ∧ msgUnPackMsg true true (some frame) = .ok (body.length, some (ver, body)))
      ↔ body.length + (trailer ver body).length + 2 < 2 ^ 31
        ∧ (ver = '2'.toUInt8 → highByte (checksum body) ≠ 0 ∧ lowByte (checksum body) ≠ 0) := by
  constructor
  · rintro ⟨ret, frame, packed, unpacked⟩
    obtain ⟨length, found, len⟩ := msgUnPackMsg_ret unpacked
    have bound : body.length < 2 ^ 31 := by
      have bound := int32_lt (length - if ver = '2'.toUInt8 then 7 else 5)
      omega
    have fits := fits_of_msgPackMsg packed bound
    refine ⟨fits, ?_⟩
    intro crc
    obtain ⟨ret', rest, packed'⟩ := msgPackMsg_ok fits room
    rw [packed, Except.ok.injEq, Prod.mk.injEq, Option.some.injEq] at packed'
    obtain ⟨-, rfl⟩ := packed'
    rw [if_pos crc] at len
    -- A NUL among the two bytes ends the string before the frame ends.
    have tooShort (text behind : Bytes) (nulFree : ∀ c ∈ text, c ≠ 0)
        (parts : textFrame ver body ++ 0 :: rest = text ++ 0 :: behind)
        (short : text.length = body.length + 3 ∨ text.length = body.length + 4)
        : False := by
      rw [parts, strlen_append nulFree, Except.ok.injEq] at found
      rw [int32_eq_self (by omega) (by omega)] at len
      omega
    have front : ∀ c ∈ ['@'.toUInt8, '@'.toUInt8, ver] ++ body, c ≠ 0 := by
      simp only [List.forall_mem_append, List.forall_mem_cons]
      exact ⟨⟨by decide, by decide, visible, by simp⟩, nulFree⟩
    have high : highByte (checksum body) ≠ 0 := by
      intro zero
      refine tooShort (['@'.toUInt8, '@'.toUInt8, ver] ++ body)
        (lowByte (checksum body) :: '#'.toUInt8 :: '#'.toUInt8 :: 0 :: rest) front ?_
        (Or.inl (by simp))
      simp [textFrame, trailer, crc, zero]
    refine ⟨high, ?_⟩
    intro zero
    refine tooShort (['@'.toUInt8, '@'.toUInt8, ver] ++ body ++ [highByte (checksum body)])
      ('#'.toUInt8 :: '#'.toUInt8 :: 0 :: rest) ?_ ?_ (Or.inr (by simp))
    · exact List.forall_mem_append.mpr ⟨front, by simpa using high⟩
    · simp [textFrame, trailer, crc, zero]
  · rintro ⟨fits, filled⟩
    obtain ⟨ret, rest, packed⟩ := msgPackMsg_ok fits room
    refine ⟨ret, _, packed, msgUnPackMsg_textFrame visible nulFree ?_ fits rest⟩
    by_cases crc : ver = '2'.toUInt8
    · simp only [trailer, if_pos crc, List.forall_mem_cons]
      exact ⟨(filled crc).1, (filled crc).2, by decide, by decide, by simp⟩
    · simp only [trailer, if_neg crc, List.forall_mem_cons]
      exact ⟨by decide, by decide, by simp⟩

/-- Witness: a body whose checksum has no NUL byte comes back. -/
theorem msgUnPackMsg_msgPackMsg_iff_digits
    : ∃ ret frame,
        msgPackMsg '2'.toUInt8 (some ("12345".toList.map Char.toUInt8))
          (some (List.replicate 20 0))
        = .ok (ret, some frame)
        ∧ msgUnPackMsg true true (some frame)
          = .ok (5, some ('2'.toUInt8, "12345".toList.map Char.toUInt8)) :=
  (msgUnPackMsg_msgPackMsg_iff '2'.toUInt8 (by decide) ("12345".toList.map Char.toUInt8)
    (by decide) 20 (by decide)).mpr ⟨by decide, fun _ => by decide +kernel⟩

/-- A body whose checksum has a NUL byte is refused. -/
theorem msgUnPackMsg_refuses
    : ¬ ∀ (ver : UInt8) (body : Bytes) (size : Nat),
        ver ≠ 0
        → (∀ c ∈ body, c ≠ 0)
        → body.length + 7 < size
        → ∃ ret frame,
            msgPackMsg ver (some body) (some (List.replicate size 0)) = .ok (ret, some frame)
            ∧ msgUnPackMsg true true (some frame) = .ok (body.length, some (ver, body)) := by
  intro always
  obtain ⟨ret, frame, packed, unpacked⟩ :=
    always '2'.toUInt8 ("1222".toList.map Char.toUInt8) 12 (by decide) (by decide) (by decide)
  obtain ⟨ret', rest, packed'⟩ :=
    @msgPackMsg_ok '2'.toUInt8 ("1222".toList.map Char.toUInt8) 12 (by decide) (by decide)
  have sum : checksum ("1222".toList.map Char.toUInt8) = 0x00be := by decide +kernel
  have bytes
      : textFrame '2'.toUInt8 ("1222".toList.map Char.toUInt8)
        = "@@21222".toList.map Char.toUInt8 ++ [0x00, 0xbe, 0x23, 0x23] := by
    rw [textFrame, trailer, if_pos rfl, sum]
    rfl
  rw [packed, bytes, Except.ok.injEq, Prod.mk.injEq, Option.some.injEq] at packed'
  obtain ⟨-, rfl⟩ := packed'
  have refused
      : msgUnPackMsg true true
          (some ("@@21222".toList.map Char.toUInt8 ++ [0x00, 0xbe, 0x23, 0x23] ++ 0 :: rest))
        = .ok (-3, none) := rfl
  rw [refused, Except.ok.injEq, Prod.mk.injEq] at unpacked
  exact absurd unpacked.2 (by simp)

end Cvos.Msg

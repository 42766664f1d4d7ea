import Cvos.Lib.BlockHash
import Cvos.Lib.CBuffer

/-! The messages that `utils.c` sends over a named pipe, a stream of bytes in which a short write
is not divided.
-/

namespace Cvos.Utils

open Cvos.Lib

/-- `PIPE_BUF` -/
def pipeBuf : Int := 4096

/-- A `MSG_S`. -/
structure MsgS where
  mtype : UInt64
  mtext : Bytes
  deriving DecidableEq, Repr

/-- A message in memory, its type with the least significant byte first. -/
def MsgS.image (msg : MsgS) : Bytes := leBytes 8 msg.mtype.toNat ++ msg.mtext

/-- `write` on a pipe: its result, and what is then in the pipe. -/
def writePipe (pipe bytes : Bytes) : Nat × Bytes := (bytes.length, pipe ++ bytes)

/-- `read` on a pipe that no one is writing to: its result, the bytes that are read, and what is
left in the pipe.
-/
def readPipe (pipe : Bytes) (len : Int) : Int × Bytes × Bytes :=
  if len < 0 then
    (-1, [], pipe)
  else
    ((pipe.take len.toNat).length, pipe.take len.toNat, pipe.drop len.toNat)

/-- The loop of `FifoSend`: the number of bytes written, and the pipe. -/
def writeLoop (msgBuf : Bytes) (p : Nat) (len : Int) (cnt : Nat) (pipe : Bytes)
    : Checked (Nat × Bytes) :=
  if 0 < len then do
    let bytes ← copyFrom msgBuf p len.toNat
    let ret := (writePipe pipe bytes).1
    if ret < 1 then
      .ok (cnt, (writePipe pipe bytes).2)
    else
      writeLoop msgBuf (p + ret) (len - ret) (cnt + ret) (writePipe pipe bytes).2
  else
    .ok (cnt, pipe)
termination_by len.toNat

/-- What the system answers when `FifoSend` looks for the pipe, makes it and opens it. -/
structure Opening where
  found : Bool
  made : Bool
  opened : Bool
  deriving DecidableEq, Repr

/-- `FifoSend` of the message at `msgBuf`: its result, and the pipe. -/
def fifoSend (o : Opening) (fifoName msgBuf : Option Bytes) (msgBodyLen : Nat) (pipe : Bytes)
    : Checked (Int × Bytes) :=
  let len := int32 (msgBodyLen + 8)
  match fifoName, msgBuf with
  | some _, some msgBuf =>
      if ¬o.found ∧ ¬o.made then
        .ok (-2, pipe)
      else if ¬o.opened then
        .ok (-3, pipe)
      else if len ≥ pipeBuf then
        .ok (-4, pipe)
      else do
        let (cnt, pipe) ← writeLoop msgBuf 0 len 0 pipe
        .ok (cnt, pipe)
  | _, _ => .ok (-1, pipe)

/-- `FifoRevMsg` into the memory at `msgBuf`: its result, the memory and the pipe. -/
def fifoRevMsg (msgBuf : Bytes) (msgBodyLen : Nat) (pipe : Bytes)
    : Checked (Int × Bytes × Bytes) :=
  let len := int32 msgBodyLen
  if len ≥ pipeBuf then
    .ok (-1, msgBuf, pipe)
  else do
    let msgBuf ← copyTo msgBuf 0 (leBytes 8 0xFFFF)
    let (ret, bytes, pipe) := readPipe pipe len
    let msgBuf ← copyTo msgBuf 0 bytes
    .ok (if ret ≤ 0 then -4 else ret, msgBuf, pipe)

/-- `FifoSend` of each message in turn. -/
def sendAll (fifoName : Bytes) (msgBodyLen : Nat) : List MsgS → Bytes → Checked Bytes
  | [], pipe => .ok pipe
  | msg :: msgs, pipe => do
      let (_, pipe) ← fifoSend ⟨true, true, true⟩ (some fifoName) (some msg.image) msgBodyLen pipe
      sendAll fifoName msgBodyLen msgs pipe

/-- `FifoRevMsg` into each of the buffers in turn. -/
def receiveAll (msgBodyLen : Nat) : List Bytes → Bytes → Checked (List Bytes)
  | [], _ => .ok []
  | msgBuf :: msgBufs, pipe => do
      let (_, msgBuf, pipe) ← fifoRevMsg msgBuf msgBodyLen pipe
      let received ← receiveAll msgBodyLen msgBufs pipe
      .ok (msgBuf :: received)

/-- The messages that are sent arrive, each with its type and as many bytes of its body as were
asked for, whatever the buffers hold before.
-/
def Delivers (sendLen receiveLen : Nat) (msgs : List MsgS) : Prop :=
  ∀ (fifoName : Bytes) (msgBufs : List Bytes),
    msgBufs.length = msgs.length
    → (∀ msgBuf ∈ msgBufs, sendLen + 8 ≤ msgBuf.length)
    → ∃ pipe received,
        sendAll fifoName sendLen msgs [] = .ok pipe
        ∧ receiveAll receiveLen msgBufs pipe = .ok received
        ∧ received.map (·.take (sendLen + 8))
          = msgs.map fun msg => leBytes 8 msg.mtype.toNat ++ msg.mtext.take sendLen

/-- The part of a message that is sent. -/
theorem MsgS.image_take (msg : MsgS) (n : Nat)
    : msg.image.take (n + 8) = leBytes 8 msg.mtype.toNat ++ msg.mtext.take n := by
  rw [MsgS.image, List.take_append, length_leBytes, Nat.add_sub_cancel,
    List.take_of_length_le (by simp)]

/-- The loop writes all the bytes at once. -/
theorem writeLoop_eq {msgBuf : Bytes} {n : Nat} (positive : 0 < n) (bound : n ≤ msgBuf.length)
    (pipe : Bytes)
    : writeLoop msgBuf 0 n 0 pipe = .ok (n, pipe ++ msgBuf.take n) := by
  have length : (msgBuf.take n).length = n := List.length_take_of_le bound
  have read : copyFrom msgBuf 0 n = .ok (msgBuf.take n) := by
    rw [copyFrom, if_pos (by omega), List.drop_zero]
  rw [writeLoop, if_pos (by omega), Int.toNat_natCast, read, Checked.ok_bind]
  simp only [writePipe, length]
  rw [if_neg (by omega), Int.sub_self, writeLoop, if_neg (by omega), Nat.zero_add]

/-- A message that is sent is behind what is in the pipe. -/
theorem fifoSend_eq {msg : MsgS} {sendLen : Nat} (bound : sendLen + 8 < 4096)
    (enough : sendLen ≤ msg.mtext.length) (fifoName pipe : Bytes)
    : fifoSend ⟨true, true, true⟩ (some fifoName) (some msg.image) sendLen pipe
      = .ok (sendLen + 8, pipe ++ (leBytes 8 msg.mtype.toNat ++ msg.mtext.take sendLen)) := by
  have len : int32 (sendLen + 8) = (sendLen + 8 : Nat) := by
    rw [int32_eq_self (by omega) (by omega)]
    rfl
  have inside : sendLen + 8 ≤ msg.image.length := by
    simp only [MsgS.image, List.length_append, length_leBytes]
    omega
  have written := writeLoop_eq (by omega) inside pipe
  simp only [fifoSend, len]
  rw [if_neg (by simp), if_neg (by simp), if_neg (by simp [pipeBuf]; omega), written,
    MsgS.image_take]
  rfl

/-- The messages that are sent are in the pipe one behind the other, by induction over them. -/
theorem sendAll_eq {sendLen : Nat} (bound : sendLen + 8 < 4096) {msgs : List MsgS}
    (enough : ∀ msg ∈ msgs, sendLen ≤ msg.mtext.length) (fifoName pipe : Bytes)
    : sendAll fifoName sendLen msgs pipe
      = .ok
          (pipe
            ++ msgs.flatMap fun msg => leBytes 8 msg.mtype.toNat ++ msg.mtext.take sendLen) := by
  induction msgs generalizing pipe with
  | nil => simp [sendAll]
  | cons msg msgs ih =>
      have here := enough msg List.mem_cons_self
      have there := ih fun other member => enough other (List.mem_cons_of_mem msg member)
      rw [sendAll, fifoSend_eq bound here, Checked.ok_bind]
      dsimp only
      rw [there, List.flatMap_cons, List.append_assoc]

/-- `FifoRevMsg` takes as many bytes from the pipe as it is told the body has. The bytes behind
them are what the buffer held before, except for the preset type.
-/
theorem fifoRevMsg_eq {msgBuf pipe : Bytes} {receiveLen : Nat} (positive : 0 < receiveLen)
    (bound : receiveLen < 4096) (room : receiveLen ≤ msgBuf.length) (header : 8 ≤ msgBuf.length)
    (enough : receiveLen ≤ pipe.length)
    : fifoRevMsg msgBuf receiveLen pipe
      = .ok (receiveLen,
          pipe.take receiveLen ++ (leBytes 8 0xFFFF ++ msgBuf.drop 8).drop receiveLen,
          pipe.drop receiveLen) := by
  have len : int32 (receiveLen : Int) = receiveLen := int32_eq_self (by omega) (by omega)
  have length : (pipe.take receiveLen).length = receiveLen := List.length_take_of_le enough
  have preset : copyTo msgBuf 0 (leBytes 8 0xFFFF)
      = .ok (leBytes 8 0xFFFF ++ msgBuf.drop 8) := by
    rw [copyTo, length_leBytes, if_pos (by omega), List.take_zero, List.nil_append,
      Nat.zero_add]
  have read : readPipe pipe receiveLen
      = ((receiveLen : Int), pipe.take receiveLen, pipe.drop receiveLen) := by
    rw [readPipe, if_neg (by omega), Int.toNat_natCast, length]
  have stored : copyTo (leBytes 8 0xFFFF ++ msgBuf.drop 8) 0 (pipe.take receiveLen)
      = .ok (pipe.take receiveLen
          ++ (leBytes 8 0xFFFF ++ msgBuf.drop 8).drop receiveLen) := by
    rw [copyTo, if_pos (by simp; omega), List.take_zero, List.nil_append, length, Nat.zero_add]
  unfold fifoRevMsg
  rw [len]
  dsimp only
  rw [if_neg (by rw [pipeBuf]; omega), preset, Checked.ok_bind, read]
  dsimp only
  rw [stored, Checked.ok_bind, if_neg (by omega)]

/-- A message that is received with the bytes of its type counted is what was sent. -/
theorem fifoRevMsg_framed {msgBuf image : Bytes} {sendLen : Nat} (bound : sendLen + 8 < 4096)
    (length : image.length = sendLen + 8) (room : sendLen + 8 ≤ msgBuf.length) (rest : Bytes)
    : ∃ filled,
        fifoRevMsg msgBuf (sendLen + 8) (image ++ rest)
          = .ok ((sendLen + 8 : Nat), image ++ filled, rest) := by
  rw [fifoRevMsg_eq (by omega) bound room (by omega) (by simp [length])]
  exact ⟨_, by rw [← length, List.take_left, List.drop_left]⟩

/-- A stream of messages is received as it was sent if the type is counted, by induction over the
buffers.
-/
theorem receiveAll_framed {sendLen : Nat} (bound : sendLen + 8 < 4096)
    {msgBufs images : List Bytes} (sameLength : msgBufs.length = images.length)
    (room : ∀ msgBuf ∈ msgBufs, sendLen + 8 ≤ msgBuf.length)
    (length : ∀ image ∈ images, image.length = sendLen + 8)
    : ∃ received,
        receiveAll (sendLen + 8) msgBufs images.flatten = .ok received
        ∧ received.map (·.take (sendLen + 8)) = images := by
  induction msgBufs generalizing images with
  | nil =>
      cases images with
      | nil => exact ⟨[], rfl, rfl⟩
      | cons image images => cases sameLength
  | cons msgBuf msgBufs ih =>
      cases images with
      | nil => cases sameLength
      | cons image images =>
          simp only [List.forall_mem_cons] at room length
          obtain ⟨received, there, same⟩ := ih (Nat.succ.inj sameLength) room.2 length.2
          obtain ⟨filled, here⟩ := fifoRevMsg_framed bound length.1 room.1 images.flatten
          refine ⟨(image ++ filled) :: received, ?_, ?_⟩
          · rw [receiveAll, List.flatten_cons, here, Checked.ok_bind]
            dsimp only
            rw [there, Checked.ok_bind]
          · rw [List.map_cons, same, ← length.1, List.take_left]

/-- Messages keep their framing if the receiver counts the bytes of the type. -/
theorem delivers_header {sendLen : Nat} (bound : sendLen + 8 < 4096) {msgs : List MsgS}
    (enough : ∀ msg ∈ msgs, sendLen ≤ msg.mtext.length)
    : Delivers sendLen (sendLen + 8) msgs := by
  intro fifoName msgBufs sameLength room
  have length : ∀ image ∈ msgs.map fun msg => leBytes 8 msg.mtype.toNat ++ msg.mtext.take sendLen,
      image.length = sendLen + 8 := by
    intro image member
    obtain ⟨msg, sent, rfl⟩ := List.mem_map.mp member
    have here := enough msg sent
    rw [List.length_append, length_leBytes, List.length_take_of_le here, Nat.add_comm]
  obtain ⟨received, got, same⟩ :=
    receiveAll_framed bound (by simpa using sameLength) room length
  refine ⟨_, received, sendAll_eq bound enough fifoName [], ?_, same⟩
  rw [List.nil_append, List.flatMap_def]
  exact got

/-- A buffer of a given length whose last byte is not the given one. -/
theorem exists_stale (n : Nat) (c : UInt8)
    : ∃ msgBuf : Bytes, msgBuf.length = n + 1 ∧ msgBuf[n]? ≠ some c := by
  refine ⟨List.replicate (n + 1) (c + 1), List.length_replicate, ?_⟩
  simp

/-- Received under the length of its body, a message lacks its last byte: the buffer has there what
it had before.
-/
theorem fifoRevMsg_last {msgBuf pipe pipe' filled : Bytes} {bodyLen : Nat} {ret : Int}
    (positive : 1 ≤ bodyLen) (bound : bodyLen + 8 < 4096) (room : bodyLen + 8 ≤ msgBuf.length)
    (enough : bodyLen ≤ pipe.length)
    (received : fifoRevMsg msgBuf bodyLen pipe = .ok (ret, filled, pipe'))
    : filled[bodyLen + 7]? = msgBuf[bodyLen + 7]? := by
  rw [fifoRevMsg_eq (by omega) (by omega) (by omega) (by omega) enough] at received
  cases received
  have length : (pipe.take bodyLen).length = bodyLen := List.length_take_of_le enough
  rw [List.getElem?_append_right (by omega), length, List.getElem?_drop,
    List.getElem?_append_right (by simp; omega), length_leBytes, List.getElem?_drop]
  congr 1
  omega

/-- The last byte of a message that is sent is the last byte of its body. -/
theorem MsgS.sent_last (msg : MsgS) {bodyLen : Nat} (positive : 1 ≤ bodyLen)
    : (leBytes 8 msg.mtype.toNat ++ msg.mtext.take bodyLen)[bodyLen + 7]?
      = msg.mtext[bodyLen - 1]? := by
  rw [List.getElem?_append_right (by simp; omega), length_leBytes,
    List.getElem?_take_of_lt (by omega)]
  congr 1

/-- Messages are delivered under one and the same length exactly if there are none: what the
receiver takes for a message is eight bytes short.
-/
theorem delivers_iff {bodyLen : Nat} (positive : 1 ≤ bodyLen) (bound : bodyLen + 8 < 4096)
    {msgs : List MsgS} (enough : ∀ msg ∈ msgs, bodyLen ≤ msg.mtext.length)
    : Delivers bodyLen bodyLen msgs ↔ msgs = [] := by
  constructor
  · intro delivered
    cases msgs with
    | nil => rfl
    | cons msg msgs =>
        exfalso
        simp only [List.forall_mem_cons] at enough
        obtain ⟨c, found⟩ : ∃ c, msg.mtext[bodyLen - 1]? = some c :=
          ⟨_, List.getElem?_eq_getElem (by omega)⟩
        obtain ⟨stale, length, differs⟩ := exists_stale (bodyLen + 7) c
        obtain ⟨pipe, received, sent, got, same⟩ := delivered []
          (List.replicate (msg :: msgs).length stale) (by simp) (by simp [length])
        rw [sendAll_eq bound (by simpa using enough)] at sent
        cases sent
        simp only [List.length_cons, List.replicate_succ, receiveAll, Checked.bind_eq_ok] at got
        obtain ⟨⟨ret, filled, pipe'⟩, first, received', -, ⟨⟩⟩ := got
        have last := fifoRevMsg_last positive bound (by omega) (by simp; omega) first
        have head
            : filled.take (bodyLen + 8) = leBytes 8 msg.mtype.toNat ++ msg.mtext.take bodyLen :=
          (List.cons.inj same).1
        apply differs
        calc
          stale[bodyLen + 7]? = filled[bodyLen + 7]? := last.symm
          _ = (filled.take (bodyLen + 8))[bodyLen + 7]? :=
              (List.getElem?_take_of_lt (by omega)).symm
          _ = msg.mtext[bodyLen - 1]? := by rw [head, msg.sent_last positive]
          _ = some c := found
  · rintro rfl fifoName msgBufs none -
    rw [List.length_nil, List.length_eq_zero_iff] at none
    exact ⟨[], [], rfl, by rw [none, receiveAll], rfl⟩

/-- Witness: two messages with bodies of eight bytes, as `auth.c` sends them. -/
theorem not_delivers_two
    : ¬Delivers 8 8
        [⟨1, [1, 2, 3, 4, 5, 6, 7, 8]⟩, ⟨2, [11, 12, 13, 14, 15, 16, 17, 18]⟩] := by
  intro delivered
  have none := (delivers_iff (by decide) (by decide) (by decide)).mp delivered
  cases none

/-- Of one such message, received into a buffer of zeros, only the type arrives. -/
theorem not_delivers_one : ¬Delivers 8 8 [⟨1, [1, 2, 3, 4, 5, 6, 7, 8]⟩] := by
  intro delivered
  obtain ⟨pipe, received, sent, got, same⟩ :=
    delivered [] [List.replicate 16 0] rfl (by decide)
  rw [sendAll_eq (by decide) (by decide)] at sent
  cases sent
  have arrived : receiveAll 8 [List.replicate 16 0]
        ([] ++ [1, 0, 0, 0, 0, 0, 0, 0, 1, 2, 3, 4, 5, 6, 7, 8])
      = .ok [[1, 0, 0, 0, 0, 0, 0, 0, 0, 0, 0, 0, 0, 0, 0, 0]] := rfl
  cases arrived.symm.trans got
  revert same
  decide

end Cvos.Utils

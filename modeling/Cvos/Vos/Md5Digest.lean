import Cvos.Vos.Md5

/-! The digest of `vos.c` is MD5: the steps that are written out are those of the loop over the
tables, and however the message is cut into updates, the context holds what has been absorbed and
the rest.
-/

namespace Cvos.Vos

open Cvos.Lib Md5

section Transform

/-- The function of the first round selects by its first argument. -/
theorem mix_zero : mix 0 = f1 := by
  funext x y z
  apply UInt32.toBitVec_inj.mp
  refine BitVec.eq_of_getLsbD_eq fun i _ => ?_
  simp only [mix, f1, UInt32.toBitVec_or, UInt32.toBitVec_and, UInt32.toBitVec_xor,
    UInt32.toBitVec_not, BitVec.getLsbD_or, BitVec.getLsbD_and, BitVec.getLsbD_xor,
    BitVec.getLsbD_not]
  cases x.toBitVec.getLsbD i <;> cases y.toBitVec.getLsbD i <;> simp_all

/-- The function of the second round selects by its last argument. -/
theorem mix_one : mix 1 = f2 := by
  funext x y z
  apply UInt32.toBitVec_inj.mp
  refine BitVec.eq_of_getLsbD_eq fun i _ => ?_
  simp only [mix, f1, f2, UInt32.toBitVec_or, UInt32.toBitVec_and, UInt32.toBitVec_xor,
    UInt32.toBitVec_not, BitVec.getLsbD_or, BitVec.getLsbD_and, BitVec.getLsbD_xor,
    BitVec.getLsbD_not]
  cases x.toBitVec.getLsbD i <;> cases y.toBitVec.getLsbD i <;> cases z.toBitVec.getLsbD i <;>
    simp_all

/-- The function of the third round. -/
theorem mix_two : mix 2 = f3 := rfl

/-- The function of the fourth round. -/
theorem mix_three : mix 3 = f4 := rfl

/-- The variables after one of four steps, in the order of the loop. -/
def turned1 (v : State) : State := ⟨v.d, v.a, v.b, v.c⟩

/-- The variables after two of four steps. -/
def turned2 (v : State) : State := ⟨v.c, v.d, v.a, v.b⟩

/-- The variables after three of four steps. -/
def turned3 (v : State) : State := ⟨v.b, v.c, v.d, v.a⟩

variable (f : UInt32 → UInt32 → UInt32 → UInt32) (word constant s : UInt32) (v : State)

/-- What a step computes. -/
theorem md5Step_eq (w x y z : UInt32)
    : md5Step f w x y z (word + constant) s = x + rotate (w + f x y z + word + constant) s := by
  rw [md5Step, UInt32.add_comm x, rotate]
  simp only [UInt32.add_assoc]

/-- A step on the first variable turns the variables. -/
theorem stepA_eq : turned1 (stepA f (word + constant) s v) = turn f word constant s v := by
  simp only [turned1, stepA, turn, md5Step_eq]

/-- A step on the last variable turns them further. -/
theorem stepD_eq
    : turned2 (stepD f (word + constant) s v) = turn f word constant s (turned1 v) := by
  simp only [turned1, turned2, stepD, turn, md5Step_eq]

/-- A step on the third variable turns them further. -/
theorem stepC_eq
    : turned3 (stepC f (word + constant) s v) = turn f word constant s (turned2 v) := by
  simp only [turned2, turned3, stepC, turn, md5Step_eq]

/-- A step on the second variable turns them back. -/
theorem stepB_eq : stepB f (word + constant) s v = turn f word constant s (turned3 v) := by
  simp only [turned3, stepB, turn, md5Step_eq]

variable (input : Nat → UInt32)

/-- The first round. -/
theorem transform1_eq : transform1 input v = (List.range' 0 16).foldl (step input) v := by
  simp only [transform1, stepA_eq, stepB_eq, stepC_eq, stepD_eq, ← mix_zero]
  rfl

/-- The second round. -/
theorem transform2_eq : transform2 input v = (List.range' 16 16).foldl (step input) v := by
  simp only [transform2, stepA_eq, stepB_eq, stepC_eq, stepD_eq, ← mix_one]
  rfl

/-- The third round. -/
theorem transform3_eq : transform3 input v = (List.range' 32 16).foldl (step input) v := by
  simp only [transform3, stepA_eq, stepB_eq, stepC_eq, stepD_eq, ← mix_two]
  rfl

/-- The fourth round. -/
theorem transform4_eq : transform4 input v = (List.range' 48 16).foldl (step input) v := by
  simp only [transform4, stepA_eq, stepB_eq, stepC_eq, stepD_eq, ← mix_three]
  rfl

/-- The steps that are written out are those of the loop. -/
theorem md5Transform_eq : md5Transform v input = compressWords input v := by
  have rounds
      : List.range 64
        = List.range' 0 16 ++ (List.range' 16 16 ++ (List.range' 32 16 ++ List.range' 48 16)) :=
    rfl
  rw [compressWords, rounds, List.foldl_append, List.foldl_append, List.foldl_append,
    ← transform1_eq, ← transform2_eq, ← transform3_eq, ← transform4_eq]
  rfl

end Transform

section Updates

/-- The number of bytes in the block. -/
theorem offset_eq (n : Nat) : (UInt64.ofNat n &&& 0x3f).toNat = n % 64 := by
  have mask : (0x3f : UInt64).toNat = 2 ^ 6 - 1 := rfl
  rw [UInt64.toNat_and, mask, Nat.and_two_pow_sub_one_eq_mod, UInt64.toNat_ofNat']
  exact Nat.mod_mod_of_dvd _ (by decide)

/-- Bytes are copied over others of the block. -/
theorem copyBlock_eq (hash : State) (count : UInt64) (front spare before rest : Bytes)
    {old bytes : Bytes} (length : bytes.length = old.length)
    : copyBlock ⟨hash, front ++ (old ++ spare), count⟩ front.length (before ++ (bytes ++ rest))
        before.length bytes.length
      = .ok ⟨hash, front ++ (bytes ++ spare), count⟩ := by
  rw [copyBlock, copyFrom_append, Checked.ok_bind, copyTo_append _ _ _ length]
  rfl

/-- The context after a block. -/
theorem md5TransformHelper_eq (hash : State) (block : Bytes) (count : UInt64)
    : md5TransformHelper ⟨hash, block, count⟩ = ⟨compress hash block, block, count⟩ := by
  rw [md5TransformHelper, md5Transform_eq]
  rfl

/-- The full blocks of the data are absorbed, and the rest is kept. -/
theorem md5Blocks_eq {fuel : Nat} (hash : State) {block : Bytes} (size : block.length = 64)
    (count : UInt64) (before bytes rest : Bytes) (enough : bytes.length < fuel)
    : ∃ spare,
        md5Blocks (before ++ (bytes ++ rest)) fuel ⟨hash, block, count⟩ before.length bytes.length
          = .ok ⟨absorb compress 64 hash bytes, residue 64 bytes ++ spare, count⟩
        ∧ (residue 64 bytes ++ spare).length = 64 := by
  induction fuel generalizing hash block before bytes with
  | zero => exact absurd enough (Nat.not_lt_zero _)
  | succ fuel ih =>
      by_cases full : 64 ≤ bytes.length
      · obtain ⟨next, more, rfl, length⟩ : ∃ next more, bytes = next ++ more ∧ next.length = 64 :=
          ⟨bytes.take 64, bytes.drop 64, (List.take_append_drop _ _).symm,
            List.length_take_of_le full⟩
        have copied := @copyBlock_eq hash count [] [] before (more ++ rest) block next
          (length.trans size.symm)
        rw [length, List.nil_append, List.append_nil, List.nil_append, List.append_nil] at copied
        have further := ih (compress hash next) length (before ++ next) more
          (by rw [List.length_append] at enough; omega)
        rw [List.append_assoc, List.length_append, length] at further
        rw [absorb_block compress length (by decide), residue_block length (by decide), md5Blocks,
          if_pos full, List.append_assoc, List.length_append, length, Nat.add_sub_cancel_left]
        obtain ⟨spare, rest, whole⟩ := further
        refine ⟨spare, ?_, whole⟩
        refine Checked.bind_eq_ok.mpr ⟨_, copied, ?_⟩
        rw [md5TransformHelper_eq]
        exact rest
      · have short : bytes.length < 64 := Nat.lt_of_not_le full
        have cut : block = block.take bytes.length ++ block.drop bytes.length :=
          (List.take_append_drop _ _).symm
        have copied := copyBlock_eq hash count [] (block.drop bytes.length) before rest
          (show bytes.length = (block.take bytes.length).length by rw [List.length_take]; omega)
        rw [← cut] at copied
        refine ⟨block.drop bytes.length, ?_, ?_⟩
        · rw [absorb_short compress short, residue_short short, md5Blocks, if_neg full]
          exact copied
        · rw [residue_short short, List.length_append, List.length_drop]
          omega

/-- The context after a message has been given to it. -/
structure Tracks (mctx : MD5CTX) (message : Bytes) : Prop where
  hash : mctx.hash = absorb compress 64 initial message
  part : ∃ spare, mctx.block = residue 64 message ++ spare
  size : mctx.block.length = 64
  count : mctx.byteCount = UInt64.ofNat message.length

/-- An update gives the context more of the message. -/
theorem md5Update_tracks {mctx : MD5CTX} {message : Bytes} (tracks : Tracks mctx message)
    (before data rest : Bytes)
    : ∃ mctx',
        md5Update mctx (before ++ (data ++ rest)) before.length data.length = .ok mctx'
        ∧ Tracks mctx' (message ++ data) := by
  obtain ⟨hash, block, count⟩ := mctx
  obtain ⟨same, ⟨spare, split⟩, size, counted⟩ := tracks
  simp only at same split size counted
  subst same split counted
  have kept := length_residue 64 message
  have below := Nat.mod_lt message.length (show 0 < 64 by decide)
  have room : spare.length = 64 - message.length % 64 := by
    rw [List.length_append] at size
    omega
  have offset : 64 - (64 - message.length % 64) = (residue 64 message).length := by omega
  obtain ⟨absorbed, left⟩ := absorb_append compress (show 0 < 64 by decide) initial message data
  rw [md5Update, offset_eq]
  simp only [offset, ← UInt64.ofNat_add, ← List.length_append]
  by_cases short : 64 - message.length % 64 > data.length
  · have less : (residue 64 message ++ data).length < 64 := by
      rw [List.length_append]
      omega
    have copied := copyBlock_eq (absorb compress 64 initial message)
      (UInt64.ofNat (message ++ data).length) (residue 64 message) (spare.drop data.length) before
      rest (show data.length = (spare.take data.length).length by rw [List.length_take]; omega)
    rw [List.take_append_drop] at copied
    rw [if_pos short, copied]
    refine ⟨_, rfl, ?_, ⟨spare.drop data.length, ?_⟩, ?_, rfl⟩
    · rw [absorbed, absorb_short compress less]
    · rw [left, residue_short less, List.append_assoc]
    · simp
      omega
  · obtain ⟨front, more, rfl, length⟩
        : ∃ front more, data = front ++ more ∧ front.length = 64 - message.length % 64 :=
      ⟨data.take _, data.drop _, (List.take_append_drop _ _).symm,
        List.length_take_of_le (Nat.le_of_not_lt short)⟩
    have full : (residue 64 message ++ front).length = 64 := by
      rw [List.length_append]
      omega
    have copied := copyBlock_eq (absorb compress 64 initial message)
      (UInt64.ofNat (message ++ (front ++ more)).length) (residue 64 message) [] before
      (more ++ rest) (length.trans room.symm)
    rw [List.append_nil, List.append_nil, length] at copied
    rw [← List.append_assoc (residue 64 message), absorb_block compress full (by decide)]
      at absorbed
    rw [← List.append_assoc (residue 64 message), residue_block full (by decide)] at left
    obtain ⟨spare', blocks, whole⟩ := md5Blocks_eq
      (compress (absorb compress 64 initial message) (residue 64 message ++ front)) full
      (UInt64.ofNat (message ++ (front ++ more)).length) (before ++ front) more rest
      (show more.length < (front ++ more).length + 1 by rw [List.length_append]; omega)
    have place : (before ++ front).length = before.length + (64 - message.length % 64) := by
      rw [List.length_append, length]
    rw [List.append_assoc, place] at blocks
    refine ⟨⟨absorb compress 64 initial (message ++ (front ++ more)), residue 64 more ++ spare', _⟩,
      ?_, rfl, ⟨spare', by rw [left]⟩, whole, rfl⟩
    rw [if_neg short, List.append_assoc front more rest]
    refine Checked.bind_eq_ok.mpr ⟨_, copied, ?_⟩
    rw [md5TransformHelper_eq, absorbed]
    have behind : (front ++ more).length - (64 - message.length % 64) = more.length := by
      rw [List.length_append, length, Nat.add_sub_cancel_left]
    rw [behind]
    exact blocks

/-- An update of an `int` length is the same, as long as the length is one. -/
theorem md5UpdateInt_tracks {mctx : MD5CTX} {message : Bytes} (tracks : Tracks mctx message)
    (before data rest : Bytes) (short : data.length < 2 ^ 31)
    : ∃ mctx',
        md5UpdateInt mctx (before ++ (data ++ rest)) before.length (int32 data.length) = .ok mctx'
        ∧ Tracks mctx' (message ++ data) := by
  obtain ⟨mctx', updated, tracks'⟩ := md5Update_tracks tracks before data rest
  have length : int32 data.length = data.length := int32_eq_self (by omega) (by omega)
  have counted : mctx'.byteCount = mctx.byteCount + UInt64.ofInt data.length := by
    have same : UInt64.ofInt data.length = UInt64.ofNat data.length := by
      have kept : ((data.length : Int) % 2 ^ 64).toNat = data.length := by omega
      rw [UInt64.ofInt, kept]
    rw [tracks'.count, tracks.count, List.length_append, UInt64.ofNat_add, same]
  refine ⟨mctx', ?_, tracks'⟩
  rw [md5UpdateInt, uint32_int32, uint32_eq_self (by omega), updated, Checked.ok_bind, length,
    ← counted]

/-- The end of the padding is the number of bits of the message. -/
theorem length_bits (n : Nat)
    : leBytes 4 (UInt64.ofNat n <<< 3).toUInt32.toNat
        ++ leBytes 4 (UInt64.ofNat n >>> 29).toUInt32.toNat
      = leBytes 8 (8 * n) := by
  have low : (UInt64.ofNat n <<< 3).toUInt32.toNat % 256 ^ 4 = 8 * n % 256 ^ 4 := by
    rw [UInt64.toNat_toUInt32, UInt64.toNat_shiftLeft, UInt64.toNat_ofNat', Nat.shiftLeft_eq]
    simp only [show (3 : UInt64).toNat = 3 from rfl, Nat.reduceMod, Nat.reducePow]
    omega
  have high : (UInt64.ofNat n >>> 29).toUInt32.toNat % 256 ^ 4 = 8 * n / 256 ^ 4 % 256 ^ 4 := by
    rw [UInt64.toNat_toUInt32, UInt64.toNat_shiftRight, UInt64.toNat_ofNat',
      Nat.shiftRight_eq_div_pow]
    simp only [show (29 : UInt64).toNat = 29 from rfl, Nat.reduceMod, Nat.reducePow]
    omega
  rw [← leBytes_mod 4 (UInt64.ofNat n <<< 3).toUInt32.toNat,
    ← leBytes_mod 4 (UInt64.ofNat n >>> 29).toUInt32.toNat, low, high, leBytes_mod, leBytes_mod,
    ← leBytes_append]

/-- The zeros and the number of bits are written at the end of the last block. -/
theorem finish_eq (front old last : Bytes) (filled : front.length + old.length = 56)
    (size : last.length = 8) {low high : Bytes} (lowSize : low.length = 4)
    (highSize : high.length = 4)
    : ∃ block block',
        copyTo (front ++ (old ++ last)) front.length (List.replicate old.length 0) = .ok block
        ∧ copyTo block 56 low = .ok block'
        ∧ copyTo block' 60 high
          = .ok (front ++ (List.replicate old.length 0 ++ (low ++ high))) := by
  have zeros := copyTo_append front old last
    (show (List.replicate old.length 0).length = old.length from List.length_replicate)
  have first := copyTo_append (front ++ List.replicate old.length 0) (last.take 4) (last.drop 4)
    (show low.length = (last.take 4).length by simp [size, lowSize])
  have second := copyTo_append (front ++ List.replicate old.length 0 ++ low) (last.drop 4) []
    (show high.length = (last.drop 4).length by simp [size, highSize])
  have place : (front ++ List.replicate old.length 0).length = 56 := by simp [filled]
  have place' : (front ++ List.replicate old.length 0 ++ low).length = 60 := by
    simp [filled, lowSize, ← Nat.add_assoc]
  rw [place, List.take_append_drop, List.append_assoc] at first
  rw [place', List.append_nil, List.append_nil] at second
  exact ⟨_, _, zeros, first, by simpa using second⟩

/-- The last block is padded, and absorbed. -/
theorem md5Final_eq {mctx : MD5CTX} {message : Bytes} (tracks : Tracks mctx message)
    : md5Final mctx = .ok (digest message, ⟨⟨0, 0, 0, 0⟩, List.replicate 64 0, 0⟩) := by
  obtain ⟨hash, block, count⟩ := mctx
  obtain ⟨same, ⟨spare, split⟩, size, counted⟩ := tracks
  simp only at same split size counted
  subst same split counted
  have kept := length_residue 64 message
  have below := Nat.mod_lt message.length (show 0 < 64 by decide)
  have room : spare.length = 64 - message.length % 64 := by
    rw [List.length_append] at size
    omega
  obtain ⟨x, spare, rfl⟩ := List.exists_cons_of_length_pos (show 0 < spare.length by omega)
  rw [List.length_cons] at room
  have offset := offset_eq message.length
  have lowSize := length_leBytes 4 (UInt64.ofNat message.length <<< 3).toUInt32.toNat
  have highSize := length_leBytes 4 (UInt64.ofNat message.length >>> 29).toUInt32.toNat
  have absorbOne (state : State) {block : Bytes} (full : block.length = 64)
      : absorb compress 64 state block = compress state block := by
    have one := absorb_block compress full (show 0 < 64 by decide) state []
    have nothing := @absorb_short _ compress 64 [] (by decide) (compress state block)
    rwa [List.append_nil, nothing] at one
  have bitSize := length_leBytes 8 (8 * message.length)
  rw [md5Final, digest, pad,
    (absorb_append compress (show 0 < 64 by decide) initial message _).1]
  generalize message.length % 64 = used at kept below room offset
  have marked : store (residue 64 message ++ x :: spare) used 0x80
      = .ok (residue 64 message ++ 0x80 :: spare) := by
    rw [← kept, store_append_cons]
  simp only [offset, marked, Checked.ok_bind, md5Padding]
  by_cases fits : used ≤ 55
  · -- The length fits behind the marker.
    have old : (spare.take (55 - used)).length = 55 - used := List.length_take_of_le (by omega)
    obtain ⟨block, block', zeros, first, second⟩ :=
      finish_eq (residue 64 message ++ [0x80]) (spare.take (55 - used)) (spare.drop (55 - used))
        (by rw [List.length_append, kept, old, List.length_singleton]; omega)
        (by rw [List.length_drop]; omega) lowSize highSize
    have place : (residue 64 message ++ [0x80]).length = used + 1 := by simp [kept]
    have count : (56 - ((used : Int) + 1)).toNat = 55 - used := by omega
    have count' : (119 - used) % 64 = 55 - used := by omega
    have full
        : (residue 64 message
            ++ 0x80 :: (List.replicate (55 - used) 0 ++ leBytes 8 (8 * message.length))).length
          = 64 := by
      simp [kept, bitSize]
      omega
    rw [List.take_append_drop, place, old, List.append_assoc, List.singleton_append] at zeros
    rw [old, List.append_assoc, List.singleton_append, length_bits] at second
    rw [if_neg (by omega)]
    simp only [Checked.ok_bind, count, count', absorbOne _ full, zeros, first, second,
      md5Transform_eq]
    rfl
  · -- The length goes into a block of its own.
    obtain ⟨block, block', zeros, first, second⟩ :=
      finish_eq [] ((residue 64 message ++ 0x80 :: List.replicate (63 - used) 0).take 56)
        ((residue 64 message ++ 0x80 :: List.replicate (63 - used) 0).drop 56)
        (by simp [kept]; omega) (by simp [kept]; omega) lowSize highSize
    have filled : copyTo (residue 64 message ++ 0x80 :: spare) (used + 1)
        (List.replicate (63 - used) 0)
          = .ok (residue 64 message ++ 0x80 :: List.replicate (63 - used) 0) := by
      have copied := copyTo_append (residue 64 message ++ [0x80]) spare []
        (show (List.replicate (63 - used) (0 : UInt8)).length = spare.length by
          rw [List.length_replicate]; omega)
      simpa [kept] using copied
    have count : (56 - ((used : Int) + 1) + 8).toNat = 63 - used := by omega
    have parts : (119 - used) % 64 = (63 - used) + 56 := by omega
    have split
        : residue 64 message
            ++ 0x80 :: (List.replicate ((63 - used) + 56) 0 ++ leBytes 8 (8 * message.length))
          = (residue 64 message ++ 0x80 :: List.replicate (63 - used) 0)
            ++ (List.replicate 56 0 ++ leBytes 8 (8 * message.length)) := by
      rw [List.replicate_add]
      simp
    have full : (residue 64 message ++ 0x80 :: List.replicate (63 - used) 0).length = 64 := by
      simp [kept]
      omega
    have full' : (List.replicate 56 0 ++ leBytes 8 (8 * message.length)).length = 64 := by
      simp [bitSize]
    have old : ((residue 64 message ++ 0x80 :: List.replicate (63 - used) 0).take 56).length = 56 :=
      List.length_take_of_le (by omega)
    rw [List.nil_append, List.take_append_drop, old, List.length_nil] at zeros
    rw [old, List.nil_append, length_bits] at second
    rw [if_pos (by omega), parts, split, absorb_block compress full (by decide), absorbOne _ full']
    simp only [count, filled, Checked.ok_bind, md5TransformHelper_eq,
      show (56 : Int).toNat = 56 from rfl, zeros, first, second, Checked.ok_bind, md5Transform_eq]
    rfl

/-- A message that is given to the context in any parts has its digest, whatever the context held
before.
-/
theorem md5_eq {ctx : MD5CTX} (size : ctx.block.length = 64) (parts : List Bytes)
    : (parts.foldlM (fun mctx data => md5Update mctx data 0 data.length) (md5Init ctx)
        >>= md5Final)
      = .ok (digest parts.flatten, ⟨⟨0, 0, 0, 0⟩, List.replicate 64 0, 0⟩) := by
  have updates {mctx : MD5CTX} {message : Bytes} (tracks : Tracks mctx message)
      : ∃ mctx',
          parts.foldlM (fun mctx data => md5Update mctx data 0 data.length) mctx = .ok mctx'
          ∧ Tracks mctx' (message ++ parts.flatten) := by
    induction parts generalizing mctx message with
    | nil => exact ⟨mctx, rfl, by simpa using tracks⟩
    | cons data parts ih =>
        obtain ⟨mctx', updated, tracks⟩ := md5Update_tracks tracks [] data []
        obtain ⟨mctx'', rest, tracks⟩ := ih tracks
        rw [List.append_assoc] at tracks
        rw [List.nil_append, List.append_nil, List.length_nil] at updated
        refine ⟨mctx'', ?_, by simpa using tracks⟩
        rw [List.foldlM_cons, updated]
        exact rest
  have start : Tracks (md5Init ctx) [] := ⟨rfl, ⟨ctx.block, rfl⟩, size, rfl⟩
  obtain ⟨mctx, updated, tracks⟩ := updates start
  rw [updated, Checked.ok_bind, md5Final_eq tracks, List.nil_append]

/-- A message in two parts, in a context that has been used before. -/
theorem md5_two_parts
    : ([[0x61], [0x62, 0x63]].foldlM (fun mctx data => md5Update mctx data 0 data.length)
          (md5Init ⟨⟨1, 2, 3, 4⟩, List.replicate 64 5, 6⟩)
        >>= md5Final)
      = .ok (digest [0x61, 0x62, 0x63], ⟨⟨0, 0, 0, 0⟩, List.replicate 64 0, 0⟩) :=
  @md5_eq ⟨⟨1, 2, 3, 4⟩, List.replicate 64 5, 6⟩ rfl [[0x61], [0x62, 0x63]]

end Updates

end Cvos.Vos

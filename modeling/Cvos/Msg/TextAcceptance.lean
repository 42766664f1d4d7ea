import Cvos.Msg.TextFrame

/-! Which strings `MSG_UnPackMsg` accepts. It takes the length of the body from the length of the
string before it knows that the string is long enough, and it does not look at the tail.
-/

namespace Cvos.Msg

open Cvos.Lib

/-- The string starts with the two at signs of a frame. -/
def Headed (text : Bytes) : Prop := text.take 2 = ['@'.toUInt8, '@'.toUInt8]

/-- The third byte of a string, which is its NUL when it is that short. -/
def versionOf (text : Bytes) : UInt8 := text.getD 2 0

/-- The bytes of a frame besides its body. -/
def overhead (ver : UInt8) : Nat := if ver = '2'.toUInt8 then 7 else 5

/-- What the length of a string leaves for the body of a frame, modulo `2 ^ 32`. -/
def bodySize (text : Bytes) : Nat := uint32 (text.length - overhead (versionOf text))

/-- The size of the body is an `int`, and so are the places of the checksum behind it. -/
def Sized (text : Bytes) : Prop :=
  if versionOf text = '2'.toUInt8 then bodySize text + 4 < 2 ^ 31 else bodySize text < 2 ^ 31

/-- The bytes that stand where the body of a frame does. -/
def bodyOf (text : Bytes) : Bytes := (text.drop 3).take (bodySize text)

/-- For version `2`, the two bytes behind the body are its checksum. -/
def Summed (text : Bytes) : Prop :=
  versionOf text = '2'.toUInt8
  → checksum (bodyOf text)
    = joinBytes (text.getD (bodySize text + 3) 0) (text.getD (bodySize text + 4) 0)

instance (text : Bytes) : Decidable (Headed text) :=
  inferInstanceAs (Decidable (text.take 2 = ['@'.toUInt8, '@'.toUInt8]))

instance (text : Bytes) : Decidable (Sized text) :=
  inferInstanceAs (Decidable (if versionOf text = '2'.toUInt8 then bodySize text + 4 < 2 ^ 31
    else bodySize text < 2 ^ 31))

instance (text : Bytes) : Decidable (Summed text) :=
  inferInstanceAs (Decidable (versionOf text = '2'.toUInt8
    → checksum (bodyOf text)
      = joinBytes (text.getD (bodySize text + 3) 0) (text.getD (bodySize text + 4) 0)))

/-- Unpacking a string returns an error, or the number of bytes of a body that stands in the string,
and looks at no byte that is not in the string.
-/
def UnpacksSafely (text : Bytes) : Prop :=
  ∃ ret out,
    msgUnPackMsg true true (some (text ++ [0])) = .ok (ret, out)
    ∧ (ret < 0
      ∨ ∃ protocol body,
          out = some (protocol, body) ∧ ret = body.length ∧ body.IsPrefix (text.drop 3))

-----------------------------------------------------------------------------------------
-- The size of the body
-----------------------------------------------------------------------------------------

/-- The string is not shorter than a frame with its body. -/
theorem le_of_bodySize {text : Bytes} (small : bodySize text < 2 ^ 31)
    : bodySize text + overhead (versionOf text) ≤ text.length := by
  have few : overhead (versionOf text) ≤ 7 := by
    rw [overhead]
    split <;> simp
  rw [bodySize, uint32] at small ⊢
  omega

/-- The body of a string up to that length has all bytes besides the others of the frame. -/
theorem bodySize_eq {text : Bytes} (short : text.length ≤ 2 ^ 31)
    (long : overhead (versionOf text) ≤ text.length)
    : bodySize text + overhead (versionOf text) = text.length := by
  rw [bodySize, uint32]
  omega

theorem Sized.small {text : Bytes} (sized : Sized text) : bodySize text < 2 ^ 31 := by
  rw [Sized] at sized
  split at sized <;> omega

/-- A string that starts a frame and is long enough, in its parts. -/
theorem exists_parts {text : Bytes} (headed : Headed text) (small : bodySize text < 2 ^ 31)
    : ∃ behind,
        text = ['@'.toUInt8, '@'.toUInt8, versionOf text] ++ (bodyOf text ++ behind)
        ∧ (bodyOf text).length = bodySize text
        ∧ behind.length + 3 + bodySize text = text.length
        ∧ overhead (versionOf text) ≤ behind.length + 3 := by
  have long := le_of_bodySize small
  have least : 5 ≤ overhead (versionOf text) := by
    rw [overhead]
    split <;> simp
  refine ⟨(text.drop 3).drop (bodySize text), ?_, ?_, ?_, ?_⟩
  · rw [bodyOf, List.take_append_drop]
    rcases text with _ | ⟨a, _ | ⟨b, _ | ⟨c, rest⟩⟩⟩
    case cons.cons.cons =>
      obtain ⟨rfl, rfl⟩ : a = '@'.toUInt8 ∧ b = '@'.toUInt8 := by simpa [Headed] using headed
      rfl
    all_goals
      simp only [List.length_cons, List.length_nil] at long
      omega
  · rw [bodyOf, List.length_take, List.length_drop]
    omega
  · rw [List.length_drop, List.length_drop]
    omega
  · rw [List.length_drop, List.length_drop]
    omega

-----------------------------------------------------------------------------------------
-- What unpacking does
-----------------------------------------------------------------------------------------

/-- Whether a string starts a frame. -/
theorem startsFrame_eq (text : Bytes)
    : startsFrame (text ++ [0]) = .ok (decide (Headed text)) := by
  rcases text with _ | ⟨a, _ | ⟨b, rest⟩⟩
  · rfl
  · by_cases first : a = '@'.toUInt8
    · simp [startsFrame, load, Headed, first]
      decide
    · simp [startsFrame, load, Headed, first]
  · by_cases first : a = '@'.toUInt8
    · by_cases second : b = '@'.toUInt8
      · simp [startsFrame, load, Headed, first, second]
      · simp [startsFrame, load, Headed, first, second]
    · simp [startsFrame, load, Headed, first]

/-- The version of a string that starts a frame. -/
theorem load_version {text : Bytes} (headed : Headed text)
    : load (text ++ [0]) 2 = .ok (versionOf text) := by
  rcases text with _ | ⟨a, _ | ⟨b, _ | ⟨c, rest⟩⟩⟩
  · simp [Headed] at headed
  · simp [Headed] at headed
  · rfl
  · rfl

section Unpacking

variable {text : Bytes} (nulFree : ∀ c ∈ text, c ≠ 0)

/-- A string that does not start a frame is refused. -/
theorem msgUnPackMsg_unheaded (unheaded : ¬Headed text)
    : msgUnPackMsg true true (some (text ++ [0])) = .ok (-2, none) := by
  simp [msgUnPackMsg, startsFrame_eq, unheaded]

include nulFree in
/-- Unpacking a string that starts a frame and is long enough delivers what stands where the body
does, unless its checksum is wrong.
-/
theorem msgUnPackMsg_sized (headed : Headed text) (sized : Sized text)
    : msgUnPackMsg true true (some (text ++ [0]))
      = if Summed text then .ok (bodySize text, some (versionOf text, bodyOf text))
        else .ok (-3, none) := by
  have small := sized.small
  obtain ⟨behind, parts, length, count, least⟩ := exists_parts headed small
  have size := strlen_append nulFree []
  have version := load_version headed
  have len (k : Nat) (same : overhead (versionOf text) = k)
      : int32 (text.length - k) = bodySize text := by
    rw [bodySize, same] at small ⊢
    exact int32_eq_uint32 small
  have summed
      : Summed text
        ↔ (versionOf text = '2'.toUInt8
          → checksum (bodyOf text)
            = joinBytes (text.getD (bodySize text + 3) 0) (text.getD (bodySize text + 4) 0)) :=
    Iff.rfl
  have block
      : text ++ [0]
        = ['@'.toUInt8, '@'.toUInt8, versionOf text] ++ (bodyOf text ++ (behind ++ [0])) := by
    conv_lhs => rw [parts]
    simp
  have copied
      : deliverMsg (text ++ [0]) (versionOf text) (bodySize text)
        = .ok (bodySize text, some (versionOf text, bodyOf text)) := by
    have visible : ∀ c ∈ bodyOf text, c ≠ 0 := fun c member =>
      nulFree c (List.mem_of_mem_drop (List.mem_of_mem_take member))
    have rest : (text ++ [0]).drop 3 = bodyOf text ++ (behind ++ [0]) := by rw [block]; rfl
    rw [deliverMsg, if_neg (by omega), rest, Int.toNat_natCast, ← length, strncpy_append visible]
    rfl
  rw [msgUnPackMsg]
  simp only [Bool.not_true, Bool.or_false, Bool.false_eq_true, if_false, startsFrame_eq, headed,
    decide_true, version, size, Checked.ok_bind, summed]
  by_cases crc : versionOf text = '2'.toUInt8
  · have seven : overhead (versionOf text) = 7 := by rw [overhead, if_pos crc]
    have places : bodySize text + 4 < 2 ^ 31 := by rwa [Sized, if_pos crc] at sized
    obtain ⟨high, low, more, rfl⟩ : ∃ high low more, behind = high :: low :: more := by
      rcases behind with _ | ⟨high, _ | ⟨low, more⟩⟩
      case cons.cons => exact ⟨high, low, more, rfl⟩
      all_goals
        simp only [List.length_cons, List.length_nil] at least
        omega
    have sum : sumCRC16 (text ++ [0]) 3 (bodySize text) = .ok (checksum (bodyOf text)) := by
      rw [← length, block]
      exact sumCRC16_append ['@'.toUInt8, '@'.toUInt8, versionOf text] (bodyOf text) _ (by omega)
    have byte (i : Nat) (inside : i < text.length) (bound : i < 2 ^ 31) {z : Int} (index : z = i)
        : loadAt (text ++ [0]) (int32 z) = .ok (text.getD i 0) := by
      rw [index, int32_eq_self (by omega) (by omega), loadAt_natCast, load,
        List.getElem?_append_left inside]
      simp [inside]
    have len : int32 (text.length - 7) = bodySize text := len 7 seven
    simp only [List.length_cons] at count
    rw [if_pos crc, len, uint32_eq_self (by omega), sum, Checked.ok_bind,
      byte (bodySize text + 3) (by omega) (by omega) (by omega), Checked.ok_bind,
      byte (bodySize text + 4) (by omega) (by omega) (by omega), Checked.ok_bind, copied]
    by_cases right
      : checksum (bodyOf text)
        = joinBytes (text.getD (bodySize text + 3) 0) (text.getD (bodySize text + 4) 0)
    · rw [if_neg (not_not.mpr right), if_pos fun _ => right]
    · rw [if_pos right, if_neg fun summed => right (summed crc)]
  · have five : overhead (versionOf text) = 5 := by rw [overhead, if_neg crc]
    have len : int32 (text.length - 5) = bodySize text := len 5 five
    rw [if_neg crc, len, copied, if_pos fun two => absurd two crc]

include nulFree in
/-- Unpacking a string that starts a frame goes wrong unless the size of the body is an `int`, as
are the places of the checksum.
-/
theorem sized_of_msgUnPackMsg (headed : Headed text) {result : Int × Option (UInt8 × Bytes)}
    (unpacked : msgUnPackMsg true true (some (text ++ [0])) = .ok result)
    : Sized text := by
  have size := strlen_append nulFree []
  rw [msgUnPackMsg] at unpacked
  simp only [Bool.not_true, Bool.or_false, Bool.false_eq_true, if_false, startsFrame_eq, headed,
    decide_true, load_version headed, size, Checked.ok_bind] at unpacked
  rw [Sized]
  split at unpacked
  next crc =>
    simp only [Checked.bind_eq_ok, uint32_int32] at unpacked
    obtain ⟨sum, summed, high, -, low, read, -⟩ := unpacked
    have count := le_of_sumCRC16 summed (by decide)
    have place := nonneg_of_loadAt read
    rw [if_pos crc, bodySize, overhead, if_pos crc]
    rw [uint32] at count ⊢
    rw [int32, int32, Int.bmod_def, Int.bmod_def] at place
    omega
  next other =>
    rw [deliverMsg] at unpacked
    split at unpacked
    next => contradiction
    next nonneg =>
      rw [if_neg other, bodySize, overhead, if_neg other]
      rw [uint32]
      rw [int32, Int.bmod_def] at nonneg
      omega

end Unpacking

-----------------------------------------------------------------------------------------
-- When unpacking is safe
-----------------------------------------------------------------------------------------

/-- Unpacking a string is safe exactly when the string does not start a frame, or the size of the
body is an `int`, as are the places of the checksum.
-/
theorem unpacksSafely_iff {text : Bytes} (nulFree : ∀ c ∈ text, c ≠ 0)
    : UnpacksSafely text ↔ (Headed text → Sized text) := by
  constructor
  · rintro ⟨ret, out, unpacked, -⟩ headed
    exact sized_of_msgUnPackMsg nulFree headed unpacked
  · intro sized
    by_cases headed : Headed text
    · have sized := sized headed
      have unpacked := msgUnPackMsg_sized nulFree headed sized
      obtain ⟨-, -, length, -, -⟩ := exists_parts headed sized.small
      by_cases summed : Summed text
      · rw [if_pos summed] at unpacked
        exact ⟨_, _, unpacked, Or.inr ⟨_, _, rfl, by rw [length], List.take_prefix ..⟩⟩
      · rw [if_neg summed] at unpacked
        exact ⟨_, _, unpacked, Or.inl (by decide)⟩
    · exact ⟨_, _, msgUnPackMsg_unheaded headed, Or.inl (by decide)⟩

/-- Witness: a frame with a body of two bytes is unpacked safely. -/
theorem unpacksSafely_iff_two : UnpacksSafely ("@@1ab##".toList.map Char.toUInt8) :=
  (unpacksSafely_iff (by decide)).mpr (by decide)

/-- A frame that ends behind its version is unpacked with a negative length. -/
theorem not_unpacksSafely_short
    : ¬ ∀ text : Bytes, (∀ c ∈ text, c ≠ 0) → UnpacksSafely text := by
  intro always
  obtain ⟨ret, out, unpacked, -⟩ := always ("@@1".toList.map Char.toUInt8) (by decide)
  contradiction

-----------------------------------------------------------------------------------------
-- When an accepted string is a frame
-----------------------------------------------------------------------------------------

/-- What unpacking accepts is packed as the same string, into any buffer that has room for it. -/
def Reproduced (text : Bytes) : Prop :=
  ∀ n ver body,
    msgUnPackMsg true true (some (text ++ [0])) = .ok (n, some (ver, body))
    → 0 ≤ n
    → ∀ mem : Bytes,
        text.length ≤ mem.length
        → ∃ ret rest, msgPackMsg ver (some body) (some mem) = .ok (ret, some (text ++ rest))

/-- The string ends with the two number signs of a frame. -/
def Tailed (text : Bytes) : Prop := ['#'.toUInt8, '#'.toUInt8].IsSuffix text

instance (text : Bytes) : Decidable (Tailed text) :=
  inferInstanceAs (Decidable (['#'.toUInt8, '#'.toUInt8].IsSuffix text))

/-- The trailer is what stands in a frame besides the body and the three bytes in front of it. -/
theorem length_trailer (ver : UInt8) (body : Bytes)
    : (trailer ver body).length + 3 = overhead ver := by
  rw [trailer, overhead]
  split <;> rfl

/-- A frame ends with two number signs. -/
theorem textFrame_tailed (ver : UInt8) (body : Bytes) : Tailed (textFrame ver body) := by
  rw [textFrame, trailer]
  split
  · exact ⟨['@'.toUInt8, '@'.toUInt8, ver]
      ++ (body ++ [highByte (checksum body), lowByte (checksum body)]), by simp⟩
  · exact ⟨['@'.toUInt8, '@'.toUInt8, ver] ++ body, by simp⟩

/-- The byte behind a prefix that is known by its length. -/
theorem getD_behind {before : Bytes} {i : Nat} (index : i = before.length) (c : UInt8)
    (rest : Bytes)
    : (before ++ c :: rest).getD i 0 = c := by
  simp [index]

/-- A string that is accepted, has the length of a frame with its body and ends like a frame is the
frame of its body.
-/
theorem textFrame_eq {text : Bytes} (headed : Headed text) (sized : Sized text)
    (summed : Summed text) (short : text.length ≤ 2 ^ 31) (tailed : Tailed text)
    : textFrame (versionOf text) (bodyOf text) = text := by
  obtain ⟨behind, parts, length, count, least⟩ := exists_parts headed sized.small
  have whole := bodySize_eq short (Nat.le_trans (Nat.le_add_left ..) (le_of_bodySize sized.small))
  rw [Summed] at summed
  generalize versionOf text = ver at *
  generalize bodyOf text = body at *
  generalize bodySize text = size at *
  have last : behind.IsSuffix text :=
    ⟨['@'.toUInt8, '@'.toUInt8, ver] ++ body, by rw [List.append_assoc, ← parts]⟩
  have five : 5 ≤ overhead ver := by
    rw [overhead]
    split <;> simp
  obtain ⟨front, rfl⟩ := List.suffix_of_suffix_length_le tailed last (by simp; omega)
  rw [List.length_append, List.length_cons, List.length_singleton] at count least
  have same : trailer ver body = front ++ ['#'.toUInt8, '#'.toUInt8] := by
    by_cases crc : ver = '2'.toUInt8
    · rw [overhead, if_pos crc] at whole
      obtain ⟨high, low, rfl⟩ := List.length_eq_two.mp (show front.length = 2 by omega)
      have sum := summed crc
      have first : text.getD (size + 3) 0 = high := by
        rw [parts, ← List.append_assoc]
        exact getD_behind (by simp [length]) high _
      have second : text.getD (size + 4) 0 = low := by
        have parts : text = (['@'.toUInt8, '@'.toUInt8, ver] ++ body ++ [high])
            ++ low :: ['#'.toUInt8, '#'.toUInt8] := by simpa using parts
        rw [parts]
        exact getD_behind (by simp [length]) low _
      rw [first, second, ← joinBytes_eq (checksum body)] at sum
      obtain ⟨rfl, rfl⟩ := joinBytes_inj sum
      rw [trailer, if_pos crc]
      rfl
    · rw [overhead, if_neg crc] at whole
      obtain rfl := List.eq_nil_of_length_eq_zero (show front.length = 0 by omega)
      rw [trailer, if_neg crc]
      rfl
  rw [textFrame, same, ← parts]

/-- An accepted string that is reproduced is the frame of its body and short enough to be packed. -/
theorem frame_of_reproduced {text : Bytes} (nulFree : ∀ c ∈ text, c ≠ 0)
    (reproduced : Reproduced text) (headed : Headed text) (sized : Sized text)
    (summed : Summed text)
    : textFrame (versionOf text) (bodyOf text) = text ∧ text.length ≤ 2 ^ 31 := by
  have unpacked := msgUnPackMsg_sized nulFree headed sized
  rw [if_pos summed] at unpacked
  obtain ⟨-, -, length, -, -⟩ := exists_parts headed sized.small
  obtain ⟨ret, rest, packed⟩ :=
    reproduced _ _ _ unpacked (Int.natCast_nonneg _) (List.replicate text.length 0) (by simp)
  have fits := fits_of_msgPackMsg packed (by rw [length]; exact sized.small)
  have size := @length_textFrame (versionOf text) (bodyOf text)
  have trailing := length_trailer (versionOf text) (bodyOf text)
  have long := le_of_bodySize sized.small
  obtain ⟨ret', packed'⟩ := msgPackMsg_eq fits (List.replicate text.length 0) (by simp; omega)
  obtain ⟨-, same⟩ := Prod.mk.inj (Except.ok.inj (packed.symm.trans packed'))
  have same := Option.some.inj same
  rw [List.drop_replicate] at same
  -- The buffer is no longer than the string, and the string has no zeros to take from it.
  have lengths := congrArg List.length same
  rw [List.length_append, List.length_append, List.length_replicate] at lengths
  obtain rfl := List.eq_nil_of_length_eq_zero (show rest.length = 0 by omega)
  rw [List.append_nil] at same
  have none : text.length - (textFrame (versionOf text) (bodyOf text)).length = 0 := by
    by_contra some
    refine nulFree 0 ?_ rfl
    rw [same]
    exact List.mem_append_right _ (List.mem_replicate.mpr ⟨some, rfl⟩)
  rw [none, List.replicate_zero, List.append_nil] at same
  refine ⟨same.symm, ?_⟩
  rw [same, size]
  omega

/-- An accepted string that is the frame of its body is reproduced. -/
theorem packed_of_frame {text : Bytes} (frame : textFrame (versionOf text) (bodyOf text) = text)
    (short : text.length ≤ 2 ^ 31) {mem : Bytes} (room : text.length ≤ mem.length)
    : ∃ ret rest,
        msgPackMsg (versionOf text) (some (bodyOf text)) (some mem)
        = .ok (ret, some (text ++ rest)) := by
  have size := @length_textFrame (versionOf text) (bodyOf text)
  rw [frame] at size
  obtain ⟨ret, packed⟩ :=
    @msgPackMsg_eq (versionOf text) (bodyOf text) (by omega) mem (by rwa [frame])
  exact ⟨ret, _, by rw [packed, frame]⟩

/-- An accepted string is reproduced exactly when it has at most `2 ^ 31` bytes and ends with two
number signs.
-/
theorem reproduced_iff {text : Bytes} (nulFree : ∀ c ∈ text, c ≠ 0)
    : Reproduced text
      ↔ (Headed text → Sized text → Summed text → text.length ≤ 2 ^ 31 ∧ Tailed text) := by
  constructor
  · intro reproduced headed sized summed
    obtain ⟨frame, short⟩ := frame_of_reproduced nulFree reproduced headed sized summed
    have tailed := textFrame_tailed (versionOf text) (bodyOf text)
    rw [frame] at tailed
    exact ⟨short, tailed⟩
  · intro frame n ver body unpacked nonneg mem room
    by_cases headed : Headed text
    · have sized := sized_of_msgUnPackMsg nulFree headed unpacked
      rw [msgUnPackMsg_sized nulFree headed sized] at unpacked
      split at unpacked
      next summed =>
        obtain ⟨short, tailed⟩ := frame headed sized summed
        obtain ⟨-, delivered⟩ := Prod.mk.inj (Except.ok.inj unpacked)
        obtain ⟨rfl, rfl⟩ := Prod.mk.inj (Option.some.inj delivered)
        exact packed_of_frame (textFrame_eq headed sized summed short tailed) short room
      next => simp at unpacked
    · rw [msgUnPackMsg_unheaded headed] at unpacked
      simp at unpacked

/-- Witness: a frame with a body of two bytes is reproduced. -/
theorem reproduced_iff_two : Reproduced ("@@1ab##".toList.map Char.toUInt8) :=
  (reproduced_iff (by decide)).mpr fun _ _ _ =>
    ⟨by simp, ⟨"@@1ab".toList.map Char.toUInt8, rfl⟩⟩

/-- A string that does not end with number signs is accepted. -/
theorem not_reproduced_tail
    : ¬ ∀ text : Bytes, 7 ≤ text.length → (∀ c ∈ text, c ≠ 0) → Reproduced text := by
  intro always
  have accepted
      : msgUnPackMsg true true (some ("@@1abXY".toList.map Char.toUInt8 ++ [0]))
        = .ok (2, some ('1'.toUInt8, "ab".toList.map Char.toUInt8)) := rfl
  have reproduced := always ("@@1abXY".toList.map Char.toUInt8) (by decide) (by decide)
  obtain ⟨ret, rest, packed⟩ :=
    reproduced _ _ _ accepted (Int.le.intro 2 rfl) (List.replicate 7 0) (Nat.le_refl 7)
  obtain ⟨ret', packed'⟩ :=
    @msgPackMsg_eq '1'.toUInt8 ("ab".toList.map Char.toUInt8) (by decide) (List.replicate 7 0)
      (Nat.le_refl 7)
  rw [packed'] at packed
  obtain ⟨-, same⟩ := Prod.mk.inj (Except.ok.inj packed)
  have byte : '#'.toUInt8 = 'X'.toUInt8 :=
    congrArg (fun frame : Bytes => frame.getD 5 0) (Option.some.inj same)
  exact absurd byte (by decide)

end Cvos.Msg

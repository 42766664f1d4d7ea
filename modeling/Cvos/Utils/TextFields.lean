import Cvos.Lib.Decimal

/-! What the functions of `utils.c` that take texts apart at their delimiters have in common: one
field after the other passes through the same buffer, which is cleared once, and `strncpy` does not
terminate them.
-/

namespace Cvos.Utils

open Cvos.Lib

/-- The characters of a string literal. -/
def literal (s : String) : Bytes := s.toList.map Char.toUInt8

/-- `UtilPrint`, which prints the line into a buffer of 1000 bytes. What the log does with it is
left out.
-/
def utilPrint (line : Bytes) : Checked Unit :=
  if line.length + 1 ≤ 1000 then .ok () else .error .outOfBounds

/-- `strchr (p, c)`, where the result is used as a pointer into the string. -/
def strchrIn (mem : Bytes) (p : Nat) (c : UInt8) : Checked Nat := do
  match ← strchr mem p c with
  | some q => .ok q
  | none => .error .nullPointer

/-- `strncpy (str, p, n)`. A negative length is a huge one. -/
def strncpyTo (str mem : Bytes) (p : Nat) (n : Int) : Checked Bytes :=
  if n < 0 then
    .error .outOfBounds
  else do
    let bytes ← strncpy (mem.drop p) n.toNat
    copyTo str 0 bytes

/-- `atoi (p)` -/
def atoiAt (mem : Bytes) (p : Nat) : Checked Int := do
  let _ ← strlen mem p
  .ok (atoi (cstring mem p))

/-- The delimiter in front of a port and between an hour and a minute. -/
def colonByte : UInt8 := ':'.toUInt8

/-- The shared buffer, cleared before a text was copied to its start. -/
def scratch (text : Bytes) : Bytes := text ++ List.replicate (32 - text.length) 0

/-- What is read after a field was copied over a text that is not terminated again. -/
def overlaid (field text : Bytes) : Bytes := field ++ text.drop field.length

/-- A field covers the text before it exactly when it is not shorter. -/
theorem overlaid_eq_self_iff (field text : Bytes)
    : overlaid field text = field ↔ text.length ≤ field.length := by
  rw [overlaid, List.append_right_eq_self, List.drop_eq_nil_iff]

/-- The longer of both texts decides how much is read. -/
theorem length_overlaid (field text : Bytes)
    : (overlaid field text).length = max field.length text.length := by
  rw [overlaid, List.length_append, List.length_drop]
  omega

/-- What is read was written as a part of one of both texts. -/
theorem of_mem_overlaid {field text : Bytes} {c : UInt8} (member : c ∈ overlaid field text)
    : c ∈ field ∨ c ∈ text := by
  rcases List.mem_append.mp member with inField | behind
  · exact .inl inField
  · exact .inr (List.mem_of_mem_drop behind)

/-- Copying a field leaves the buffer as if the whole overlaid text had been copied at once. -/
theorem append_drop_scratch (field text : Bytes)
    : field ++ (scratch text).drop field.length = scratch (overlaid field text) := by
  have zeros
      : 32 - text.length - (field.length - text.length) = 32 - (overlaid field text).length := by
    rw [length_overlaid]
    omega
  rw [scratch, scratch, List.drop_append, List.drop_replicate, zeros, overlaid, List.append_assoc]

/-- `strchr` finds the delimiter behind a part without it. -/
theorem strchrIn_append (before rest : Bytes) {c : UInt8} {part : Bytes}
    (plain : ∀ d ∈ part, d ≠ 0 ∧ d ≠ c)
    : strchrIn (before ++ (part ++ c :: rest)) before.length c
      = .ok (before.length + part.length) := by
  have passed : ∀ d ∈ part, (d != 0 && d != c) = true := by simpa using plain
  have scanned := scanWhile_append before rest passed (c := c) (by simp)
  rw [strchrIn, strchr, scanned, Checked.ok_bind, load_behind, Checked.ok_bind, if_pos rfl]
  rfl

/-- `strncpy` of a field to the shared buffer. -/
theorem strncpyTo_scratch {field text : Bytes} (nulFree : ∀ c ∈ field, c ≠ 0)
    (fieldFits : field.length ≤ 31) (textFits : text.length ≤ 31) (before rest : Bytes)
    : strncpyTo (scratch text) (before ++ (field ++ rest)) before.length field.length
      = .ok (scratch (overlaid field text)) := by
  have room : 0 + field.length ≤ (scratch text).length := by
    rw [scratch, List.length_append, List.length_replicate]
    omega
  rw [strncpyTo, if_neg (by omega), List.drop_left, Int.toNat_natCast,
    strncpy_append nulFree, Checked.ok_bind, copyTo, if_pos room, List.take_zero, List.nil_append,
    Nat.zero_add, append_drop_scratch]

/-- `strchr` from the delimiter in front of a part to the one behind it. -/
theorem strchrIn_delimited (before rest : Bytes) {d c : UInt8} {part : Bytes}
    (opening : d ≠ 0 ∧ d ≠ c) (plain : ∀ b ∈ part, b ≠ 0 ∧ b ≠ c)
    : strchrIn (before ++ d :: (part ++ c :: rest)) before.length c
      = .ok (before ++ d :: part).length := by
  rw [List.length_append, ← strchrIn_append before rest (List.forall_mem_cons.mpr ⟨opening, plain⟩)]
  rfl

/-- `strncpy` of the field between two delimiters. -/
theorem strncpyTo_delimited {field text : Bytes} (nulFree : ∀ c ∈ field, c ≠ 0)
    (fieldFits : field.length ≤ 31) (textFits : text.length ≤ 31) (before rest : Bytes)
    (d : UInt8)
    : strncpyTo (scratch text) (before ++ d :: (field ++ rest)) (before.length + 1)
        ((before ++ d :: field).length - before.length - 1)
      = .ok (scratch (overlaid field text)) := by
  have copied := strncpyTo_scratch nulFree fieldFits textFits (before ++ [d]) rest
  rw [List.append_assoc, List.singleton_append, List.length_append, List.length_singleton] at copied
  have length : ((before ++ d :: field).length : Int) - before.length - 1 = field.length := by
    rw [List.length_append, List.length_cons]
    omega
  rw [length, copied]

/-- `atoi` of the number behind a prefix. -/
theorem atoiAt_append (before rest : Bytes) {digits : Bytes} (nulFree : ∀ c ∈ digits, c ≠ 0)
    : atoiAt (before ++ (digits ++ 0 :: rest)) before.length = .ok (atoi digits) := by
  have filled : ∀ c ∈ digits, (c != 0) = true := by simpa using nulFree
  rw [atoiAt, strlen, scanWhile_append before rest filled (c := 0) rfl,
    cstring_append before rest nulFree]
  rfl

/-- The string in the shared buffer. -/
theorem scratch_eq {text : Bytes} (fits : text.length ≤ 31)
    : ∃ rest, scratch text = text ++ 0 :: rest := by
  refine ⟨List.replicate (31 - text.length) 0, ?_⟩
  rw [scratch, ← List.replicate_succ]
  congr 2
  omega

/-- `atoi` of the string in the shared buffer. -/
theorem atoiAt_scratch {text : Bytes} (nulFree : ∀ c ∈ text, c ≠ 0) (fits : text.length ≤ 31)
    : atoiAt (scratch text) 0 = .ok (atoi text) := by
  obtain ⟨rest, split⟩ := scratch_eq fits
  rw [split]
  exact atoiAt_append [] rest nulFree

/-- The cleared buffer holds a field alone. -/
theorem strncpyTo_cleared {field : Bytes} (nulFree : ∀ c ∈ field, c ≠ 0)
    (fieldFits : field.length ≤ 31) (before rest : Bytes)
    : strncpyTo (List.replicate 32 0) (before ++ (field ++ rest)) before.length field.length
      = .ok (scratch field) := by
  have copied := @strncpyTo_scratch field [] nulFree fieldFits (Nat.zero_le 31) before rest
  rwa [overlaid, List.drop_nil, List.append_nil] at copied

end Cvos.Utils

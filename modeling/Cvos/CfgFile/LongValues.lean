import Cvos.CfgFile.DeletedKey
import Cvos.CfgFile.WriteRoom
import Cvos.Lib.Decimal

/-! Numbers as values: `cfg_writelong` prints a `long` into a buffer of 16 bytes, and `cfg_getlong`
reads an `int`.
-/

namespace Cvos.CfgFile

open Cvos.Lib

/-- `cfg_writelong` -/
def cfgWritelong (c : Config) (sectionName id : Option Bytes) (value : Int)
    : Checked (Int × Config) := do
  let sTemp ← copyTo (List.replicate 16 0) 0 (decimalInt value ++ [0])
  cfgWrite c sectionName id (some (cstring sTemp 0))

/-- `cfg_getlong`: its result and the number that it stores, if it stores one. -/
def cfgGetlong (c : Config) (sectionName id : Option Bytes)
    : Checked ((Int × Option Int) × Config) := do
  let (ret, c) ← cfgFind c sectionName id
  if ret < 0 then
    .ok ((-2, none), c)
  else
    let value ← copyValue c
    .ok ((0, some (atoi value)), c)

/-- No entry of the section has the key, with or without quotes. -/
def NewKey (es : List Entry) (s k : Bytes) : Prop :=
  ∀ e ∈ bodyOf es s, e.id ≠ some k ∧ e.keyOf ≠ some k

/-- The text of the number fits the buffer with its terminator, the write returns 0 without an
access outside of the entry array, and the number is read back.
-/
def LongRoundTrips (c : Config) (s k : Bytes) (value : Int) : Prop :=
  (decimalInt value).length + 1 ≤ 16
  ∧ ∃ c',
      cfgWritelong c (some s) (some k) value = .ok (0, c')
      ∧ ∃ c'', cfgGetlong c' (some s) (some k) = .ok ((0, some value), c'')

/-- After a write of a new key, a search for the key delivers what was written. -/
theorem Edited.lookupIn_new {s k v : Bytes} {es es' : List Entry}
    (edited : Edited s es (some k) (some v) es') (plain : PlainId k) (new : NewKey es s k)
    : lookupIn es' s (some k) = some (some v) := by
  have gives : (defineEntry k v).valueOf k = some v := by
    rw [valueOf_define rfl rfl rfl, plain.removeQuotes_eq, if_pos rfl]
  cases edited with
  | create missing => rw [lookupIn_created missing _ rfl, gives]; rfl
  | ignore missing delete => simp at delete
  | @update _ _ before header after pre e post opened earlier key =>
      have body : bodyOf es s = pre ++ e :: post := by rw [bodyOf, opened.sectionBody_eq]; rfl
      exact absurd key (new e (by simp [body])).1
  | @add _ _ before header body after opened missing =>
      have inside := opened.inside.define k v
      have nowhere : lookup body k = none := by
        refine (lookup_eq_none_iff body k).mpr fun e member => (new e ?_).2
        rwa [bodyOf, opened.sectionBody_eq]
      rw [(opened.exchange inside).lookupIn_eq, lookup_append, nowhere, lookup_cons, gives]
      rfl

/-- A new key takes the value that is printed, and a search reads it back as an `int`. -/
theorem cfgGetlong_written {c c' : Config} {s k : Bytes} {value : Int} (valid : c.valid)
    (plain : PlainId k) (new : NewKey c.pool.entries s k) (low : -2 ^ 63 ≤ value)
    (high : value < 2 ^ 63) {ret : Int}
    (returned : cfgWrite c (some s) (some k) (some (decimalInt value)) = .ok (ret, c'))
    : ret = 0 ∧ ∃ c'', cfgGetlong c' (some s) (some k) = .ok ((0, some (int32 value)), c'') := by
  obtain ⟨zero, valid', -, edited⟩ := cfgWrite_edited valid returned
  have search := findValue_named valid' s (some k)
  rw [edited.lookupIn_new plain new] at search
  obtain ⟨c'', found, delivers⟩ := cfgFind_some search
  refine ⟨zero, c'', ?_⟩
  simp [cfgGetlong, found, copyValue, delivers, atoi_decimalInt low high]

/-- A number is written, if its text fits, as its text. -/
theorem cfgWritelong_fits (c : Config) (sectionName id : Option Bytes) {value : Int}
    (fits : (decimalInt value).length + 1 ≤ 16)
    : cfgWritelong c sectionName id value
      = cfgWrite c sectionName id (some (decimalInt value)) := by
  have printed
      : copyTo (List.replicate 16 0) 0 (decimalInt value ++ [0])
        = .ok (decimalInt value ++ 0 :: List.replicate (15 - (decimalInt value).length) 0) := by
    have length : (decimalInt value ++ [0]).length = (decimalInt value).length + 1 := by simp
    have behind : 16 - ((decimalInt value).length + 1) = 15 - (decimalInt value).length := by omega
    rw [copyTo, length, List.length_replicate, Nat.zero_add, if_pos fits, List.drop_replicate,
      behind, List.take_zero, List.nil_append, List.append_assoc]
    rfl
  have read := cstring_append [] (List.replicate (15 - (decimalInt value).length) 0)
    (nulFree_decimalInt value)
  rw [List.nil_append, List.length_nil] at read
  rw [cfgWritelong, printed, Checked.ok_bind, read]

/-- A number that is written under a new key is read back exactly when it is in the range of an
`int`, and the array has room for the entry if it has to be put in front of a header.
-/
theorem longRoundTrips_iff {c : Config} (valid : c.valid) {s k : Bytes} (plain : PlainId k)
    (new : NewKey c.pool.entries s k) {value : Int} (low : -2 ^ 63 ≤ value)
    (high : value < 2 ^ 63)
    : LongRoundTrips c s k value
      ↔ (-2 ^ 31 ≤ value ∧ value < 2 ^ 31)
        ∧ (InsertsBeforeHeader c.pool.entries s k
          → c.pool.entries.length + 1 < c.pool.maxEntries) := by
  have fits : (decimalInt value).length + 1 ≤ 16 ↔ -10 ^ 14 < value ∧ value < 10 ^ 15 := by
    rw [Nat.add_one_le_iff, Nat.lt_succ_iff]
    exact length_decimalInt_le_iff (by decide)
  have returns := cfgWrite_returns_iff valid s k (decimalInt value)
  constructor
  · rintro ⟨inside, c', written, c'', readBack⟩
    rw [cfgWritelong_fits c _ _ inside] at written
    obtain ⟨-, d, read⟩ := cfgGetlong_written valid plain new low high written
    rw [read] at readBack
    simp only [Except.ok.injEq, Prod.mk.injEq, true_and, Option.some.injEq] at readBack
    exact ⟨(int32_eq_self_iff value).mp readBack.1, returns.mp ⟨_, written⟩⟩
  · rintro ⟨range, room⟩
    have inside : (decimalInt value).length + 1 ≤ 16 := fits.mpr (by omega)
    obtain ⟨⟨ret, c'⟩, written⟩ := returns.mpr room
    obtain ⟨rfl, c'', read⟩ := cfgGetlong_written valid plain new low high written
    rw [int32_eq_self range.1 range.2] at read
    exact ⟨inside, c', by rw [cfgWritelong_fits c _ _ inside, written], c'', read⟩

/-- Witness: the least `int` is written into a configuration without the section. -/
theorem longRoundTrips_iff_least
    : LongRoundTrips (parseOf (text "")) (text "s") (text "k") (-2 ^ 31) := by
  have new : NewKey (parseOf (text "")).pool.entries (text "s") (text "k") := by rintro e ⟨⟩
  have range : (-2 ^ 31 : Int) ≤ -2 ^ 31 ∧ (-2 ^ 31 : Int) < 2 ^ 31 := by decide
  refine (longRoundTrips_iff rfl ⟨by decide, by decide⟩ new (by decide) (by decide)).mpr
    ⟨range, ?_⟩
  rintro ⟨before, header, body, after, opened, -⟩
  have empty : (parseOf (text "")).pool.entries = [] := rfl
  rw [empty] at opened
  exact absurd opened.parts (by simp)

/-- The number behind the greatest `int` is read back as the least one. -/
theorem not_longRoundTrips_behind
    : ¬ ∀ (c : Config) (s k : Bytes) (value : Int),
        c.valid
        → PlainId k
        → NewKey c.pool.entries s k
        → -2 ^ 63 ≤ value
        → value < 2 ^ 63
        → LongRoundTrips c s k value := by
  intro always
  have new : NewKey (parseOf (text "")).pool.entries (text "s") (text "k") := by rintro e ⟨⟩
  obtain ⟨-, c', written, c'', read⟩ :=
    always (parseOf (text "")) (text "s") (text "k") (2 ^ 31) rfl ⟨by decide, by decide⟩ new
      (by decide) (by decide)
  obtain ⟨d, written', stored⟩
      : ∃ d,
          cfgWritelong (parseOf (text "")) (some (text "s")) (some (text "k")) (2 ^ 31)
            = .ok (0, d)
          ∧ (cfgGetlong d (some (text "s")) (some (text "k"))).map Prod.fst
            = .ok (0, some (-2 ^ 31)) :=
    ⟨_, rfl, rfl⟩
  cases written.symm.trans written'
  rw [read] at stored
  have same : (some (2 ^ 31) : Option Int) = some (-2 ^ 31) :=
    congrArg Prod.snd (Except.ok.inj stored)
  exact absurd same (by decide)

end Cvos.CfgFile

import Mathlib.Data.List.Basic

/-! A feedback shift register that takes its input bit by bit, as checksums by polynomial
division use it. Its steps are linear over exclusive or, and one whose polynomial has a constant
term forgets nothing.
-/

namespace Cvos.Lib

section ShiftRegister

variable {w : Nat} (poly : BitVec w)

/-- The register after a further bit, which is compared with the bit that is shifted out. -/
def shiftBit (reg : BitVec w) (bit : Bool) : BitVec w :=
  if reg.msb ≠ bit then (reg <<< 1) ^^^ poly else reg <<< 1

/-- The register after further bits. -/
def shiftBits (reg : BitVec w) (bits : List Bool) : BitVec w := bits.foldl (shiftBit poly) reg

/-- The bits of a word, the most significant one first. -/
def msbFirst (word : BitVec w) : List Bool := (List.range w).map word.getMsbD

@[simp]
theorem length_msbFirst (word : BitVec w) : (msbFirst word).length = w := by simp [msbFirst]

/-- The bits of an exclusive or. -/
theorem msbFirst_xor (word word' : BitVec w)
    : msbFirst (word ^^^ word') = List.zipWith xor (msbFirst word) (msbFirst word') := by
  refine List.ext_getElem (by simp) fun i bound _ => ?_
  simp [msbFirst]

/-- Without bits the register stays as it is. -/
@[simp]
theorem shiftBits_nil (reg : BitVec w) : shiftBits poly reg [] = reg := rfl

/-- The first bit is shifted in first. -/
theorem shiftBits_cons (reg : BitVec w) (bit : Bool) (bits : List Bool)
    : shiftBits poly reg (bit :: bits) = shiftBits poly (shiftBit poly reg bit) bits := rfl

/-- Bits can be shifted in one part after the other. -/
theorem shiftBits_append (reg : BitVec w) (bits bits' : List Bool)
    : shiftBits poly reg (bits ++ bits') = shiftBits poly (shiftBits poly reg bits) bits' :=
  List.foldl_append

/-- A step is linear. -/
theorem shiftBit_xor (reg reg' : BitVec w) (bit bit' : Bool)
    : shiftBit poly (reg ^^^ reg') (bit ^^ bit')
      = shiftBit poly reg bit ^^^ shiftBit poly reg' bit' := by
  have cancel (a b : BitVec w) : (a ^^^ poly) ^^^ (b ^^^ poly) = a ^^^ b := by
    rw [BitVec.xor_assoc, BitVec.xor_comm poly, BitVec.xor_assoc, BitVec.xor_self, BitVec.xor_zero]
  simp only [shiftBit, BitVec.msb_xor, BitVec.shiftLeft_xor_distrib]
  cases reg.msb <;> cases reg'.msb <;> cases bit <;> cases bit' <;>
    simp [cancel, BitVec.xor_assoc, BitVec.xor_comm poly]

/-- A run of steps is linear. -/
theorem shiftBits_xor (reg reg' : BitVec w) {bits bits' : List Bool}
    (length : bits.length = bits'.length)
    : shiftBits poly (reg ^^^ reg') (List.zipWith xor bits bits')
      = shiftBits poly reg bits ^^^ shiftBits poly reg' bits' := by
  induction bits generalizing reg reg' bits' with
  | nil =>
      cases bits' with
      | nil => rfl
      | cons bit' bits' => contradiction
  | cons bit bits ih =>
      cases bits' with
      | nil => contradiction
      | cons bit' bits' =>
          rw [List.zipWith_cons_cons, shiftBits_cons, shiftBits_cons, shiftBits_cons, shiftBit_xor,
            ih _ _ (Nat.succ.inj length)]

/-- An empty register stays empty over bits that are all zero. -/
theorem shiftBits_zero (n : Nat) : shiftBits poly 0 (List.replicate n false) = 0 := by
  have step : shiftBit poly 0 false = 0 := by simp [shiftBit]
  induction n with
  | zero => rfl
  | succ n ih => rw [List.replicate_succ, shiftBits_cons, step, ih]

/-- Bits that are all zero do not empty a register whose polynomial has a constant term. -/
theorem shiftBits_eq_zero (constant : poly.getLsbD 0 = true) {reg : BitVec w} {n : Nat}
    (empty : shiftBits poly reg (List.replicate n false) = 0)
    : reg = 0 := by
  have step {reg : BitVec w} (empty : shiftBit poly reg false = 0) : reg = 0 := by
    rw [shiftBit] at empty
    split at empty
    next =>
      have low := congrArg (·.getLsbD 0) empty
      simp [constant] at low
    next out =>
      refine BitVec.eq_of_getLsbD_eq fun i bound => ?_
      by_cases top : i = w - 1
      · subst top
        simpa [BitVec.msb_eq_getLsbD_last] using out
      · have moved := congrArg (·.getLsbD (i + 1)) empty
        simpa [BitVec.getLsbD_eq_getElem bound, show i + 1 < w by omega] using moved
  induction n generalizing reg with
  | zero => exact empty
  | succ n ih => exact step (ih empty)

/-- A register that takes in its own bits becomes empty. -/
theorem shiftBits_msbFirst_self (reg : BitVec w) : shiftBits poly reg (msbFirst reg) = 0 := by
  have further (n : Nat)
      : shiftBits poly reg ((List.range n).map reg.getMsbD) = reg <<< n := by
    induction n with
    | zero => simp
    | succ n ih =>
        have out : (reg <<< n).msb = reg.getMsbD n := BitVec.msb_shiftLeft
        rw [List.range_succ, List.map_append, shiftBits_append, ih, List.map_singleton,
          shiftBits_cons, shiftBits_nil, shiftBit, if_neg (by simp [out]), BitVec.shiftLeft_add]
  rw [msbFirst, further]
  simp

/-- Taking in a word has the effect of zeros on the register that differs by the word. -/
theorem shiftBits_msbFirst (reg word : BitVec w)
    : shiftBits poly reg (msbFirst word)
      = shiftBits poly (reg ^^^ word) (List.replicate w false) := by
  have bits : List.zipWith xor (List.replicate w false) (msbFirst word) = msbFirst word := by
    refine List.ext_getElem (by simp) ?_
    simp
  have split := shiftBits_xor poly (reg ^^^ word) word
    (show (List.replicate w false).length = (msbFirst word).length by simp)
  rw [bits, BitVec.xor_assoc, BitVec.xor_self, BitVec.xor_zero, shiftBits_msbFirst_self] at split
  rw [split]
  exact BitVec.xor_zero

/-- Taking in a word empties the register exactly when it is the word. -/
theorem shiftBits_msbFirst_eq_zero (constant : poly.getLsbD 0 = true) (reg word : BitVec w)
    : shiftBits poly reg (msbFirst word) = 0 ↔ reg = word := by
  rw [shiftBits_msbFirst]
  constructor
  · intro empty
    exact BitVec.xor_eq_zero_iff.mp (shiftBits_eq_zero poly constant empty)
  · rintro rfl
    rw [BitVec.xor_self]
    exact shiftBits_zero poly w

/-- Any bits are those of a word. -/
theorem exists_msbFirst (bits : List Bool) (length : bits.length = w)
    : ∃ word : BitVec w, msbFirst word = bits := by
  subst length
  refine ⟨BitVec.ofBoolListBE bits, List.ext_getElem (by simp) ?_⟩
  intro i _ bound
  simp [msbFirst, bound]

/-- An empty register does not become empty again over bits that differ from zero only within
as many consecutive places as it has.
-/
theorem shiftBits_burst (constant : poly.getLsbD 0 = true) (before after : Nat)
    {burst : List Bool} (length : burst.length = w) (set : true ∈ burst)
    : shiftBits poly 0 (List.replicate before false ++ (burst ++ List.replicate after false))
      ≠ 0 := by
  intro empty
  obtain ⟨word, rfl⟩ := exists_msbFirst burst length
  rw [shiftBits_append, shiftBits_append, shiftBits_zero] at empty
  have taken := shiftBits_eq_zero poly constant empty
  rw [shiftBits_msbFirst_eq_zero poly constant] at taken
  subst taken
  simp [msbFirst] at set

/-- An empty register does not become empty again over bits of which some are set, but only
within as many consecutive places as it has.
-/
theorem shiftBits_window (constant : poly.getLsbD 0 = true) {bits : List Bool}
    (long : w ≤ bits.length) (set : true ∈ bits) (first : Nat)
    (window : ∀ i, bits[i]? = some true → first ≤ i ∧ i < first + w)
    : shiftBits poly 0 bits ≠ 0 := by
  -- The window is moved to the left where it reaches over the end.
  obtain ⟨start, lower, upper, inside⟩
      : ∃ start, start ≤ first ∧ start + w ≤ bits.length
          ∧ ∀ i, bits[i]? = some true → i < start + w := by
    by_cases fits : first + w ≤ bits.length
    · exact ⟨first, Nat.le_refl first, fits, fun i set => (window i set).2⟩
    · refine ⟨bits.length - w, by omega, by omega, fun i set => ?_⟩
      obtain ⟨bound, -⟩ := List.getElem?_eq_some_iff.mp set
      omega
  have zeros {part : List Bool} (none : true ∉ part) : part = List.replicate part.length false := by
    refine List.eq_replicate_iff.mpr ⟨rfl, fun bit member => ?_⟩
    cases bit with
    | false => rfl
    | true => exact absurd member none
  have front : true ∉ bits.take start := by
    intro member
    obtain ⟨i, bound, value⟩ := List.mem_iff_getElem.mp member
    rw [List.getElem_take] at value
    have known := window i (List.getElem?_eq_some_iff.mpr ⟨_, value⟩)
    simp at bound
    omega
  have back : true ∉ bits.drop (start + w) := by
    intro member
    obtain ⟨i, bound, value⟩ := List.mem_iff_getElem.mp member
    rw [List.getElem_drop] at value
    have known := inside _ (List.getElem?_eq_some_iff.mpr ⟨_, value⟩)
    omega
  have parts
      : bits.take start ++ ((bits.drop start).take w ++ bits.drop (start + w)) = bits := by
    rw [← List.drop_drop, List.take_append_drop, List.take_append_drop]
  rw [← parts] at set ⊢
  have burst : true ∈ (bits.drop start).take w := by
    rcases List.mem_append.mp set with before | rest
    · exact absurd before front
    · rcases List.mem_append.mp rest with within | behind
      · exact within
      · exact absurd behind back
  rw [zeros front, zeros back]
  exact shiftBits_burst poly constant _ _ (by simp; omega) burst

end ShiftRegister

/-- The bits of two words that are put together. -/
theorem msbFirst_append {v w : Nat} (high : BitVec v) (low : BitVec w)
    : msbFirst (high ++ low) = msbFirst high ++ msbFirst low := by
  refine List.ext_getElem (by simp) fun i bound _ => ?_
  rw [length_msbFirst] at bound
  rw [List.getElem_append]
  simp only [msbFirst, List.getElem_map, List.getElem_range, List.length_map, List.length_range,
    BitVec.getMsbD_append]
  by_cases inHigh : i < v
  · rw [if_neg (by omega), dif_pos inHigh]
  · rw [if_pos (by omega), dif_neg inHigh]

end Cvos.Lib

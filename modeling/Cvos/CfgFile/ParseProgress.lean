import Cvos.CfgFile.ParseRefinement
import Cvos.Lib.Transition

/-! The loop of `_cfg_parse` ends on a file exactly when the file has no NUL byte: its turns move on
up to the first NUL, and a turn there leaves everything where it is.
-/

namespace Cvos.CfgFile

open Cvos.Lib

/-- Where the loop of `_cfg_parse` stands: `imgPtr`, and the image as it was cut so far. -/
structure LoopState where
  imgPtr : Nat
  mem : Bytes

/-- The loop at the start of the image that `cfg_refresh` has read from a file. -/
def LoopState.start (image : Bytes) : LoopState where
  imgPtr := 0
  mem := image ++ [0]

/-- One iteration of the loop of `_cfg_parse`, with the entry that it stores. -/
def LoopTurn (endPtr : Nat) (s : LoopState) (entry : Option (CfgEntry Nat)) (s' : LoopState)
    : Prop :=
  s.imgPtr < endPtr ∧ parseTurn s.mem s.imgPtr = .ok ((entry, s'.imgPtr), s'.mem)

/-- The loop reaches the end of the image after finitely many iterations, and each of them moves
`imgPtr` on.
-/
structure LoopEnds (image : Bytes) : Prop where
  reachesEnd
    : ∃ turns s, Run (LoopTurn image.length) (.start image) turns s ∧ image.length ≤ s.imgPtr
  advances
    : ∀ turns s entry s',
        Run (LoopTurn image.length) (.start image) turns s
        → LoopTurn image.length s entry s'
        → s.imgPtr < s'.imgPtr

/-- The loop stands before a text that reaches up to the address `stop` of a NUL. -/
structure BeforeNul (stop : Nat) (after : Bytes) (s : LoopState) (rest : Bytes) : Prop where
  nulFree : NulFree rest
  length : s.imgPtr + rest.length = stop
  mem : ∃ before : Bytes, s.mem = before ++ (rest ++ 0 :: after) ∧ before.length = s.imgPtr

/-- Before a text, the next iteration moves on and stands before the rest of the text. -/
theorem BeforeNul.turn {endPtr stop : Nat} {after : Bytes} {s : LoopState} {rest : Bytes}
    (ahead : BeforeNul stop after s rest) (within : stop ≤ endPtr) (filled : rest ≠ [])
    : ∃ entry s' rest',
        (∀ e t, LoopTurn endPtr s e t ↔ e = entry ∧ t = s')
        ∧ BeforeNul stop after s' rest'
        ∧ s.imgPtr < s'.imgPtr
        ∧ rest'.length < rest.length := by
  obtain ⟨imgPtr, mem⟩ := s
  obtain ⟨nulFree, length, before, rfl, rfl⟩ := ahead
  have length : before.length + rest.length = stop := length
  obtain ⟨kept, rest', entry, -, progress, lengths, nulFree', turn, -, -⟩ :=
    parseTurn_text before after nulFree filled
  have moved := List.length_pos_iff.mpr progress
  have inside : before.length < endPtr := by
    have := List.length_pos_iff.mpr filled
    omega
  have ahead
      : BeforeNul stop after
          ⟨before.length + kept.length, before ++ (kept ++ (rest' ++ 0 :: after))⟩ rest' :=
    ⟨nulFree', by rw [← length, ← lengths, Nat.add_assoc], before ++ kept, by simp, by simp⟩
  refine ⟨entry, _, rest', ?_, ahead, Nat.lt_add_of_pos_right moved, by omega⟩
  rintro e ⟨imgPtr, mem⟩
  simp only [LoopTurn, turn, inside, true_and, Except.ok.injEq, Prod.mk.injEq, LoopState.mk.injEq]
  tauto

/-- At a NUL before the end of the image, the next iteration leaves everything where it is. -/
theorem BeforeNul.stuck {endPtr stop : Nat} {after : Bytes} {s : LoopState}
    (ahead : BeforeNul stop after s []) (within : stop < endPtr)
    : LoopTurn endPtr s none s := by
  obtain ⟨imgPtr, mem⟩ := s
  obtain ⟨-, length, before, rfl, rfl⟩ := ahead
  exact ⟨Nat.lt_of_le_of_lt (Nat.le_of_eq length) within, parseTurn_stuck before after⟩

/-- From a text on, the iterations lead to the NUL behind it. -/
theorem BeforeNul.reaches {endPtr stop : Nat} {after : Bytes} {start s : LoopState} {rest : Bytes}
    {turns : List (LoopState × Option (CfgEntry Nat))} (ahead : BeforeNul stop after s rest)
    (within : stop ≤ endPtr) (run : Run (LoopTurn endPtr) start turns s)
    : ∃ turns' s', Run (LoopTurn endPtr) start turns' s' ∧ BeforeNul stop after s' [] := by
  generalize enough : rest.length = n
  induction n using Nat.strongRecOn generalizing s rest turns with
  | ind n ih =>
      by_cases filled : rest = []
      · subst filled
        exact ⟨turns, s, run, ahead⟩
      · obtain ⟨entry, s', rest', taken, ahead', -, fewer⟩ := ahead.turn within filled
        exact ih rest'.length (enough ▸ fewer) ahead' (run.extend ((taken _ _).mpr ⟨rfl, rfl⟩)) rfl

/-- At the start, the loop stands before the text up to a NUL. -/
theorem beforeNul_start {text after : Bytes} {image : Bytes} (nulFree : NulFree text)
    (parts : image ++ [0] = text ++ 0 :: after)
    : BeforeNul text.length after (.start image) text where
  nulFree := nulFree
  length := Nat.zero_add _
  mem := ⟨[], by rw [LoopState.start, parts, List.nil_append], rfl⟩

/-- In a file without NUL bytes, the loop stands before some text in every iteration. -/
theorem exists_beforeNul {image : Bytes} (nulFree : NulFree image) {s : LoopState}
    {turns : List (LoopState × Option (CfgEntry Nat))}
    (run : Run (LoopTurn image.length) (.start image) turns s)
    : ∃ rest, BeforeNul image.length [] s rest := by
  refine run.invariant (fun s => ∃ rest, BeforeNul image.length [] s rest)
    ⟨image, beforeNul_start nulFree rfl⟩ ?_
  intro current entry next _ taken ⟨rest, ahead⟩
  have filled : rest ≠ [] := by
    rintro rfl
    have atEnd : current.imgPtr = image.length := ahead.length
    exact absurd taken.1 (by rw [atEnd]; exact Nat.lt_irrefl _)
  obtain ⟨_, s', rest', only, ahead', -, -⟩ := ahead.turn (Nat.le_refl _) filled
  obtain ⟨-, rfl⟩ := (only _ _).mp taken
  exact ⟨rest', ahead'⟩

/-- The loop of `_cfg_parse` ends on a file exactly when the file has no NUL byte. -/
theorem loopEnds_iff (image : Bytes) : LoopEnds image ↔ NulFree image := by
  constructor
  · intro ends
    by_contra nul
    obtain ⟨text, after, rfl, nulFree⟩ := exists_firstNul nul
    have parts : (text ++ 0 :: after) ++ [0] = text ++ 0 :: (after ++ [0]) := by simp
    have ahead := beforeNul_start nulFree parts
    have within : text.length < (text ++ 0 :: after).length := by simp
    obtain ⟨turns, s, run, stands⟩ := ahead.reaches (Nat.le_of_lt within) .start
    exact Nat.lt_irrefl _ (ends.advances turns s none s run (stands.stuck within))
  · intro nulFree
    constructor
    · obtain ⟨turns, s, run, stands⟩ :=
        (beforeNul_start nulFree rfl).reaches (Nat.le_refl _) .start
      exact ⟨turns, s, run, Nat.le_of_eq stands.length.symm⟩
    · intro turns s entry s' run taken
      obtain ⟨rest, ahead⟩ := exists_beforeNul nulFree run
      have filled : rest ≠ [] := by
        rintro rfl
        have atEnd : s.imgPtr = image.length := ahead.length
        exact absurd taken.1 (by rw [atEnd]; exact Nat.lt_irrefl _)
      obtain ⟨_, t, _, only, -, advances, -⟩ := ahead.turn (Nat.le_refl _) filled
      obtain ⟨-, rfl⟩ := (only _ _).mp taken
      exact advances

/-- On a file of one NUL byte, the loop does not end. -/
theorem not_loopEnds_nul : ¬ ∀ image, LoopEnds image := by
  intro always
  have moves := (always [0]).advances [] (.start [0]) none (.start [0]) .start ⟨by decide, rfl⟩
  contradiction

end Cvos.CfgFile

import Cvos.CfgFile.WriteLookup

/-! When `cfg_write` stays within the entry array: `cfg_storeentry` lets the array grow, but a
key that is inserted in front of a header needs two free slots there.
-/

namespace Cvos.CfgFile

open Cvos.Lib

/-- The key is new in a section that is not the last one. -/
def InsertsBeforeHeader (es : List Entry) (s k : Bytes) : Prop :=
  ∃ before header body after,
    SectionAt es s before header body after ∧ after ≠ [] ∧ ∀ x ∈ body, x.id ≠ some k

/-- A key can be put in front of an entry exactly when two slots are free. -/
theorem insertBefore_returns_iff (p : Pool) (e : Nat) (id value : Bytes)
    : (∃ p', p.insertBefore e id value = .ok p') ↔ p.entries.length + 1 < p.maxEntries := by
  rw [Pool.insertBefore]
  constructor
  · rintro ⟨p', inserted⟩
    split at inserted
    next => contradiction
    next =>
      split at inserted
      next room => exact room
      next => contradiction
  · intro room
    rw [if_neg (by omega), dif_pos room]
    exact ⟨_, rfl⟩

/-- `cfg_write` of a value finishes within the array exactly when there is room for the key, if
it has to be inserted in front of a header.
-/
theorem cfgWrite_returns_iff {c : Config} (valid : c.valid) (s k v : Bytes)
    : (∃ result, cfgWrite c (some s) (some k) (some v) = .ok result)
      ↔ (InsertsBeforeHeader c.pool.entries s k
        → c.pool.entries.length + 1 < c.pool.maxEntries) := by
  simp only [cfgWrite, valid, Bool.not_true, Bool.false_eq_true, if_false, Option.isNone_some,
    Checked.ok_bind, List.drop_zero]
  rcases sectionFrom_eq s 0 c.pool.entries with
    ⟨missing, result⟩ | ⟨before, header, behind, parts, first, named, result⟩
  · have nowhere : ¬ InsertsBeforeHeader c.pool.entries s k := by
      rintro ⟨before, header, body, after, opened, -⟩
      exact missing header (by simp [opened.parts]) opened.named
    simp [result, nowhere]
  · have behind' : c.pool.entries.drop (0 + before.length + 1) = behind := by
      simp [parts, List.drop_append]
    simp only [result, Checked.ok_bind, writeFound, behind']
    rcases stopFrom_eq (some k) (0 + before.length + 1) behind with
      ⟨body, after, rfl, inside, closed, new, stop⟩
      | ⟨pre, entry, post, rfl, inside, earlier, noHeader, asked, key, stop⟩
    · have opened : SectionAt c.pool.entries s before header body after :=
        ⟨parts, first, named, inside, closed⟩
      by_cases final : after = []
      · have last : ¬ InsertsBeforeHeader c.pool.entries s k := by
          rintro ⟨before', header', body', after', opened', filled, -⟩
          exact filled ((opened.unique opened').2 ▸ final)
        rw [if_pos final] at stop
        simp only [stop, Checked.ok_bind]
        simp [last]
      · have inserts : InsertsBeforeHeader c.pool.entries s k :=
          ⟨before, header, body, after, opened, final, fun x member => new x member rfl⟩
        rw [← insertBefore_returns_iff c.pool (0 + before.length + 1 + body.length) k v]
        rw [if_neg final] at stop
        simp only [stop, Checked.ok_bind, inserts, true_imp_iff]
        cases c.pool.insertBefore (0 + before.length + 1 + body.length) k v <;> simp
    · have found : ¬ InsertsBeforeHeader c.pool.entries s k := by
        rintro ⟨before', header', body', after', opened', -, new⟩
        obtain ⟨post, after, rfl, inside', closed⟩ := exists_section_end post
        have whole : NoHeader (pre ++ entry :: post) :=
          noHeader_append.mpr ⟨inside, List.forall_mem_cons.mpr ⟨noHeader, inside'⟩⟩
        have opened : SectionAt c.pool.entries s before header (pre ++ entry :: post) after :=
          ⟨by simp [parts], first, named, whole, closed⟩
        obtain ⟨rfl, -⟩ := opened.unique opened'
        exact new entry (by simp) key
      simp only [stop, Checked.ok_bind, updateEntry]
      simp [found]

end Cvos.CfgFile

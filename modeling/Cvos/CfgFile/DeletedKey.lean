import Cvos.CfgFile.FileCycle
import Cvos.CfgFile.SlotBounds

/-! What `cfg_find` finds of a key that `cfg_write` has deleted. A delete takes out one entry, the
first one with the very id, but a search compares ids without their quotes.
-/

namespace Cvos.CfgFile

open Cvos.Lib

/-- The entries have the key at most once, and not in quotes. -/
structure KeyOnce (body : List Entry) (k : Bytes) : Prop where
  once : body.countP (fun e => e.keyOf = some k) ≤ 1
  unquoted : ∀ e ∈ body, e.keyOf = some k → e.id = some k

/-- The body of a section, of which a section that is missing has none. -/
def bodyOf (es : List Entry) (s : Bytes) : List Entry := (sectionBody es s).getD []

/-- A lookup finds nothing when no entry has the key. -/
theorem lookup_eq_none_iff (es : List Entry) (k : Bytes)
    : lookup es k = none ↔ ∀ e ∈ es, e.keyOf ≠ some k := by
  rw [lookup_eq_find?, Option.bind_eq_none_iff]
  constructor
  · intro valueless e member key
    cases found : es.find? (fun e => e.keyOf = some k) with
    | none =>
        have passed := List.find?_eq_none.mp found e member
        exact passed (by simpa using key)
    | some first =>
        have first' : first.keyOf = some k := by simpa using List.find?_some found
        have shown := value_of_keyOf first'
        rw [valueless first found] at shown
        contradiction
  · intro missing first found
    have key : first.keyOf = some k := by simpa using List.find?_some found
    exact absurd key (missing first (List.mem_of_find?_eq_some found))

/-- A search in a section finds no value when no entry of its body has the key. -/
theorem lookupIn_eq_none_iff (es : List Entry) (s k : Bytes)
    : lookupIn es s (some k) = none ↔ ∀ e ∈ bodyOf es s, e.keyOf ≠ some k := by
  rw [lookupIn, bodyOf]
  cases sectionBody es s with
  | none => simp
  | some body =>
      rw [Option.bind_some, Option.map_eq_none_iff, lookup_eq_none_iff, Option.getD_some]

/-- A comment has no key. -/
theorem keyOf_comment {e : Entry} (comment : e.isBlockComment) (k : Bytes) : e.keyOf ≠ some k := by
  intro key
  obtain ⟨id, known, -⟩ := id_of_keyOf key
  obtain ⟨sectionName, id', value, text⟩ := e
  cases known
  cases sectionName <;> simp [CfgEntry.isBlockComment] at comment

/-- Among entries without the id, the key is there once and unquoted if it is not there at all. -/
theorem keyOnce_of_missing {body : List Entry} {k : Bytes} (missing : ∀ e ∈ body, e.id ≠ some k)
    : KeyOnce body k ↔ ∀ e ∈ body, e.keyOf ≠ some k := by
  constructor
  · intro once e member key
    exact missing e member (once.unquoted e member key)
  · intro nowhere
    constructor
    · rw [List.countP_eq_zero.mpr (by simpa using nowhere)]
      exact Nat.zero_le 1
    · intro e member key
      exact absurd key (nowhere e member)

/-- What is left of the entries with one of them taken out, and some comments, has the key no more
exactly when they had it once and unquoted.
-/
theorem keyOnce_of_removed {pre block post : List Entry} {e : Entry} {k : Bytes}
    (comments : ∀ x ∈ block, x.isBlockComment) (id : e.id = some k) (key : e.keyOf = some k)
    : KeyOnce (pre ++ block ++ e :: post) k ↔ ∀ x ∈ pre ++ post, x.keyOf ≠ some k := by
  have none : block.countP (fun e => e.keyOf = some k) = 0 :=
    List.countP_eq_zero.mpr fun x member => by simpa using keyOf_comment (comments x member) k
  have count
      : (pre ++ block ++ e :: post).countP (fun e => e.keyOf = some k)
        = (pre ++ post).countP (fun e => e.keyOf = some k) + 1 := by
    simp only [List.countP_append, List.countP_cons, none, key, decide_true, if_true]
    omega
  constructor
  · intro once
    have rest : (pre ++ post).countP (fun e => e.keyOf = some k) = 0 := by
      have bound := once.once
      omega
    simpa using List.countP_eq_zero.mp rest
  · intro nowhere
    constructor
    · rw [count, List.countP_eq_zero.mpr (by simpa using nowhere)]
    · intro x member found
      simp only [List.mem_append, List.mem_cons] at member
      rcases member with (before | comment) | rfl | behind
      · exact absurd found (nowhere x (List.mem_append_left _ before))
      · exact absurd found (keyOf_comment (comments x comment) k)
      · exact id
      · exact absurd found (nowhere x (List.mem_append_right _ behind))

/-- After a delete of a key, a search for it finds nothing exactly when the section had it once and
unquoted.
-/
theorem Edited.lookupIn_deleted {s k : Bytes} {es es' : List Entry}
    (edited : Edited s es (some k) none es') (plain : PlainId k)
    (valued : ∀ e ∈ es, e.id.isSome → e.value.isSome)
    : lookupIn es' s (some k) = none ↔ KeyOnce (bodyOf es s) k := by
  cases edited with
  | ignore missing delete =>
      have nowhere := sectionBody_append missing []
      rw [List.append_nil] at nowhere
      have body : bodyOf es s = [] := by rw [bodyOf, nowhere]; rfl
      rw [lookupIn_eq_none_iff, body]
      exact iff_of_true (by simp) ⟨by simp, by simp⟩
  | @keep id before header body after opened missing =>
      have found : bodyOf es s = body := by rw [bodyOf, opened.sectionBody_eq]; rfl
      rw [lookupIn_eq_none_iff, found, keyOnce_of_missing missing]
  | @deleteKey id before header after pre block e post opened comments key =>
      have found : bodyOf es s = pre ++ block ++ e :: post := by
        rw [bodyOf, opened.sectionBody_eq]
        rfl
      have left
          : bodyOf (before ++ header :: ((pre ++ post) ++ after)) s = pre ++ post := by
        rw [bodyOf, (opened.exchange opened.inside.remove).sectionBody_eq]
        rfl
      have noHeader : e.sectionName = none := opened.inside e (by simp)
      have shown := valued e (by rw [opened.parts]; simp) (by simp [key])
      obtain ⟨value, shown⟩ := Option.isSome_iff_exists.mp shown
      have named : e.keyOf = some k := by
        simp [CfgEntry.keyOf, CfgEntry.binding, noHeader, key, shown, plain.removeQuotes_eq]
      rw [lookupIn_eq_none_iff, left, found, keyOnce_of_removed comments key named]

/-- After a delete of a key, `cfg_find` finds the key no more exactly when the first section of the
name had it once and unquoted.
-/
theorem cfgFind_deleted_iff (image : Bytes) (nulFree : NulFree image) (c : Config)
    (parsed : Parsed image c) (s k : Bytes) (plain : PlainId k)
    : (∀ c',
        cfgWrite c (some s) (some k) none = .ok (0, c')
        → ∃ c'', cfgFind c' (some s) (some k) = .ok (-1, c''))
      ↔ KeyOnce (bodyOf c.pool.entries s) k := by
  obtain ⟨valid, -, entries⟩ := parsed.entries nulFree
  have valued : ∀ e ∈ c.pool.entries, e.id.isSome → e.value.isSome := by
    rw [entries]
    intro e member
    obtain ⟨line, -, parsed⟩ := List.mem_filterMap.mp member
    exact parseLine_value parsed
  obtain ⟨c', written⟩ := cfgWrite_deleteKey valid s k
  obtain ⟨-, valid', -, edited⟩ := cfgWrite_edited valid written
  have search := findValue_named valid' s (some k)
  rw [← edited.lookupIn_deleted plain valued]
  constructor
  · intro deleted
    obtain ⟨c'', found⟩ := deleted c' written
    rw [findValue, found, Checked.ok_bind] at search
    exact (Except.ok.inj search).symm
  · intro nothing c₁ again
    obtain ⟨-, rfl⟩ := Prod.mk.inj (Except.ok.inj (written.symm.trans again))
    rw [nothing] at search
    exact cfgFind_none search

instance (body : List Entry) (k : Bytes) : Decidable (KeyOnce body k) :=
  decidable_of_iff
    (body.countP (fun e => e.keyOf = some k) ≤ 1 ∧ ∀ e ∈ body, e.keyOf = some k → e.id = some k)
    ⟨fun both => ⟨both.1, both.2⟩, fun once => ⟨once.once, once.unquoted⟩⟩

/-- Witness: a key that stands behind a comment is deleted. -/
theorem cfgFind_deleted_iff_comment
    : ∃ c' c'',
        cfgWrite (parseOf (text "[s]\n;n\nk=1\n")) (some (text "s")) (some (text "k")) none
          = .ok (0, c')
        ∧ cfgFind c' (some (text "s")) (some (text "k")) = .ok (-1, c'') := by
  have nulFree : NulFree (text "[s]\n;n\nk=1\n") := by decide
  have parsed := parsed_parseOf nulFree
  obtain ⟨c', written⟩ := cfgWrite_deleteKey (parsed.entries nulFree).1 (text "s") (text "k")
  obtain ⟨c'', missed⟩ :=
    (cfgFind_deleted_iff _ nulFree _ parsed _ _ ⟨by decide, by decide⟩).mpr (by decide) _ written
  exact ⟨c', c'', written, missed⟩

/-- A key in quotes is not deleted. -/
theorem cfgFind_deleted_quoted
    : ¬ ∀ image c c' s k,
        NulFree image
        → Parsed image c
        → PlainId k
        → cfgWrite c (some s) (some k) none = .ok (0, c')
        → ∃ c'', cfgFind c' (some s) (some k) = .ok (-1, c'') := by
  intro always
  have nulFree : NulFree (text "[s]\n\"k\"=1\n") := by decide
  obtain ⟨c'', missed⟩ := always _ _ _ (text "s") (text "k") nulFree (parsed_parseOf nulFree)
    ⟨by decide, by decide⟩ rfl
  cases missed

end Cvos.CfgFile

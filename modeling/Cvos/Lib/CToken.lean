import Cvos.Lib.CMemory

/-! `strtok` cuts a string into tokens: it writes a NUL behind each token and keeps a pointer to
where the next call goes on. All that it ever writes are NULs, so a token never grows again.
-/

namespace Cvos.Lib

/-- A block of memory, with the pointer that `strtok` keeps into it. -/
structure Tokenizer where
  mem : Bytes
  save : Nat
  deriving DecidableEq, Repr

/-- `strtok (NULL, delim)`: the token, if there is one. -/
def Tokenizer.next (t : Tokenizer) (delim : Bytes) : Checked (Option Nat × Tokenizer) := do
  let start ← scanWhile t.mem (fun c => c != 0 && delim.contains c) t.save
  let first ← load t.mem start
  if first = 0 then
    .ok (none, ⟨t.mem, start⟩)
  else
    let stop ← scanWhile t.mem (fun c => c != 0 && !delim.contains c) start
    let last ← load t.mem stop
    if last = 0 then
      .ok (some start, ⟨t.mem, stop⟩)
    else do
      let mem ← store t.mem stop 0
      .ok (some start, ⟨mem, stop + 1⟩)

/-- `strtok (p, delim)` -/
def Tokenizer.strtok (t : Tokenizer) (p : Nat) (delim : Bytes)
    : Checked (Option Nat × Tokenizer) :=
  Tokenizer.next ⟨t.mem, p⟩ delim

/-- A byte that a token may have. -/
def InToken (delim : Bytes) (c : UInt8) : Prop := c ≠ 0 ∧ c ∉ delim

instance (delim : Bytes) (c : UInt8) : Decidable (InToken delim c) :=
  inferInstanceAs (Decidable (c ≠ 0 ∧ c ∉ delim))

/-- A byte that ends a token. -/
def EndsToken (delim : Bytes) (c : UInt8) : Prop := c = 0 ∨ c ∈ delim

section Tokens

variable {delim : Bytes} (before skipped after : Bytes)

/-- Delimiters are skipped up to a byte that is none. -/
theorem scanWhile_delims (passed : ∀ c ∈ skipped, c ≠ 0 ∧ c ∈ delim) {stop : UInt8}
    (stops : stop = 0 ∨ stop ∉ delim)
    : scanWhile (before ++ (skipped ++ stop :: after)) (fun c => c != 0 && delim.contains c)
        before.length
      = .ok (before.length + skipped.length) := by
  refine scanWhile_append before after (by simpa using passed) ?_
  simpa [or_iff_not_imp_left] using stops

/-- Behind delimiters, the next token is cut off at the byte that ends it. -/
theorem Tokenizer.next_token (passed : ∀ c ∈ skipped, c ≠ 0 ∧ c ∈ delim) {token : Bytes}
    (filled : token ≠ []) (inside : ∀ c ∈ token, InToken delim c) {stop : UInt8}
    (ends : EndsToken delim stop)
    : Tokenizer.next ⟨before ++ (skipped ++ (token ++ stop :: after)), before.length⟩ delim
      = .ok
          (some (before.length + skipped.length),
            ⟨before ++ (skipped ++ (token ++ 0 :: after)),
              before.length + skipped.length + token.length + if stop = 0 then 0 else 1⟩) := by
  obtain ⟨first, token', rfl⟩ := List.exists_cons_of_ne_nil filled
  obtain ⟨nonzero, other⟩ := inside first List.mem_cons_self
  have begins := scanWhile_delims before skipped (token' ++ stop :: after) passed (.inr other)
  have readFirst := load_behind before (token' ++ stop :: after) skipped first
  have kept : ∀ c ∈ first :: token', (c != 0 && !delim.contains c) = true := by
    intro c member
    simpa [InToken] using inside c member
  have stops : (stop != 0 && !delim.contains stop) = false := by
    rcases ends with rfl | delimiter
    · simp
    · simp [delimiter]
  have scanned := scanWhile_append (before ++ skipped) after kept stops
  have readLast := load_behind (before ++ skipped) after (first :: token') stop
  have written := store_behind (before ++ skipped) after (first :: token') stop 0
  rw [List.length_append, List.append_assoc] at scanned readLast
  rw [List.length_append, List.append_assoc, List.append_assoc] at written
  rw [Tokenizer.next]
  simp only [List.cons_append] at begins readFirst scanned readLast written ⊢
  simp only [begins, Checked.ok_bind, readFirst, if_neg nonzero, scanned, readLast]
  by_cases last : stop = 0
  · subst last
    simp
  · simp only [if_neg last, written, Checked.ok_bind]

/-- Behind delimiters up to the end of the string, there is no token. -/
theorem Tokenizer.next_none (passed : ∀ c ∈ skipped, c ≠ 0 ∧ c ∈ delim)
    : Tokenizer.next ⟨before ++ (skipped ++ 0 :: after), before.length⟩ delim
      = .ok (none, ⟨before ++ (skipped ++ 0 :: after), before.length + skipped.length⟩) := by
  have begins := scanWhile_delims before skipped after passed (.inl rfl)
  have read := load_behind before after skipped 0
  rw [Tokenizer.next]
  simp only [begins, Checked.ok_bind, read, if_true]

end Tokens

-----------------------------------------------------------------------------------------
-- Only NULs are written
-----------------------------------------------------------------------------------------

/-- Memory in which some bytes from an address on have become NUL. -/
structure CutFrom (p : Nat) (mem mem' : Bytes) : Prop where
  earlier : ∀ k < p, mem'[k]? = mem[k]?
  zeros : ∀ k : Nat, mem[k]? = some 0 → mem'[k]? = some 0

/-- Memory in which nothing was cut. -/
theorem CutFrom.refl (p : Nat) (mem : Bytes) : CutFrom p mem mem := ⟨fun _ _ => rfl, fun _ => id⟩

/-- Memory in which nothing was cut in front of an earlier address either. -/
theorem CutFrom.mono {p q : Nat} {mem mem' : Bytes} (cut : CutFrom p mem mem') (order : q ≤ p)
    : CutFrom q mem mem' :=
  ⟨fun k below => cut.earlier k (Nat.lt_of_lt_of_le below order), cut.zeros⟩

/-- Memory that is cut further on. -/
theorem CutFrom.trans {p q : Nat} {mem mem' mem'' : Bytes} (cut : CutFrom p mem mem')
    (further : CutFrom q mem' mem'') (order : p ≤ q)
    : CutFrom p mem mem'' where
  earlier := fun k below =>
    (further.earlier k (Nat.lt_of_lt_of_le below order)).trans (cut.earlier k below)
  zeros := fun k zero => further.zeros k (cut.zeros k zero)

/-- A text that ends in front of the address stays, and so does the NUL behind it. -/
theorem CutFrom.text {p : Nat} {text after mem' : Bytes} (cut : CutFrom p (text ++ 0 :: after) mem')
    (front : text.length ≤ p)
    : ∃ after', mem' = text ++ 0 :: after' := by
  refine ⟨mem'.drop (text.length + 1), ?_⟩
  have zero := cut.zeros text.length (by simp)
  obtain ⟨inside, zero⟩ := List.getElem?_eq_some_iff.mp zero
  have same : mem'.take text.length = text := by
    refine List.ext_getElem? fun k => ?_
    rw [List.getElem?_take]
    split
    next below =>
      rw [cut.earlier k (Nat.lt_of_lt_of_le below front), List.getElem?_append_left below]
    next beyond => rw [List.getElem?_eq_none (Nat.le_of_not_lt beyond)]
  calc
    mem' = mem'.take text.length ++ mem'.drop text.length := (List.take_append_drop ..).symm
    _ = text ++ 0 :: mem'.drop (text.length + 1) := by
      rw [same, List.drop_eq_getElem_cons inside, zero]

/-- A string ends at a NUL at the latest. -/
theorem length_cstring_le {mem : Bytes} {p n : Nat} (zero : mem[p + n]? = some 0)
    : (cstring mem p).length ≤ n := by
  by_contra longer
  have inside : n < (cstring mem p).length := Nat.lt_of_not_le longer
  have member : (cstring mem p)[n] ∈ cstring mem p := List.getElem_mem inside
  obtain ⟨_, value⟩ := List.getElem?_eq_some_iff.mp zero
  have same : (cstring mem p)[n] = 0 := by
    have front := (List.takeWhile_prefix (· ≠ 0) (l := mem.drop p)).getElem inside
    rw [List.getElem_drop] at front
    exact front.trans value
  have nonzero := List.mem_takeWhile_imp member
  simp [same] at nonzero

/-- A string that was cut off is not longer, whatever is cut later. -/
theorem CutFrom.length_cstring {p : Nat} {before text after mem' : Bytes}
    (cut : CutFrom p (before ++ (text ++ 0 :: after)) mem')
    : (cstring mem' before.length).length ≤ text.length :=
  length_cstring_le (cut.zeros (before.length + text.length) (by simp))

/-- A scan does not go back. -/
theorem le_scanWhile {mem : Bytes} {keep : UInt8 → Bool} {p q : Nat}
    (scanned : scanWhile mem keep p = .ok q)
    : p ≤ q := by
  rw [scanWhile] at scanned
  generalize mem.drop p = rest at scanned
  induction rest generalizing p with
  | nil => contradiction
  | cons c rest ih =>
      rw [scanFrom] at scanned
      split at scanned
      next => exact Nat.le_of_succ_le (ih scanned)
      next => exact Nat.le_of_eq (Except.ok.inj scanned)

/-- Where a string has ended, there is no token. -/
theorem Tokenizer.next_again {t t' : Tokenizer} {delim : Bytes}
    (ended : t.next delim = .ok (none, t')) (delim' : Bytes)
    : t'.next delim' = .ok (none, t') := by
  rw [Tokenizer.next] at ended
  obtain ⟨start, -, ended⟩ := Checked.bind_eq_ok.mp ended
  obtain ⟨first, read, ended⟩ := Checked.bind_eq_ok.mp ended
  split at ended
  next last =>
    subst last
    obtain ⟨-, rfl⟩ := Prod.mk.inj (Except.ok.inj ended)
    obtain ⟨inside, value⟩ : ∃ inside : start < t.mem.length, t.mem[start] = 0 := by
      refine List.getElem?_eq_some_iff.mp ?_
      cases found : t.mem[start]? with
      | none => simp [load, found] at read
      | some c =>
          obtain rfl : c = 0 := by simpa [load, found] using read
          rfl
    have stops : scanWhile t.mem (fun c => c != 0 && delim'.contains c) start = .ok start := by
      rw [scanWhile, List.drop_eq_getElem_cons inside, value]
      rfl
    rw [Tokenizer.next]
    simp only [stops, Checked.ok_bind, read, if_true]
  next =>
    obtain ⟨_, -, ended⟩ := Checked.bind_eq_ok.mp ended
    obtain ⟨_, -, ended⟩ := Checked.bind_eq_ok.mp ended
    split at ended
    next => simp at ended
    next =>
      obtain ⟨_, -, ended⟩ := Checked.bind_eq_ok.mp ended
      simp at ended

/-- `strtok` writes at most a NUL, behind the pointer that it has kept, which it moves on. -/
theorem Tokenizer.next_cut {t t' : Tokenizer} {delim : Bytes} {token : Option Nat}
    (returned : t.next delim = .ok (token, t'))
    : CutFrom t.save t.mem t'.mem ∧ t.save ≤ t'.save := by
  rw [Tokenizer.next] at returned
  obtain ⟨start, skipped, returned⟩ := Checked.bind_eq_ok.mp returned
  obtain ⟨first, -, returned⟩ := Checked.bind_eq_ok.mp returned
  have begins := le_scanWhile skipped
  split at returned
  next =>
    obtain ⟨-, rfl⟩ := Prod.mk.inj (Except.ok.inj returned)
    exact ⟨.refl _ _, begins⟩
  next =>
    obtain ⟨stop, scanned, returned⟩ := Checked.bind_eq_ok.mp returned
    obtain ⟨last, -, returned⟩ := Checked.bind_eq_ok.mp returned
    have ends := le_scanWhile scanned
    split at returned
    next =>
      obtain ⟨-, rfl⟩ := Prod.mk.inj (Except.ok.inj returned)
      exact ⟨.refl _ _, Nat.le_trans begins ends⟩
    next =>
      obtain ⟨mem, stored, returned⟩ := Checked.bind_eq_ok.mp returned
      obtain ⟨-, rfl⟩ := Prod.mk.inj (Except.ok.inj returned)
      rw [store] at stored
      split at stored
      next inside =>
        obtain rfl := Except.ok.inj stored
        refine ⟨⟨fun k below => ?_, fun k zero => ?_⟩, by simp only; omega⟩
        · exact List.getElem?_set_ne (by omega)
        · rw [List.getElem?_set]
          split
          next => simp
          next => exact zero
      next => contradiction

/-- `strtok` writes at most a NUL. -/
theorem Tokenizer.strtok_cut {t t' : Tokenizer} {p : Nat} {delim : Bytes} {token : Option Nat}
    (returned : t.strtok p delim = .ok (token, t'))
    : CutFrom 0 t.mem t'.mem :=
  (Tokenizer.next_cut returned).1.mono (Nat.zero_le p)

end Cvos.Lib

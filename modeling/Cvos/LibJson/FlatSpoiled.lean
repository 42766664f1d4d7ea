import Cvos.LibJson.FlatTokens

/-! What becomes of a pair that has a delimiter where the format has none. Its token ends at the
first comma, and the name in it at the first colon, and what was cut off never comes back.
-/

namespace Cvos.LibJson

open Cvos.Lib

/-- No more than NULs is written while tokens are split. -/
theorem splitTokens_cut {tokens : List Nat} {t t' : Tokenizer}
    {pairs : List (Option Nat × Option Nat)} (split : splitTokens tokens t = .ok (pairs, t'))
    : CutFrom 0 t.mem t'.mem := by
  induction tokens generalizing t pairs with
  | nil =>
      obtain ⟨-, rfl⟩ := Prod.mk.inj (Except.ok.inj split)
      exact .refl 0 t.mem
  | cons token tokens ih =>
      rw [splitTokens] at split
      obtain ⟨⟨temp1, t₁⟩, first, split⟩ := Checked.bind_eq_ok.mp split
      obtain ⟨⟨temp2, t₂⟩, second, split⟩ := Checked.bind_eq_ok.mp split
      have rest := (Tokenizer.next_cut second).1.mono (Nat.zero_le t₁.save)
      have cut := (Tokenizer.strtok_cut first).trans rest (Nat.le_refl 0)
      cases temp1 with
      | none =>
          obtain ⟨-, rfl⟩ := Prod.mk.inj (Except.ok.inj split)
          exact cut
      | some temp1 =>
          cases temp2 with
          | none =>
              obtain ⟨-, rfl⟩ := Prod.mk.inj (Except.ok.inj split)
              exact cut
          | some temp2 =>
              obtain ⟨_, -, split⟩ := Checked.bind_eq_ok.mp split
              obtain ⟨⟨name, t₃⟩, third, split⟩ := Checked.bind_eq_ok.mp split
              obtain ⟨_, -, split⟩ := Checked.bind_eq_ok.mp split
              obtain ⟨⟨value, t₄⟩, fourth, split⟩ := Checked.bind_eq_ok.mp split
              obtain ⟨⟨others, t₅⟩, onward, split⟩ := Checked.bind_eq_ok.mp split
              obtain ⟨-, rfl⟩ := Prod.mk.inj (Except.ok.inj split)
              have cut := cut.trans (Tokenizer.strtok_cut third) (Nat.le_refl 0)
              have cut := cut.trans (Tokenizer.strtok_cut fourth) (Nat.le_refl 0)
              exact cut.trans (ih onward) (Nat.le_refl 0)

/-- No more than NULs is written while tokens are cut. -/
theorem cutTokens_cut {count : Nat} {t t' : Tokenizer} {tokens : List Nat}
    (cut : cutTokens count t = .ok (tokens, t'))
    : CutFrom t.save t.mem t'.mem := by
  induction count generalizing t tokens with
  | zero =>
      obtain ⟨-, rfl⟩ := Prod.mk.inj (Except.ok.inj cut)
      exact .refl _ _
  | succ count ih =>
      rw [cutTokens] at cut
      obtain ⟨⟨token, t₁⟩, first, cut⟩ := Checked.bind_eq_ok.mp cut
      obtain ⟨written, onward⟩ := Tokenizer.next_cut first
      cases token with
      | none =>
          obtain ⟨-, rfl⟩ := Prod.mk.inj (Except.ok.inj cut)
          exact written
      | some token =>
          obtain ⟨⟨others, t₂⟩, rest, cut⟩ := Checked.bind_eq_ok.mp cut
          obtain ⟨-, rfl⟩ := Prod.mk.inj (Except.ok.inj cut)
          exact written.trans (ih rest) onward

/-- A token that is cut first stays as it is while others are cut. -/
theorem cutTokens_first (before : Bytes) {token : Bytes} (filled : token ≠ [])
    (inside : ∀ c ∈ token, InToken [comma] c) {stop : UInt8} (ends : EndsToken [comma] stop)
    {after : Bytes} {count : Nat} {tokens : List Nat} {t : Tokenizer}
    (cut
      : cutTokens (count + 1) ⟨before ++ (token ++ stop :: after), before.length⟩ = .ok (tokens, t))
    : ∃ others after',
        tokens = before.length :: others ∧ t.mem = before ++ (token ++ 0 :: after') := by
  rw [cutTokens_token before filled inside ends] at cut
  obtain ⟨⟨others, t₁⟩, rest, same⟩ := Checked.map_eq_ok.mp cut
  obtain ⟨rfl, rfl⟩ := Prod.mk.inj same
  have written := cutTokens_cut rest
  rw [← List.append_assoc] at written
  obtain ⟨after', kept⟩ := written.text (by simp only [List.length_append]; omega)
  exact ⟨others, after', rfl, by rw [kept, List.append_assoc]⟩

-----------------------------------------------------------------------------------------
-- Tokens that do not hold their pair
-----------------------------------------------------------------------------------------

/-- However a token goes on behind it, the first pair that is cut out of it is not the member. -/
def Spoils (token : Bytes) (m : Member) : Prop :=
  ∀ (before after : Bytes) (save : Nat) (tokens : List Nat)
      (pairs : List (Option Nat × Option Nat)) (t : Tokenizer),
    splitTokens (before.length :: tokens) ⟨before ++ (token ++ 0 :: after), save⟩ = .ok (pairs, t)
    → (pairs.map (readPair t.mem)).head? ≠ some m.pair

/-- What was cut off behind a quote is null, or no longer than the text up to the cut. -/
theorem strtok_quoted (before : Bytes) {part : Bytes} (inside : ∀ c ∈ part, InToken [quote] c)
    (after : Bytes)
    : ∃ found save,
        Tokenizer.next ⟨before ++ quote :: (part ++ 0 :: after), before.length⟩ [quote]
          = .ok (found, ⟨before ++ quote :: (part ++ 0 :: after), save⟩)
        ∧ ∀ mem' text,
            CutFrom 0 (before ++ quote :: (part ++ 0 :: after)) mem'
            → part.length < text.length
            → found.map (cstring mem') ≠ some text := by
  have quotes : ∀ c ∈ [quote], c ≠ 0 ∧ c ∈ [quote] := by decide
  by_cases empty : part = []
  · subst empty
    have ended := Tokenizer.next_none before [quote] after quotes
    exact ⟨none, _, by simpa using ended, by simp⟩
  · have cut := Tokenizer.next_token before [quote] after quotes empty inside (.inl rfl)
    refine ⟨some (before.length + 1), _, by simpa using cut, ?_⟩
    intro mem' text cutLater shorter same
    have shape
        : before ++ quote :: (part ++ 0 :: after)
          = (before ++ [quote]) ++ (part ++ 0 :: after) := by
      simp
    rw [shape] at cutLater
    have bound := cutLater.length_cstring
    rw [List.length_append, List.length_singleton, Option.some.inj same] at bound
    omega

/-- An ordinary byte ends no token at a colon or a comma. -/
theorem Ordinary.inToken {c : UInt8} (ordinary : Ordinary c)
    : InToken [colon] c ∧ InToken [comma] c :=
  ⟨⟨ordinary.1, by simpa using ordinary.2.2.1⟩, ⟨ordinary.1, by simpa using ordinary.2.1⟩⟩

/-- The front of a token has no colon up to one in its name. -/
theorem front_inToken {m : Member} (packed : m.Packed) {part : Bytes}
    (inside : ∀ c ∈ part, InToken [colon] c)
    : ∀ c ∈ m.lead ++ quote :: part, InToken [colon] c :=
  List.forall_mem_append.mpr
    ⟨fun c front => (packed.lead c front).inToken.1, List.forall_mem_cons.mpr ⟨by decide, inside⟩⟩

/-- The front of a token has no comma up to one in its name or value. -/
theorem front_inToken_comma {m : Member} (packed : m.Packed) {part : Bytes}
    (inside : ∀ c ∈ part, InToken [comma] c)
    : ∀ c ∈ m.lead ++ quote :: part, InToken [comma] c :=
  List.forall_mem_append.mpr
    ⟨fun c front => (packed.lead c front).inToken.2, List.forall_mem_cons.mpr ⟨by decide, inside⟩⟩

/-- Behind the end of the string, there is no rest of a token. -/
theorem next_rest_nil (before after : Bytes)
    : Tokenizer.next ⟨before ++ 0 :: after, before.length⟩ []
      = .ok (none, ⟨before ++ 0 :: after, before.length⟩) := by
  have nothing : ∀ c ∈ ([] : Bytes), c ≠ 0 ∧ c ∈ ([] : Bytes) := by simp
  simpa using Tokenizer.next_none before [] after nothing

/-- A token without a colon ends the parsing. -/
theorem spoils_name_comma {m : Member} (packed : m.Packed) {part : Bytes}
    (inside : ∀ c ∈ part, InToken [colon] c)
    : Spoils (m.lead ++ quote :: part) m := by
  intro before after save tokens pairs t split
  have cut :=
    Tokenizer.next_token before [] after (by simp) (by simp) (front_inToken packed inside)
      (.inl rfl)
  have ended := next_rest_nil (before ++ (m.lead ++ quote :: part)) after
  rw [List.append_assoc] at ended
  simp only [List.nil_append, List.length_nil, Nat.add_zero, if_true, ← List.length_append] at cut
  rw [splitTokens, Tokenizer.strtok, cut, Checked.ok_bind] at split
  simp only [ended, Checked.ok_bind] at split
  obtain ⟨rfl, -⟩ := Prod.mk.inj (Except.ok.inj split)
  simp

/-- A name that has a colon is cut off there. -/
theorem spoils_name_colon {m : Member} (packed : m.Packed) {part rest : Bytes}
    (inside : ∀ c ∈ part, InToken [colon] c) (unquoted : ∀ c ∈ part, InToken [quote] c)
    (nulFree : ∀ c ∈ rest, c ≠ 0) (shorter : part.length < m.name.length)
    : Spoils (m.lead ++ quote :: (part ++ colon :: rest)) m := by
  intro before after save tokens pairs t split
  have shape
      : before ++ (m.lead ++ quote :: (part ++ colon :: rest) ++ 0 :: after)
        = before ++ ([] ++ ((m.lead ++ quote :: part) ++ colon :: (rest ++ 0 :: after))) := by
    simp
  have cut :=
    Tokenizer.next_token before [] (rest ++ 0 :: after) (by simp) (by simp)
      (front_inToken packed inside) (.inr (List.mem_singleton.mpr rfl))
  have colonCut
      : before ++ ([] ++ ((m.lead ++ quote :: part) ++ 0 :: (rest ++ 0 :: after)))
        = before ++ (m.lead ++ quote :: (part ++ [0])) ++ (rest ++ 0 :: after) := by
    simp
  have place
      : before.length + ([] : Bytes).length + (m.lead ++ quote :: part).length + 1
        = (before ++ (m.lead ++ quote :: (part ++ [0]))).length := by
    simp only [List.length_append, List.length_cons, List.length_nil]
    omega
  rw [if_neg (by decide), colonCut, place] at cut
  rw [shape, splitTokens, Tokenizer.strtok, cut, Checked.ok_bind] at split
  simp only at split
  by_cases last : rest = []
  · subst last
    rw [List.nil_append, next_rest_nil, Checked.ok_bind] at split
    obtain ⟨rfl, -⟩ := Prod.mk.inj (Except.ok.inj split)
    simp
  · have inRest : ∀ c ∈ rest, InToken [] c := fun c member =>
      ⟨nulFree c member, List.not_mem_nil⟩
    have kept :=
      Tokenizer.next_token (before ++ (m.lead ++ quote :: (part ++ [0]))) [] after (by simp) last
        inRest (.inl rfl)
    have named
        : before ++ (m.lead ++ quote :: (part ++ [0])) ++ (rest ++ 0 :: after)
          = before ++ m.lead ++ quote :: (part ++ 0 :: (rest ++ 0 :: after)) := by
      simp
    have passed : ∀ c ∈ m.lead, (c != quote) = true := fun c front => by
      simpa using (packed.lead c front).2.2.2
    have scanned :=
      scanWhile_append before (part ++ 0 :: (rest ++ 0 :: after)) passed (c := quote) (by decide)
    rw [← List.append_assoc, ← List.length_append] at scanned
    obtain ⟨found, save', nameCut, other⟩ :=
      strtok_quoted (before ++ m.lead) unquoted (rest ++ 0 :: after)
    rw [List.nil_append, named] at kept
    rw [named, kept, Checked.ok_bind] at split
    simp only [List.length_nil, Nat.add_zero, scanned, Checked.ok_bind, Tokenizer.strtok,
      nameCut] at split
    obtain ⟨_, -, split⟩ := Checked.bind_eq_ok.mp split
    obtain ⟨⟨value, t₁⟩, cutValue, split⟩ := Checked.bind_eq_ok.mp split
    obtain ⟨⟨others, t₂⟩, onward, split⟩ := Checked.bind_eq_ok.mp split
    obtain ⟨rfl, rfl⟩ := Prod.mk.inj (Except.ok.inj split)
    have later :=
      ((Tokenizer.next_cut cutValue).1.mono (Nat.zero_le _)).trans (splitTokens_cut onward)
        (Nat.le_refl 0)
    have name := other _ m.name later shorter
    intro same
    rw [List.map_cons, List.head?_cons, Option.some.injEq] at same
    exact name (congrArg Prod.fst same)

/-- A value that has a comma is cut off there. -/
theorem spoils_value {m : Member} (packed : m.Packed) (whole : ∀ c ∈ m.name, c ≠ colon)
    {part : Bytes} (inside : ∀ c ∈ part, InToken [quote] c)
    (shorter : part.length < m.value.length)
    : Spoils (m.lead ++ quote :: (m.name ++ quote :: colon :: quote :: part)) m := by
  intro before after save tokens pairs t split
  have nulFree : ∀ c ∈ part, c ≠ 0 := fun c member => (inside c member).1
  have shape
      : before ++ (m.lead ++ quote :: (m.name ++ quote :: colon :: quote :: part) ++ 0 :: after)
        = before ++ (m.lead ++ quote :: (m.name ++ quote :: colon :: quote ::
            (part ++ 0 :: after))) := by
    simp
  obtain ⟨found, save', cut, other⟩ :=
    strtok_quoted (before ++ cutName m.lead m.name) inside after
  rw [shape, splitTokens_name before packed.lead packed.name whole nulFree after tokens save, cut,
    Checked.ok_bind] at split
  obtain ⟨⟨others, t₁⟩, onward, split⟩ := Checked.bind_eq_ok.mp split
  obtain ⟨rfl, rfl⟩ := Prod.mk.inj (Except.ok.inj split)
  have value := other _ m.value (splitTokens_cut onward) shorter
  intro same
  rw [List.map_cons, List.head?_cons, Option.some.injEq] at same
  exact value (congrArg Prod.snd same)

-----------------------------------------------------------------------------------------
-- Every pair with a delimiter has such a token
-----------------------------------------------------------------------------------------

/-- The first byte of a kind in a text. -/
theorem exists_first (kind : UInt8 → Bool) (s : Bytes)
    : (∀ c ∈ s, kind c = false)
      ∨ ∃ part c rest, s = part ++ c :: rest ∧ kind c ∧ ∀ d ∈ part, kind d = false := by
  cases found : s.find? kind with
  | none => exact .inl (by simpa using List.find?_eq_none.mp found)
  | some c =>
      obtain ⟨here, part, rest, parts, earlier⟩ := List.find?_eq_some_iff_append.mp found
      exact .inr ⟨part, c, rest, parts, here, by simpa using earlier⟩

/-- A text with a NUL behind it starts with a token, which may be empty. -/
theorem exists_token_end (s rest : Bytes)
    : ∃ token stop after,
        s ++ 0 :: rest = token ++ stop :: after
        ∧ (∀ c ∈ token, InToken [comma] c)
        ∧ EndsToken [comma] stop := by
  rcases exists_first (fun c => c == 0 || c == comma) s with
    inside | ⟨part, c, after, rfl, ends, inside⟩
  · exact ⟨s, 0, rest, rfl, by simpa [InToken] using inside, .inl rfl⟩
  · exact ⟨part, c, after ++ 0 :: rest, by simp, by simpa [InToken] using inside,
      by simpa [EndsToken] using ends⟩

/-- The text starts with a token that spoils the member. -/
def StartsSpoiled (m : Member) (text : Bytes) : Prop :=
  ∃ token stop after,
    text = token ++ stop :: after
    ∧ token ≠ []
    ∧ (∀ c ∈ token, InToken [comma] c)
    ∧ EndsToken [comma] stop
    ∧ Spoils token m

/-- A delimiter in the name ends the token or the name too early. -/
theorem startsSpoiled_name {m : Member} (packed : m.Packed) {part behindName : Bytes} {c : UInt8}
    (parts : m.name = part ++ c :: behindName) (delimiter : c = comma ∨ c = colon)
    (earlier : ∀ d ∈ part, d ≠ comma ∧ d ≠ colon) (behind rest : Bytes)
    : StartsSpoiled m (m.text ++ (behind ++ 0 :: rest)) := by
  have nulFree : ∀ d ∈ part, d ≠ 0 := fun d member =>
    packed.name.nulFree d (by simp [parts, member])
  have inComma : ∀ d ∈ part, InToken [comma] d := fun d member =>
    ⟨nulFree d member, by simpa using (earlier d member).1⟩
  have inColon : ∀ d ∈ part, InToken [colon] d := fun d member =>
    ⟨nulFree d member, by simpa using (earlier d member).2⟩
  rcases delimiter with rfl | rfl
  · refine ⟨m.lead ++ quote :: part, comma,
      behindName ++ quote :: colon :: quote :: (m.value ++ [quote]) ++ (behind ++ 0 :: rest), ?_,
      by simp, front_inToken_comma packed inComma, .inr (List.mem_singleton.mpr rfl),
      spoils_name_comma packed inColon⟩
    simp [Member.text, pairText, parts]
  · -- What stands behind the colon goes on up to the next comma or the end of the string.
    obtain ⟨others, stop, after, text, inside, ends⟩ :=
      exists_token_end (behindName ++ quote :: colon :: quote :: (m.value ++ [quote]) ++ behind)
        rest
    have unquoted : ∀ d ∈ part, InToken [quote] d := fun d member =>
      packed.name.inToken d (by simp [parts, member])
    have shorter : part.length < m.name.length := by simp [parts]
    have token : ∀ d ∈ part ++ colon :: others, InToken [comma] d :=
      List.forall_mem_append.mpr ⟨inComma, List.forall_mem_cons.mpr ⟨by decide, inside⟩⟩
    refine ⟨m.lead ++ quote :: (part ++ colon :: others), stop, after, ?_, by simp,
      front_inToken_comma packed token, ends,
      spoils_name_colon packed inColon unquoted (fun d member => (inside d member).1) shorter⟩
    have shape
        : m.text ++ (behind ++ 0 :: rest)
          = m.lead ++ quote :: (part ++ colon ::
              (behindName ++ quote :: colon :: quote :: (m.value ++ [quote]) ++ behind
                ++ 0 :: rest)) := by
      simp [Member.text, pairText, parts]
    rw [shape, text]
    simp

/-- A comma in the value ends the token, and with it the value, too early. -/
theorem startsSpoiled_value {m : Member} (packed : m.Packed)
    (clean : ∀ c ∈ m.name, c ≠ comma ∧ c ≠ colon) {part behindValue : Bytes}
    (parts : m.value = part ++ comma :: behindValue) (earlier : ∀ d ∈ part, d ≠ comma)
    (behind rest : Bytes)
    : StartsSpoiled m (m.text ++ (behind ++ 0 :: rest)) := by
  have unquoted : ∀ d ∈ part, InToken [quote] d := fun d member =>
    packed.value.inToken d (by simp [parts, member])
  have shorter : part.length < m.value.length := by simp [parts]
  have inName : ∀ d ∈ m.name, InToken [comma] d := fun d member =>
    ⟨packed.name.nulFree d member, by simpa using (clean d member).1⟩
  have inPart : ∀ d ∈ part, InToken [comma] d := fun d member =>
    ⟨(unquoted d member).1, by simpa using earlier d member⟩
  have token : ∀ d ∈ m.name ++ quote :: colon :: quote :: part, InToken [comma] d := by
    refine List.forall_mem_append.mpr ⟨inName, ?_⟩
    simp only [List.forall_mem_cons]
    exact ⟨by decide, by decide, by decide, inPart⟩
  refine ⟨m.lead ++ quote :: (m.name ++ quote :: colon :: quote :: part), comma,
    behindValue ++ quote :: (behind ++ 0 :: rest), ?_, by simp, front_inToken_comma packed token,
    .inr (List.mem_singleton.mpr rfl),
    spoils_value packed (fun c member => (clean c member).2) unquoted shorter⟩
  simp [Member.text, pairText, parts]

/-- A packed pair that has a delimiter in its name or its value starts with a token that spoils it.
-/
theorem startsSpoiled {m : Member} (packed : m.Packed) (delimited : ¬Undelimited (m.name, m.value))
    (behind rest : Bytes)
    : StartsSpoiled m (m.text ++ (behind ++ 0 :: rest)) := by
  rcases exists_first (fun c => c == comma || c == colon) m.name with
    clean | ⟨part, c, behindName, parts, delimiter, earlier⟩
  · have clean : ∀ c ∈ m.name, c ≠ comma ∧ c ≠ colon := by simpa using clean
    rcases exists_first (fun c => c == comma) m.value with
      whole | ⟨part, c, behindValue, parts, delimiter, earlier⟩
    · exact absurd ⟨clean, by simpa using whole⟩ delimited
    · obtain rfl : c = comma := by simpa using delimiter
      exact startsSpoiled_value packed clean parts (by simpa using earlier) behind rest
  · exact startsSpoiled_name packed parts (by simpa using delimiter) (by simpa using earlier) behind
      rest

end Cvos.LibJson

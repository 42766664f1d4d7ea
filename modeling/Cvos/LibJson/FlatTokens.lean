import Cvos.LibJson.FlatJson

/-! How `osJsonParseMsg` cuts a flat message. A pair whose delimiters stand where the format puts
them is one token, and its name and value are cut out of that token.
-/

namespace Cvos.LibJson

open Cvos.Lib

/-- A pair of a message, with what its token has in front of it. -/
structure Member where
  lead : Bytes
  name : Bytes
  value : Bytes

/-- The text of a member. -/
def Member.text (m : Member) : Bytes := m.lead ++ pairText (m.name, m.value)

/-- The text of a member after its name and value were cut out. -/
def Member.cut (m : Member) : Bytes :=
  m.lead ++ quote :: (m.name ++ 0 :: 0 :: quote :: (m.value ++ [0]))

/-- The pointers to the name and the value of a member at an address. -/
def Member.pointers (m : Member) (p : Nat) : Option Nat × Option Nat :=
  (some (p + m.lead.length + 1), some (p + m.lead.length + m.name.length + 4))

/-- A byte that is neither a NUL nor one of the characters that the parser looks for. -/
def Ordinary (c : UInt8) : Prop := c ≠ 0 ∧ c ≠ comma ∧ c ≠ colon ∧ c ≠ quote

instance (c : UInt8) : Decidable (Ordinary c) :=
  inferInstanceAs (Decidable (c ≠ 0 ∧ c ≠ comma ∧ c ≠ colon ∧ c ≠ quote))

/-- A member whose strings have no NUL and no double quote. -/
structure Member.Packed (m : Member) : Prop where
  lead : ∀ c ∈ m.lead, Ordinary c
  name : Plain m.name
  value : Plain m.value

/-- A packed member whose name and value have no delimiters either. -/
structure Member.Clean (m : Member) : Prop extends m.Packed where
  undelimited : Undelimited (m.name, m.value)

/-- The members with a byte behind each. -/
def sepText (sep : UInt8) (ms : List Member) : Bytes := ms.flatMap fun m => m.text ++ [sep]

/-- The members with a NUL behind each, after their names and values were cut out. -/
def cutText (ms : List Member) : Bytes := ms.flatMap fun m => m.cut ++ [0]

/-- Where the tokens of members start. -/
def starts (p : Nat) : List Member → List Nat
  | [] => []
  | m :: ms => p :: starts (p + (m.text.length + 1)) ms

/-- The pointers to the names and values of members. -/
def pointersAt (p : Nat) : List Member → List (Option Nat × Option Nat)
  | [] => []
  | m :: ms => m.pointers p :: pointersAt (p + (m.text.length + 1)) ms

/-- The name and the value of a member. -/
def Member.pair (m : Member) : Option Bytes × Option Bytes := (some m.name, some m.value)

-----------------------------------------------------------------------------------------
-- Cutting the message at its commas
-----------------------------------------------------------------------------------------

/-- The first call and the loop behind it cut tokens alike. -/
theorem osJsonParseMsg_eq (msgBuf : Bytes)
    : osJsonParseMsg true true (some msgBuf)
      = (do
          let (tokens, t) ← cutTokens maxJsonToken ⟨msgBuf, 0⟩
          let (pointers, t) ← splitTokens tokens t
          .ok ⟨pointers.length, pointers, t.mem⟩) := by
  have count : maxJsonToken = maxJsonToken - 1 + 1 := rfl
  rw [count, cutTokens, osJsonParseMsg, Tokenizer.strtok]
  simp only [Bool.not_true, Bool.or_self, Bool.false_eq_true, if_false]
  cases first : Tokenizer.next ⟨msgBuf, 0⟩ [comma] with
  | error f => rfl
  | ok result =>
      obtain ⟨token, t⟩ := result
      cases token with
      | none =>
          have ended : cutTokens (maxJsonToken - 1) t = .ok ([], t) := by
            have count : maxJsonToken - 1 = maxJsonToken - 2 + 1 := rfl
            rw [count, cutTokens, Tokenizer.next_again first]
            rfl
          simp only [Checked.ok_bind, ended]
      | some token =>
          simp only [Checked.ok_bind]
          cases cutTokens (maxJsonToken - 1) t with
          | error f => rfl
          | ok result => rfl

/-- A token without commas is cut off at the comma or the end of the string. -/
theorem cutTokens_token (before : Bytes) {token : Bytes} (filled : token ≠ [])
    (inside : ∀ c ∈ token, InToken [comma] c) {stop : UInt8} (ends : EndsToken [comma] stop)
    (after : Bytes) (count : Nat)
    : cutTokens (count + 1) ⟨before ++ (token ++ stop :: after), before.length⟩
      = (cutTokens count
            ⟨before ++ (token ++ 0 :: after),
              before.length + token.length + if stop = 0 then 0 else 1⟩).map
          fun (tokens, t) => (before.length :: tokens, t) := by
  have cut := Tokenizer.next_token before [] after (by simp) filled inside ends
  simp only [List.nil_append, List.length_nil, Nat.add_zero] at cut
  rw [cutTokens, cut, Checked.ok_bind]
  simp only
  cases cutTokens count
      ⟨before ++ (token ++ 0 :: after),
        before.length + token.length + if stop = 0 then 0 else 1⟩ with
  | error f => rfl
  | ok result => rfl

/-- A clean member has no comma. -/
theorem Member.Clean.inToken {m : Member} (clean : m.Clean)
    : ∀ c ∈ m.text, InToken [comma] c := by
  intro c member
  have quoted : quote ≠ 0 ∧ quote ≠ comma := by decide
  have separated : colon ≠ 0 ∧ colon ≠ comma := by decide
  simp only [Member.text, pairText, List.mem_append, List.mem_cons, List.not_mem_nil, or_false]
    at member
  simp only [InToken, List.mem_singleton]
  rcases member with lead | rfl | name | rfl | rfl | rfl | value | rfl
  · exact ⟨(clean.lead c lead).1, (clean.lead c lead).2.1⟩
  · exact quoted
  · exact ⟨clean.name.nulFree c name, (clean.undelimited.name c name).1⟩
  · exact quoted
  · exact separated
  · exact quoted
  · exact ⟨clean.value.nulFree c value, clean.undelimited.value c value⟩
  · exact quoted

/-- A member is not empty. -/
theorem Member.text_ne_nil (m : Member) : m.text ≠ [] := by simp [Member.text, pairText]

/-- Clean members are cut off one by one. -/
theorem cutTokens_members {ms : List Member} (clean : ∀ m ∈ ms, m.Clean) (before after : Bytes)
    (count : Nat)
    : cutTokens (ms.length + count) ⟨before ++ (sepText comma ms ++ after), before.length⟩
      = (cutTokens count
            ⟨before ++ (sepText 0 ms ++ after), (before ++ sepText 0 ms).length⟩).map
          fun (tokens, t) => (starts before.length ms ++ tokens, t) := by
  induction ms generalizing before with
  | nil =>
      simp only [sepText, List.length_nil, Nat.zero_add, List.flatMap_nil, List.nil_append, starts,
        List.append_nil]
      cases cutTokens count ⟨before ++ after, before.length⟩ with
      | error f => rfl
      | ok result => rfl
  | cons m ms ih =>
      obtain ⟨here, behind⟩ := List.forall_mem_cons.mp clean
      have ends : EndsToken [comma] comma := .inr (List.mem_singleton.mpr rfl)
      have cut :=
        cutTokens_token before m.text_ne_nil here.inToken ends (sepText comma ms ++ after)
          (ms.length + count)
      have further := ih behind (before ++ (m.text ++ [0]))
      have shape (sep : UInt8)
          : before ++ (sepText sep (m :: ms) ++ after)
            = before ++ (m.text ++ sep :: (sepText sep ms ++ after)) := by
        simp [sepText]
      have moved (rest : Bytes)
          : before ++ (m.text ++ 0 :: rest) = (before ++ (m.text ++ [0])) ++ rest := by
        simp
      have place : before.length + m.text.length + 1 = (before ++ (m.text ++ [0])).length := by
        simp [Nat.add_assoc]
      have length : (m :: ms).length + count = ms.length + count + 1 := by
        simp only [List.length_cons]
        omega
      have whole : before ++ sepText 0 (m :: ms) = before ++ (m.text ++ [0]) ++ sepText 0 ms := by
        simp [sepText]
      rw [if_neg (by decide), place, moved (sepText comma ms ++ after), further] at cut
      rw [length, shape comma, cut, shape 0, moved (sepText 0 ms ++ after), whole, starts,
        ← Nat.add_assoc, place]
      cases cutTokens count
          ⟨before ++ (m.text ++ [0]) ++ (sepText 0 ms ++ after),
            (before ++ (m.text ++ [0]) ++ sepText 0 ms).length⟩ with
      | error f => rfl
      | ok result => rfl

-----------------------------------------------------------------------------------------
-- Cutting the name and the value out of a token
-----------------------------------------------------------------------------------------

/-- The front of a token, up to the quote in front of its value, after the name was cut out. -/
def cutName (lead name : Bytes) : Bytes := lead ++ quote :: (name ++ [0, 0])

/-- The part of a token in front of a colon is cut off, and then the rest behind it. -/
theorem next_halves (before : Bytes) {colons name value : Bytes} (all : ∀ c ∈ colons, c = colon)
    (named : name ≠ []) (inName : ∀ c ∈ name, InToken [colon] c) (valued : value ≠ [])
    (inValue : ∀ c ∈ value, InToken [] c) (after : Bytes)
    : ∃ save,
        Tokenizer.next
            ⟨before ++ (colons ++ (name ++ colon :: (value ++ 0 :: after))), before.length⟩ [colon]
          = .ok
              (some (before ++ colons).length,
                ⟨before ++ colons ++ (name ++ 0 :: (value ++ 0 :: after)),
                  (before ++ colons ++ name ++ [0]).length⟩)
        ∧ Tokenizer.next
              ⟨before ++ colons ++ (name ++ 0 :: (value ++ 0 :: after)),
                (before ++ colons ++ name ++ [0]).length⟩ []
          = .ok
              (some (before ++ colons ++ name ++ [0]).length,
                ⟨before ++ colons ++ (name ++ 0 :: (value ++ 0 :: after)), save⟩) := by
  have delims : ∀ c ∈ colons, c ≠ 0 ∧ c ∈ [colon] := by
    intro c member
    obtain rfl := all c member
    decide
  have cut :=
    Tokenizer.next_token before colons (value ++ 0 :: after) delims named inName
      (.inr (List.mem_singleton.mpr rfl))
  -- The delimiter of the second call is empty.
  have rest :=
    Tokenizer.next_token (before ++ colons ++ name ++ [0]) [] after (by simp) valued inValue
      (.inl rfl)
  rw [if_neg (by decide)] at cut
  exact ⟨_, by simpa [Nat.add_assoc] using cut, by simpa using rest⟩

/-- In a token whose name has no colon, the name is cut out, and the value is what `strtok` finds
behind the next quote.
-/
theorem splitTokens_name (before : Bytes) {lead name body : Bytes}
    (ordinary : ∀ c ∈ lead, Ordinary c) (plain : Plain name) (whole : ∀ c ∈ name, c ≠ colon)
    (nulFree : ∀ c ∈ body, c ≠ 0) (after : Bytes) (tokens : List Nat) (save : Nat)
    : splitTokens (before.length :: tokens)
          ⟨before ++ (lead ++ quote :: (name ++ quote :: colon :: quote :: (body ++ 0 :: after))),
            save⟩
      = (do
          let (value, t) ←
            Tokenizer.next
              ⟨before ++ cutName lead name ++ quote :: (body ++ 0 :: after),
                (before ++ cutName lead name).length⟩
              [quote]
          let (pairs, t) ← splitTokens tokens t
          .ok ((some (before.length + lead.length + 1), value) :: pairs, t)) := by
  have separated : InToken [colon] quote := by decide
  have first : ∀ c ∈ lead ++ quote :: (name ++ [quote]), InToken [colon] c := by
    intro c member
    simp only [List.mem_append, List.mem_cons, List.not_mem_nil, or_false] at member
    rcases member with front | rfl | inside | rfl
    · exact ⟨(ordinary c front).1, by simpa using (ordinary c front).2.2.1⟩
    · exact separated
    · exact ⟨plain.nulFree c inside, by simpa using whole c inside⟩
    · exact separated
  have rest : ∀ c ∈ quote :: body, InToken [] c := by
    intro c member
    rcases List.mem_cons.mp member with rfl | inside
    · exact ⟨by decide, List.not_mem_nil⟩
    · exact ⟨nulFree c inside, List.not_mem_nil⟩
  have unquoted : ∀ c ∈ name, InToken [quote] c := fun c inside =>
    ⟨plain.nulFree c inside, by simpa using plain.unquoted c inside⟩
  have passed : ∀ c ∈ lead, (c != quote) = true := fun c front => by
    simpa using (ordinary c front).2.2.2
  have quotes : ∀ c ∈ [quote], c ≠ 0 ∧ c ∈ [quote] := by decide
  -- The name with its quotes is cut off at the colon, and the rest is the token behind it.
  obtain ⟨_, cutFirst, cutRest⟩ :=
    @next_halves before [] _ _ (by simp) (by simp) first (List.cons_ne_nil quote body) rest after
  have front
      : before ++ (lead ++ quote :: (name ++ quote :: colon :: quote :: (body ++ 0 :: after)))
        = before ++ ([] ++ (lead ++ quote :: (name ++ [quote])
            ++ colon :: (quote :: body ++ 0 :: after))) := by
    simp
  have cut
      : before ++ [] ++ (lead ++ quote :: (name ++ [quote]) ++ 0 :: (quote :: body ++ 0 :: after))
        = before ++ (lead ++ quote :: (name ++ quote :: 0 :: quote :: (body ++ 0 :: after))) := by
    simp
  have behind
      : (before ++ [] ++ (lead ++ quote :: (name ++ [quote])) ++ [0]).length
        = (before ++ cutName lead name).length := by
    simp [cutName]
  rw [cut, behind, ← front, List.append_nil] at cutFirst
  rw [cut, behind] at cutRest
  -- The scan stops at the quote in front of the name, which is cut off at the next quote.
  have scanned :=
    scanWhile_append before (name ++ quote :: 0 :: quote :: (body ++ 0 :: after)) passed
      (c := quote) (by decide)
  have cutSecond
      : ∃ save,
          Tokenizer.next
            ⟨before ++ (lead ++ quote :: (name ++ quote :: 0 :: quote :: (body ++ 0 :: after))),
              before.length + lead.length⟩
            [quote]
          = .ok
              (some (before.length + lead.length + 1),
                ⟨before ++ cutName lead name ++ quote :: (body ++ 0 :: after), save⟩) := by
    have cut :=
      Tokenizer.next_token (before ++ lead) [quote] (0 :: quote :: (body ++ 0 :: after)) quotes
        plain.filled unquoted (.inr (List.mem_singleton.mpr rfl))
    exact ⟨_, by simpa [cutName] using cut⟩
  -- The scan for the value stops where it starts.
  have still
      : scanWhile (before ++ cutName lead name ++ quote :: (body ++ 0 :: after)) (· != quote)
          (before ++ cutName lead name).length
        = .ok (before ++ cutName lead name).length := by
    have nothing : ∀ c ∈ ([] : Bytes), (c != quote) = true := by simp
    exact scanWhile_append (before ++ cutName lead name) (body ++ 0 :: after) nothing (by decide)
  obtain ⟨_, cutSecond⟩ := cutSecond
  rw [splitTokens]
  simp only [Tokenizer.strtok, cutFirst, Checked.ok_bind, cutRest, scanned, cutSecond, still]

/-- A byte of a plain string stands within quotes. -/
theorem Plain.inToken {s : Bytes} (plain : Plain s) : ∀ c ∈ s, InToken [quote] c := fun c inside =>
  ⟨plain.nulFree c inside, by simpa using plain.unquoted c inside⟩

/-- The name and the value of a member are cut out of its token, whatever stands behind the member.
-/
theorem splitTokens_member {m : Member} (packed : m.Packed) (whole : ∀ c ∈ m.name, c ≠ colon)
    {tail : Bytes} (nulFree : ∀ c ∈ tail, c ≠ 0) (before after : Bytes) (tokens : List Nat)
    (save : Nat)
    : ∃ save',
        splitTokens (before.length :: tokens) ⟨before ++ (m.text ++ (tail ++ 0 :: after)), save⟩
        = (splitTokens tokens ⟨before ++ (m.cut ++ (tail ++ 0 :: after)), save'⟩).map
            fun (pairs, t) => (m.pointers before.length :: pairs, t) := by
  have inside : ∀ c ∈ m.value ++ quote :: tail, c ≠ 0 := by
    refine List.forall_mem_append.mpr ⟨packed.value.nulFree, ?_⟩
    exact List.forall_mem_cons.mpr ⟨by decide, nulFree⟩
  have split :=
    splitTokens_name before packed.lead packed.name whole inside after tokens save
  have text
      : before ++ (m.text ++ (tail ++ 0 :: after))
        = before ++ (m.lead ++ quote :: (m.name ++ quote :: colon :: quote ::
            (m.value ++ quote :: tail ++ 0 :: after))) := by
    simp [Member.text, pairText]
  have cut
      : ∃ save',
          Tokenizer.next
            ⟨before ++ cutName m.lead m.name ++ quote :: (m.value ++ quote :: tail ++ 0 :: after),
              (before ++ cutName m.lead m.name).length⟩
            [quote]
          = .ok
              ((m.pointers before.length).2,
                ⟨before ++ (m.cut ++ (tail ++ 0 :: after)), save'⟩) := by
    have cut :=
      Tokenizer.next_token (before ++ cutName m.lead m.name) [quote] (tail ++ 0 :: after)
        (by decide) packed.value.filled packed.value.inToken (.inr (List.mem_singleton.mpr rfl))
    have place
        : (before ++ cutName m.lead m.name).length + [quote].length
          = before.length + m.lead.length + m.name.length + 4 := by
      simp only [cutName, List.length_append, List.length_cons, List.length_nil]
      omega
    rw [place] at cut
    exact ⟨_, by simpa [Member.cut, Member.pointers, cutName] using cut⟩
  obtain ⟨save', cut⟩ := cut
  refine ⟨save', ?_⟩
  rw [text, split, cut, Checked.ok_bind]
  simp only
  cases splitTokens tokens ⟨before ++ (m.cut ++ (tail ++ 0 :: after)), save'⟩ with
  | error f => rfl
  | ok result => rfl

/-- Cutting out the name and the value of a member keeps its length. -/
theorem Member.length_cut (m : Member) : m.cut.length = m.text.length := by
  simp only [Member.cut, Member.text, pairText, List.length_append, List.length_cons,
    List.length_nil]

/-- The names and values of clean members are cut out of their tokens one by one. -/
theorem splitTokens_members {ms : List Member} (clean : ∀ m ∈ ms, m.Clean) (before after : Bytes)
    (tokens : List Nat) (save : Nat)
    : ∃ save',
        splitTokens (starts before.length ms ++ tokens) ⟨before ++ (sepText 0 ms ++ after), save⟩
        = (splitTokens tokens ⟨before ++ (cutText ms ++ after), save'⟩).map
            fun (pairs, t) => (pointersAt before.length ms ++ pairs, t) := by
  induction ms generalizing before save with
  | nil =>
      refine ⟨save, ?_⟩
      simp only [sepText, cutText, starts, pointersAt, List.flatMap_nil, List.nil_append]
      cases splitTokens tokens ⟨before ++ after, save⟩ with
      | error f => rfl
      | ok result => rfl
  | cons m ms ih =>
      obtain ⟨here, behind⟩ := List.forall_mem_cons.mp clean
      have nothing : ∀ c ∈ ([] : Bytes), c ≠ 0 := by simp
      obtain ⟨save₁, split⟩ :=
        splitTokens_member here.toPacked (fun c member => (here.undelimited.name c member).2)
          nothing before (sepText 0 ms ++ after)
          (starts (before.length + (m.text.length + 1)) ms ++ tokens)
          save
      obtain ⟨save₂, further⟩ := ih behind (before ++ (m.cut ++ [0])) save₁
      have place : (before ++ (m.cut ++ [0])).length = before.length + (m.text.length + 1) := by
        simp [m.length_cut]
      have shape
          : before ++ (sepText 0 (m :: ms) ++ after)
            = before ++ (m.text ++ ([] ++ 0 :: (sepText 0 ms ++ after))) := by
        simp [sepText]
      have moved
          : before ++ (m.cut ++ ([] ++ 0 :: (sepText 0 ms ++ after)))
            = (before ++ (m.cut ++ [0])) ++ (sepText 0 ms ++ after) := by
        simp
      have whole
          : (before ++ (m.cut ++ [0])) ++ (cutText ms ++ after)
            = before ++ (cutText (m :: ms) ++ after) := by
        simp [cutText]
      refine ⟨save₂, ?_⟩
      rw [place] at further
      rw [starts, List.cons_append, shape, split, moved, further, whole, pointersAt]
      cases splitTokens tokens ⟨before ++ (cutText (m :: ms) ++ after), save₂⟩ with
      | error f => rfl
      | ok result => rfl

-----------------------------------------------------------------------------------------
-- What the pointers point to
-----------------------------------------------------------------------------------------

/-- The pointers to a member point to its name and its value. -/
theorem readPair_pointers {m : Member} (packed : m.Packed) (before rest : Bytes)
    : readPair (before ++ (m.cut ++ rest)) (m.pointers before.length) = m.pair := by
  have name
      : cstring (before ++ (m.cut ++ rest)) (before.length + m.lead.length + 1) = m.name := by
    have read :=
      cstring_append (before ++ (m.lead ++ [quote])) (0 :: quote :: (m.value ++ [0]) ++ rest)
        packed.name.nulFree
    simpa [Member.cut, Nat.add_assoc] using read
  have value
      : cstring (before ++ (m.cut ++ rest)) (before.length + m.lead.length + m.name.length + 4)
        = m.value := by
    have read :=
      cstring_append (before ++ (m.lead ++ quote :: (m.name ++ [0, 0, quote]))) rest
        packed.value.nulFree
    have place
        : (before ++ (m.lead ++ quote :: (m.name ++ [0, 0, quote]))).length
          = before.length + m.lead.length + m.name.length + 4 := by
      simp only [List.length_append, List.length_cons, List.length_nil]
      omega
    rw [place] at read
    simpa [Member.cut] using read
  simp only [readPair, Member.pointers, Option.map_some, name, value, Member.pair]

/-- The pointers to members point to their names and values. -/
theorem readPair_pointersAt {ms : List Member} (packed : ∀ m ∈ ms, m.Packed) (before rest : Bytes)
    : (pointersAt before.length ms).map (readPair (before ++ (cutText ms ++ rest)))
      = ms.map Member.pair := by
  induction ms generalizing before with
  | nil => rfl
  | cons m ms ih =>
      obtain ⟨here, behind⟩ := List.forall_mem_cons.mp packed
      have first := readPair_pointers here before (0 :: (cutText ms ++ rest))
      have others := ih behind (before ++ (m.cut ++ [0]))
      have place : (before ++ (m.cut ++ [0])).length = before.length + (m.text.length + 1) := by
        simp [m.length_cut]
      have shape
          : before ++ (cutText (m :: ms) ++ rest)
            = before ++ (m.cut ++ 0 :: (cutText ms ++ rest)) := by
        simp [cutText]
      have moved
          : before ++ (m.cut ++ 0 :: (cutText ms ++ rest))
            = (before ++ (m.cut ++ [0])) ++ (cutText ms ++ rest) := by
        simp
      rw [pointersAt, List.map_cons, List.map_cons, shape, first, moved, ← place, others]

end Cvos.LibJson

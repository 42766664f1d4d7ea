import Cvos.LibJson.FlatSpoiled

/-! When flat messages come back as they were packed. A comma ends the token of its pair too early,
and a colon in a name ends the name too early, so that the name or the value is lost or shortened.
-/

namespace Cvos.LibJson

open Cvos.Lib

/-- What stands behind a pair, with the pairs that follow it. -/
def behindPair : List (Bytes × Bytes) → Bytes
  | [] => closing
  | pairs => comma :: pairsText pairs

/-- The text of some pairs starts with that of the first. -/
theorem pairsText_cons (pair : Bytes × Bytes) (pairs : List (Bytes × Bytes))
    : pairsText (pair :: pairs) = pairText pair ++ behindPair pairs := by
  cases pairs with
  | nil => rfl
  | cons next pairs => rfl

-----------------------------------------------------------------------------------------
-- Packing writes the message
-----------------------------------------------------------------------------------------

/-- The loop of `osPackageJsonStr` and the closing behind it write the pairs behind what is there.
-/
theorem packPairs_eq {pairs : List (Bytes × Bytes)} (filled : pairs ≠ []) (written spare : Bytes)
    (room : (pairsText pairs).length < spare.length)
    (fits : written.length + (pairsText pairs).length < 2 ^ 31)
    : ∃ spare',
        (do
          let (len, msgBuf) ← packPairs pairs written.length (written ++ spare)
          sprintf msgBuf len closing)
        = .ok
            ((written ++ pairsText pairs).length, (written ++ pairsText pairs) ++ 0 :: spare') := by
  induction pairs generalizing written spare with
  | nil => contradiction
  | cons pair pairs ih =>
      rw [pairsText_cons, List.length_append] at room fits
      obtain ⟨spare₁, printed, length₁⟩ :=
        sprintf_eq written spare (pairText pair) (by omega) (by omega)
      have size : (written ++ pairText pair).length = written.length + (pairText pair).length :=
        List.length_append
      rw [packPairs, printed, Checked.ok_bind, pairsText_cons]
      cases pairs with
      | nil =>
          have behind : behindPair [] = closing := rfl
          rw [behind] at room fits ⊢
          obtain ⟨spare₂, closed, -⟩ :=
            sprintf_eq (written ++ pairText pair) (0 :: spare₁) closing (by omega) (by omega)
          exact ⟨spare₂, by simpa using closed⟩
      | cons next pairs =>
          have behind : behindPair (next :: pairs) = [comma] ++ pairsText (next :: pairs) := rfl
          rw [behind, List.length_append] at room fits
          obtain ⟨spare₂, separated, length₂⟩ :=
            sprintf_eq (written ++ pairText pair) (0 :: spare₁) [comma] (by omega) (by omega)
          have size₂
              : (written ++ pairText pair ++ [comma]).length
                = (written ++ pairText pair).length + [comma].length :=
            List.length_append
          obtain ⟨spare₃, others⟩ :=
            ih (List.cons_ne_nil next pairs) (written ++ pairText pair ++ [comma]) (0 :: spare₂)
              (by omega) (by omega)
          refine ⟨spare₃, Eq.trans ?_ (others.trans ?_)⟩
          · simp only [List.isEmpty_cons, Bool.false_eq_true, if_false, separated, Checked.ok_bind]
          · simp only [behind, List.append_assoc]

/-- A message is packed when the buffer has room for it and its length is an `int`. -/
theorem osPackageJsonStr_eq {pairs : List (Bytes × Bytes)} (filled : pairs ≠ []) {msgBuf : Bytes}
    (room : (flatText pairs).length < msgBuf.length) (fits : (flatText pairs).length < 2 ^ 31)
    : ∃ rest,
        osPackageJsonStr (some pairs) (some msgBuf)
        = .ok ((flatText pairs).length, some (flatText pairs ++ 0 :: rest)) := by
  have text : flatText pairs = ['{'.toUInt8] ++ pairsText pairs := rfl
  rw [text, List.length_append] at room fits
  obtain ⟨spare₁, opened, length⟩ :=
    sprintf_eq [] msgBuf ['{'.toUInt8] (by omega) (by simp)
  obtain ⟨spare₂, others⟩ := packPairs_eq filled ['{'.toUInt8] (0 :: spare₁) (by omega) fits
  have some : pairs.isEmpty = false := by simpa using filled
  refine ⟨spare₂, ?_⟩
  rw [osPackageJsonStr]
  simp only [some, Bool.false_eq_true, if_false]
  rw [List.nil_append, List.length_nil] at opened
  rw [opened, Checked.ok_bind, List.nil_append]
  simp only
  cases packed : packPairs pairs ['{'.toUInt8].length (['{'.toUInt8] ++ 0 :: spare₁) with
  | error f =>
      rw [packed] at others
      contradiction
  | ok result =>
      obtain ⟨len, buffer⟩ := result
      simp only [packed, Checked.ok_bind] at others
      simp only [Checked.ok_bind, others]
      rfl

/-- The loop of `osPackageJsonStr` counts the pairs. -/
theorem packPairs_length {pairs : List (Bytes × Bytes)} (filled : pairs ≠ [])
    {msgBuf msgBuf' : Bytes} {len len' : Nat}
    (packed : packPairs pairs len msgBuf = .ok (len', msgBuf'))
    : len' + closing.length = len + (pairsText pairs).length := by
  induction pairs generalizing len msgBuf with
  | nil => contradiction
  | cons pair pairs ih =>
      rw [packPairs] at packed
      obtain ⟨⟨len₁, msgBuf₁⟩, printed, packed⟩ := Checked.bind_eq_ok.mp packed
      have count := (sprintf_length printed).1
      rw [pairsText_cons, List.length_append]
      cases pairs with
      | nil =>
          obtain ⟨rfl, -⟩ := Prod.mk.inj (Except.ok.inj packed)
          have behind : behindPair [] = closing := rfl
          rw [behind]
          omega
      | cons next pairs =>
          simp only [List.isEmpty_cons, Bool.false_eq_true, if_false] at packed
          obtain ⟨⟨len₂, msgBuf₂⟩, separated, packed⟩ := Checked.bind_eq_ok.mp packed
          have count₂ := (sprintf_length separated).1
          have others := ih (List.cons_ne_nil next pairs) packed
          have behind : behindPair (next :: pairs) = [comma] ++ pairsText (next :: pairs) := rfl
          rw [behind, List.length_append]
          omega

/-- A message that is packed has a length that is an `int`. -/
theorem osPackageJsonStr_fits {pairs : List (Bytes × Bytes)} (filled : pairs ≠ []) {msgBuf : Bytes}
    {len : Int} {packed : Option Bytes}
    (returned : osPackageJsonStr (some pairs) (some msgBuf) = .ok (len, packed))
    : (flatText pairs).length < 2 ^ 31 := by
  have some : pairs.isEmpty = false := by simpa using filled
  rw [osPackageJsonStr] at returned
  simp only [some, Bool.false_eq_true, if_false] at returned
  obtain ⟨⟨len₁, msgBuf₁⟩, opened, returned⟩ := Checked.bind_eq_ok.mp returned
  obtain ⟨⟨len₂, msgBuf₂⟩, counted, returned⟩ := Checked.bind_eq_ok.mp returned
  obtain ⟨⟨len₃, msgBuf₃⟩, closed, -⟩ := Checked.bind_eq_ok.mp returned
  have first := (sprintf_length opened).1
  have second := packPairs_length filled counted
  obtain ⟨third, fits⟩ := sprintf_length closed
  have text : flatText pairs = ['{'.toUInt8] ++ pairsText pairs := rfl
  rw [text, List.length_append]
  omega

-----------------------------------------------------------------------------------------
-- The members of a message
-----------------------------------------------------------------------------------------

/-- The members of a message, the first of which has the brace in front of it. -/
def members : List (Bytes × Bytes) → List Member
  | [] => []
  | pair :: pairs =>
      ⟨['{'.toUInt8], pair.1, pair.2⟩ :: pairs.map fun pair => ⟨[], pair.1, pair.2⟩

/-- A pair stands in the text of some pairs behind the pairs in front of it. -/
theorem pairsText_append (front : List (Bytes × Bytes)) (pair : Bytes × Bytes)
    (back : List (Bytes × Bytes))
    : pairsText (front ++ pair :: back)
      = sepText comma (front.map fun pair => ⟨[], pair.1, pair.2⟩)
        ++ (pairText pair ++ behindPair back) := by
  induction front with
  | nil => exact pairsText_cons pair back
  | cons first front ih =>
      have separated
          : behindPair (front ++ pair :: back) = comma :: pairsText (front ++ pair :: back) := by
        cases front with
        | nil => rfl
        | cons next front => rfl
      rw [List.cons_append, pairsText_cons, separated, ih]
      simp [sepText, Member.text]

/-- A pair stands in its message behind the pairs in front of it. -/
theorem flatText_split (front : List (Bytes × Bytes)) (pair : Bytes × Bytes)
    (back : List (Bytes × Bytes))
    : ∃ lead,
        (∀ c ∈ lead, Ordinary c)
        ∧ flatText (front ++ pair :: back)
          = sepText comma (members front)
            ++ ((Member.mk lead pair.1 pair.2).text ++ behindPair back) := by
  cases front with
  | nil =>
      refine ⟨['{'.toUInt8], by simp only [List.mem_singleton, forall_eq]; decide, ?_⟩
      rw [List.nil_append, flatText, pairsText_cons]
      rfl
  | cons first front =>
      refine ⟨[], by simp, ?_⟩
      rw [flatText, pairsText_append]
      simp [sepText, members, Member.text]

/-- The members of a message have its names and values. -/
theorem map_pair_members (pairs : List (Bytes × Bytes))
    : (members pairs).map Member.pair = pairs.map fun pair => (some pair.1, some pair.2) := by
  cases pairs with
  | nil => rfl
  | cons pair pairs => simp [members, Member.pair]

/-- There are as many members as pairs. -/
theorem length_members (pairs : List (Bytes × Bytes)) : (members pairs).length = pairs.length := by
  cases pairs with
  | nil => rfl
  | cons pair pairs => simp [members]

/-- The members of plain pairs are packed. -/
theorem members_packed {pairs : List (Bytes × Bytes)}
    (plain : ∀ pair ∈ pairs, Plain pair.1 ∧ Plain pair.2)
    : ∀ m ∈ members pairs, m.Packed := by
  cases pairs with
  | nil => simp [members]
  | cons pair pairs =>
      obtain ⟨⟨name, value⟩, others⟩ := List.forall_mem_cons.mp plain
      refine List.forall_mem_cons.mpr ⟨⟨?_, name, value⟩, fun m member => ?_⟩
      · simp only [List.mem_singleton, forall_eq]
        decide
      · obtain ⟨pair, inside, rfl⟩ := List.mem_map.mp member
        exact ⟨by simp, (others pair inside).1, (others pair inside).2⟩

/-- The members of undelimited pairs are clean. -/
theorem members_clean {pairs : List (Bytes × Bytes)}
    (plain : ∀ pair ∈ pairs, Plain pair.1 ∧ Plain pair.2)
    (undelimited : ∀ pair ∈ pairs, Undelimited pair)
    : ∀ m ∈ members pairs, m.Clean := by
  intro m member
  refine ⟨members_packed plain m member, ?_⟩
  have pair : m.pair ∈ (members pairs).map Member.pair := List.mem_map_of_mem member
  rw [map_pair_members] at pair
  obtain ⟨pair, inside, same⟩ := List.mem_map.mp pair
  obtain ⟨name, value⟩ : pair.1 = m.name ∧ pair.2 = m.value := by simpa [Member.pair] using same
  rw [← name, ← value]
  exact undelimited pair inside

-----------------------------------------------------------------------------------------
-- Messages without delimiters in names and values
-----------------------------------------------------------------------------------------

/-- Cutting out names and values keeps the length of the text. -/
theorem length_cutText (ms : List Member) : (cutText ms).length = (sepText 0 ms).length := by
  induction ms with
  | nil => rfl
  | cons m ms ih =>
      simp only [cutText, sepText, List.flatMap_cons, List.length_append, m.length_cut] at ih ⊢
      rw [ih]

/-- At the end of the string, no further token is cut. -/
theorem cutTokens_end (before rest : Bytes) (count : Nat)
    : cutTokens count ⟨before ++ 0 :: rest, before.length⟩
      = .ok ([], ⟨before ++ 0 :: rest, before.length⟩) := by
  cases count with
  | zero => rfl
  | succ count =>
      have nothing : ∀ c ∈ ([] : Bytes), c ≠ 0 ∧ c ∈ [comma] := by simp
      have ended := Tokenizer.next_none before [] rest nothing
      rw [List.nil_append, List.length_nil, Nat.add_zero] at ended
      rw [cutTokens, ended]
      rfl

/-- The last token is cut off at the end of the string. -/
theorem cutTokens_last (before : Bytes) {token : Bytes} (filled : token ≠ [])
    (inside : ∀ c ∈ token, InToken [comma] c) (rest : Bytes) (count : Nat)
    : ∃ save,
        cutTokens (count + 1) ⟨before ++ (token ++ 0 :: rest), before.length⟩
        = .ok ([before.length], ⟨before ++ (token ++ 0 :: rest), save⟩) := by
  have cut := cutTokens_token before filled inside (.inl rfl) rest count
  have ended := cutTokens_end (before ++ token) rest count
  rw [List.append_assoc] at ended
  refine ⟨(before ++ token).length, ?_⟩
  rw [cut, if_pos rfl, Nat.add_zero, ← List.length_append, ended]
  rfl

/-- The closing ends neither a token nor the string. -/
theorem closing_inToken : ∀ c ∈ closing, InToken [comma] c := by decide

section CleanMembers

variable {ms : List Member} (clean : ∀ m ∈ ms, m.Clean) {m : Member} (last : m.Clean)

include clean last in
/-- All tokens are cut, the last one with the closing. -/
theorem cutTokens_closed {spare : Nat} (count : maxJsonToken = ms.length + (spare + 1))
    (rest : Bytes)
    : ∃ save,
        cutTokens maxJsonToken ⟨sepText comma ms ++ (m.text ++ (closing ++ 0 :: rest)), 0⟩
        = .ok
            (starts 0 ms ++ [(cutText ms).length],
              ⟨sepText 0 ms ++ (m.text ++ (closing ++ 0 :: rest)), save⟩) := by
  have inside : ∀ c ∈ m.text ++ closing, InToken [comma] c :=
    List.forall_mem_append.mpr ⟨last.inToken, closing_inToken⟩
  have filled : m.text ++ closing ≠ [] := by simp [m.text_ne_nil]
  have front := cutTokens_members clean [] (m.text ++ closing ++ 0 :: rest) (spare + 1)
  obtain ⟨save, back⟩ := cutTokens_last (sepText 0 ms) filled inside rest spare
  rw [List.append_assoc] at front back
  simp only [List.nil_append, List.length_nil] at front
  refine ⟨save, ?_⟩
  rw [count, front, back, length_cutText]
  rfl

include clean last in
/-- The names and values are cut out of the tokens. -/
theorem splitTokens_closed (rest : Bytes) (save : Nat)
    : ∃ save',
        splitTokens (starts 0 ms ++ [(cutText ms).length])
            ⟨sepText 0 ms ++ (m.text ++ (closing ++ 0 :: rest)), save⟩
        = .ok
            (pointersAt 0 ms ++ [m.pointers (cutText ms).length],
              ⟨cutText ms ++ (m.cut ++ (closing ++ 0 :: rest)), save'⟩) := by
  obtain ⟨save₁, front⟩ :=
    splitTokens_members clean [] (m.text ++ (closing ++ 0 :: rest)) [(cutText ms).length] save
  obtain ⟨save₂, back⟩ :=
    splitTokens_member last.toPacked (fun c inside => (last.undelimited.name c inside).2)
      (fun c inside => (closing_inToken c inside).1) (cutText ms) rest [] save₁
  simp only [List.nil_append, List.length_nil] at front
  refine ⟨save₂, ?_⟩
  rw [front, back]
  rfl

end CleanMembers

/-- A message whose names and values have no delimiters is parsed as these names and values. -/
theorem osJsonParseMsg_flatText {pairs : List (Bytes × Bytes)} (filled : pairs ≠ [])
    (few : pairs.length ≤ maxJsonToken) (plain : ∀ pair ∈ pairs, Plain pair.1 ∧ Plain pair.2)
    (undelimited : ∀ pair ∈ pairs, Undelimited pair) (rest : Bytes)
    : ∃ parsed,
        osJsonParseMsg true true (some (flatText pairs ++ 0 :: rest)) = .ok parsed
        ∧ parsed.ret = pairs.length
        ∧ parsed.pairs = pairs.map fun pair => (some pair.1, some pair.2) := by
  obtain ⟨front, pair, rfl⟩ : ∃ front pair, pairs = front ++ [pair] :=
    ⟨_, _, (List.dropLast_append_getLast filled).symm⟩
  obtain ⟨plainFront, plainLast⟩ := List.forall_mem_append.mp plain
  obtain ⟨undelimitedFront, undelimitedLast⟩ := List.forall_mem_append.mp undelimited
  rw [List.forall_mem_singleton] at plainLast undelimitedLast
  obtain ⟨lead, ordinary, text⟩ := flatText_split front pair []
  generalize member : Member.mk lead pair.1 pair.2 = m at text
  have clean : m.Clean := by
    subst member
    exact ⟨⟨ordinary, plainLast.1, plainLast.2⟩, undelimitedLast⟩
  have cleanFront := members_clean plainFront undelimitedFront
  obtain ⟨spare, count⟩ : ∃ spare, maxJsonToken = (members front).length + (spare + 1) := by
    rw [length_members]
    rw [List.length_append, List.length_singleton] at few
    exact ⟨maxJsonToken - front.length - 1, by omega⟩
  have shape
      : flatText (front ++ [pair]) ++ 0 :: rest
        = sepText comma (members front) ++ (m.text ++ (closing ++ 0 :: rest)) := by
    rw [text]
    simp [behindPair]
  obtain ⟨save, cut⟩ := cutTokens_closed cleanFront clean count rest
  obtain ⟨save', split⟩ := splitTokens_closed cleanFront clean rest save
  -- What the pointers point to is not cut later.
  have readFront :=
    readPair_pointersAt (fun m member => (cleanFront m member).toPacked) []
      (m.cut ++ (closing ++ 0 :: rest))
  have readLast :=
    readPair_pointers clean.toPacked (cutText (members front)) (closing ++ 0 :: rest)
  simp only [List.nil_append, List.length_nil] at readFront
  have parsed
      : osJsonParseMsg true true (some (flatText (front ++ [pair]) ++ 0 :: rest))
        = .ok
            ⟨(pointersAt 0 (members front) ++ [m.pointers (cutText (members front)).length]).length,
              pointersAt 0 (members front) ++ [m.pointers (cutText (members front)).length],
              cutText (members front) ++ (m.cut ++ (closing ++ 0 :: rest))⟩ := by
    rw [osJsonParseMsg_eq, shape, cut, Checked.ok_bind]
    simp only [split, Checked.ok_bind]
  refine ⟨_, parsed, ?_, ?_⟩
  · have pointers : (pointersAt 0 (members front)).length = (members front).length := by
      simpa using congrArg List.length readFront
    simp [pointers, length_members]
  · rw [Parsed.pairs, List.map_append, List.map_append, List.map_singleton, List.map_singleton,
      readFront, readLast, map_pair_members, Member.pair, ← member]

-----------------------------------------------------------------------------------------
-- Messages with delimiters in names and values
-----------------------------------------------------------------------------------------

/-- There are as many pointers as members. -/
theorem length_pointersAt (p : Nat) (ms : List Member)
    : (pointersAt p ms).length = ms.length := by
  induction ms generalizing p with
  | nil => rfl
  | cons m ms ih => rw [pointersAt, List.length_cons, ih, List.length_cons]

/-- The first pair with a delimiter, if there is one. -/
theorem exists_first_delimited (pairs : List (Bytes × Bytes))
    : (∀ pair ∈ pairs, Undelimited pair)
      ∨ ∃ front pair back,
          pairs = front ++ pair :: back
          ∧ (∀ pair ∈ front, Undelimited pair)
          ∧ ¬Undelimited pair := by
  induction pairs with
  | nil => exact .inl (by simp)
  | cons pair pairs ih =>
      by_cases undelimited : Undelimited pair
      · rcases ih with others | ⟨front, next, back, rfl, earlier, delimited⟩
        · exact .inl (List.forall_mem_cons.mpr ⟨undelimited, others⟩)
        · exact .inr ⟨pair :: front, next, back, rfl,
            List.forall_mem_cons.mpr ⟨undelimited, earlier⟩, delimited⟩
      · exact .inr ⟨[], pair, pairs, rfl, by simp, undelimited⟩

/-- A message with a delimiter in a name or a value is parsed as other names and values. -/
theorem osJsonParseMsg_delimited {front back : List (Bytes × Bytes)} {pair : Bytes × Bytes}
    (few : (front ++ pair :: back).length ≤ maxJsonToken)
    (plain : ∀ p ∈ front ++ pair :: back, Plain p.1 ∧ Plain p.2)
    (earlier : ∀ p ∈ front, Undelimited p) (delimited : ¬Undelimited pair) (rest : Bytes)
    {parsed : Parsed}
    (returned
      : osJsonParseMsg true true (some (flatText (front ++ pair :: back) ++ 0 :: rest))
        = .ok parsed)
    : parsed.pairs ≠ (front ++ pair :: back).map fun p => (some p.1, some p.2) := by
  obtain ⟨plainFront, plainBack⟩ := List.forall_mem_append.mp plain
  obtain ⟨plainHere, -⟩ := List.forall_mem_cons.mp plainBack
  obtain ⟨lead, ordinary, text⟩ := flatText_split front pair back
  generalize member : Member.mk lead pair.1 pair.2 = m at text
  have packed : m.Packed := by
    subst member
    exact ⟨ordinary, plainHere.1, plainHere.2⟩
  have delimited : ¬Undelimited (m.name, m.value) := by
    subst member
    exact delimited
  have cleanFront := members_clean plainFront earlier
  obtain ⟨spare, count⟩ : ∃ spare, maxJsonToken = (members front).length + (spare + 1) := by
    rw [length_members]
    rw [List.length_append, List.length_cons] at few
    exact ⟨maxJsonToken - front.length - 1, by omega⟩
  obtain ⟨token, stop, after, spoiled, filled, inside, ends, spoils⟩ :=
    startsSpoiled packed delimited (behindPair back) rest
  -- The tokens in front of the pair are cut as they should be, and its own ends too early.
  have shape
      : flatText (front ++ pair :: back) ++ 0 :: rest
        = sepText comma (members front) ++ (token ++ stop :: after) := by
    rw [text, ← spoiled]
    simp
  rw [osJsonParseMsg_eq, shape] at returned
  obtain ⟨⟨tokens, t⟩, cut, returned⟩ := Checked.bind_eq_ok.mp returned
  obtain ⟨⟨pointers, t'⟩, split, returned⟩ := Checked.bind_eq_ok.mp returned
  obtain rfl := Except.ok.inj returned
  have cutFront := cutTokens_members cleanFront [] (token ++ stop :: after) (spare + 1)
  simp only [List.nil_append, List.length_nil] at cutFront
  rw [count, cutFront] at cut
  obtain ⟨⟨others, t₁⟩, cutHere, same⟩ := Checked.map_eq_ok.mp cut
  obtain ⟨rfl, rfl⟩ := Prod.mk.inj same
  obtain ⟨later, after', rfl, mem⟩ :=
    cutTokens_first (sepText 0 (members front)) filled inside ends cutHere
  -- So the first pair that is cut out of the token is not the one that was packed.
  obtain ⟨save, splitFront⟩ :=
    splitTokens_members cleanFront [] (token ++ 0 :: after')
      ((cutText (members front)).length :: later) t₁.save
  simp only [List.nil_append, List.length_nil] at splitFront
  rw [length_cutText, ← mem] at splitFront
  rw [splitFront, ← length_cutText] at split
  obtain ⟨⟨pairs, t₂⟩, splitHere, same⟩ := Checked.map_eq_ok.mp split
  obtain ⟨rfl, rfl⟩ := Prod.mk.inj same
  have other := spoils (cutText (members front)) after' save later pairs t₂ splitHere
  intro delivered
  rw [Parsed.pairs, List.map_append, List.map_append] at delivered
  have lengths
      : ((pointersAt 0 (members front)).map (readPair t₂.mem)).length
        = (front.map fun pair => (some pair.1, some pair.2)).length := by
    rw [List.length_map, List.length_map, length_pointersAt, length_members]
  have behind := (List.append_inj delivered lengths).2
  rw [behind, List.map_cons, List.head?_cons, ← member] at other
  exact other rfl

-----------------------------------------------------------------------------------------
-- When messages come back
-----------------------------------------------------------------------------------------

/-- A message comes back as it was packed exactly when its length is an `int`, no name has a comma
or a colon, and no value has a comma.
-/
theorem roundTrips_iff {pairs : List (Bytes × Bytes)} (filled : pairs ≠ [])
    (few : pairs.length ≤ maxJsonToken) (plain : ∀ pair ∈ pairs, Plain pair.1 ∧ Plain pair.2)
    : RoundTrips pairs
      ↔ (flatText pairs).length < 2 ^ 31 ∧ ∀ pair ∈ pairs, Undelimited pair := by
  constructor
  · intro roundTrips
    have room : (flatText pairs).length
        < (List.replicate ((flatText pairs).length + 1) (0 : UInt8)).length := by simp
    obtain ⟨len, packed, parsed, written, returned, -, delivered⟩ := roundTrips _ room
    have fits := osPackageJsonStr_fits filled written
    refine ⟨fits, ?_⟩
    obtain ⟨rest, written'⟩ := osPackageJsonStr_eq filled room fits
    obtain ⟨-, rfl⟩ := Prod.mk.inj (Except.ok.inj (written'.symm.trans written))
    rcases exists_first_delimited pairs with clean | ⟨front, pair, back, rfl, earlier, delimited⟩
    · exact clean
    · exact absurd delivered
        (osJsonParseMsg_delimited few plain earlier delimited rest returned)
  · rintro ⟨fits, undelimited⟩ msgBuf room
    obtain ⟨rest, packed⟩ := osPackageJsonStr_eq filled room fits
    obtain ⟨parsed, returned, ret, delivered⟩ :=
      osJsonParseMsg_flatText filled few plain undelimited rest
    exact ⟨_, _, parsed, packed, returned, ret, delivered⟩

/-- Witness: two pairs, of which the second has a colon in its value. -/
theorem roundTrips_iff_colon
    : RoundTrips
        [(['a'.toUInt8], ['1'.toUInt8]),
          (['b'.toUInt8], ['x'.toUInt8, ':'.toUInt8, 'y'.toUInt8])] :=
  (roundTrips_iff (by decide) (by decide) (by decide)).mpr (by decide)

/-- A value with a comma comes back shortened. -/
theorem not_roundTrips_comma
    : ¬ ∀ pairs,
        pairs ≠ []
        → pairs.length ≤ maxJsonToken
        → (∀ pair ∈ pairs, Plain pair.1 ∧ Plain pair.2)
        → RoundTrips pairs := by
  intro always
  obtain ⟨len, packed, parsed, written, returned, -, delivered⟩ :=
    always [(['a'.toUInt8], ['x'.toUInt8, ','.toUInt8, 'y'.toUInt8])] (by decide) (by decide)
      (by decide) (List.replicate 16 0) (by decide)
  obtain ⟨-, rfl⟩ := Prod.mk.inj (Except.ok.inj written)
  obtain rfl := Except.ok.inj returned
  contradiction

end Cvos.LibJson

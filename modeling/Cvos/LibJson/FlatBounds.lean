import Cvos.LibJson.FlatSpoiled

/-! Whether `osJsonParseMsg` stays inside its tokens. `strtok` stops at the end of a string, but the
two loops that seek a quote do not.
-/

namespace Cvos.LibJson

open Cvos.Lib

/-- `while (*p != '"') p++;`, where it is a fault to go on behind the end of the string. -/
def seekQuote (mem : Bytes) (p : Nat) : Checked Nat := do
  let stop ← scanWhile mem (fun c => c != 0 && c != quote) p
  let c ← load mem stop
  if c = quote then .ok stop else .error .outOfBounds

/-- The loop of `osJsonParseMsg` over the tokens, where it is a fault to seek a quote behind the end
of a string.
-/
def splitInside : List Nat → Tokenizer → Checked (List (Option Nat × Option Nat) × Tokenizer)
  | [], t => .ok ([], t)
  | token :: tokens, t => do
      let (temp1, t) ← t.strtok token [colon]
      let (temp2, t) ← t.next []
      match temp1, temp2 with
      | some temp1, some temp2 => do
          let temp1 ← seekQuote t.mem temp1
          let (name, t) ← t.strtok temp1 [quote]
          let temp2 ← seekQuote t.mem temp2
          let (value, t) ← t.strtok temp2 [quote]
          let (pairs, t) ← splitInside tokens t
          .ok ((name, value) :: pairs, t)
      | _, _ => .ok ([], t)

/-- `osJsonParseMsg`, where it is a fault to seek a quote behind the end of a string. -/
def parseInside (msgBuf : Bytes) : Checked Parsed := do
  let (tokens, t) ← cutTokens maxJsonToken ⟨msgBuf, 0⟩
  let (pointers, t) ← splitInside tokens t
  .ok ⟨pointers.length, pointers, t.mem⟩

/-- The parser returns, and no loop goes on behind the end of a string. -/
def StaysInside (msgBuf : Bytes) : Prop :=
  ∃ parsed,
    osJsonParseMsg true true (some msgBuf) = .ok parsed ∧ parseInside msgBuf = .ok parsed

/-- The tokens of a text, which are what stands between its commas. -/
def pieces (text : Bytes) : List Bytes := (text.splitOn comma).filter (· ≠ [])

/-- What stands in front of the first colon of a token and what stands behind it, without the colons
at the start, if neither is empty.
-/
def halves (token : Bytes) : Option (Bytes × Bytes) :=
  let token := token.dropWhile (· = colon)
  let value := (token.dropWhile (· ≠ colon)).tail
  if value = [] then none else some (token.takeWhile (· ≠ colon), value)

/-- Up to the first token that is not cut in two, both halves of each have a quote. -/
def HalvesQuoted : List Bytes → Prop
  | [] => True
  | token :: tokens =>
      match halves token with
      | none => True
      | some (name, value) => quote ∈ name ∧ quote ∈ value ∧ HalvesQuoted tokens

-----------------------------------------------------------------------------------------
-- Seeking a quote
-----------------------------------------------------------------------------------------

/-- A loop that finds a quote in its string is the loop of the source. -/
theorem scanWhile_of_seekQuote {mem : Bytes} {p stop : Nat} (sought : seekQuote mem p = .ok stop)
    : scanWhile mem (· != quote) p = .ok stop := by
  obtain ⟨q, scanned, sought⟩ := Checked.bind_eq_ok.mp sought
  obtain ⟨c, read, sought⟩ := Checked.bind_eq_ok.mp sought
  split at sought
  case isFalse => contradiction
  next found =>
    obtain rfl := Except.ok.inj sought
    subst found
    have onward (rest : Bytes) (k : Nat) (behind : mem.drop k = rest)
        (scanned : scanFrom (fun c => c != 0 && c != quote) rest k = .ok q)
        : scanFrom (· != quote) rest k = .ok q := by
      induction rest generalizing k with
      | nil => contradiction
      | cons c rest ih =>
          rw [scanFrom] at scanned ⊢
          split at scanned
          next passed =>
            have other : (c != quote) = true := (Bool.and_eq_true_iff.mp passed).2
            rw [if_pos other]
            exact ih (k + 1) (by rw [← List.tail_drop, behind, List.tail_cons]) scanned
          next =>
            obtain rfl := Except.ok.inj scanned
            have here : mem[k]? = some c := by rw [← List.head?_drop, behind, List.head?_cons]
            obtain rfl : c = quote := by simpa [load, here] using read
            rw [if_neg (by simp)]
    exact onward (mem.drop p) p rfl scanned

/-- When no loop goes on behind the end of a string, the loops are those of the source. -/
theorem splitTokens_of_splitInside {tokens : List Nat} {t t' : Tokenizer}
    {pairs : List (Option Nat × Option Nat)} (split : splitInside tokens t = .ok (pairs, t'))
    : splitTokens tokens t = .ok (pairs, t') := by
  induction tokens generalizing t t' pairs with
  | nil => exact split
  | cons token tokens ih =>
      rw [splitInside] at split
      rw [splitTokens]
      obtain ⟨⟨temp1, t₁⟩, first, split⟩ := Checked.bind_eq_ok.mp split
      obtain ⟨⟨temp2, t₂⟩, second, split⟩ := Checked.bind_eq_ok.mp split
      simp only [first, second, Checked.ok_bind]
      cases temp1 with
      | none => exact split
      | some temp1 =>
          cases temp2 with
          | none => exact split
          | some temp2 =>
              obtain ⟨name, sought, split⟩ := Checked.bind_eq_ok.mp split
              obtain ⟨⟨found, t₃⟩, cut, split⟩ := Checked.bind_eq_ok.mp split
              obtain ⟨value, sought', split⟩ := Checked.bind_eq_ok.mp split
              obtain ⟨⟨found', t₄⟩, cut', split⟩ := Checked.bind_eq_ok.mp split
              obtain ⟨⟨others, t₅⟩, rest, split⟩ := Checked.bind_eq_ok.mp split
              simp only [scanWhile_of_seekQuote sought, cut, scanWhile_of_seekQuote sought', cut',
                ih rest, Checked.ok_bind]
              exact split

/-- A quote is sought inside a string exactly when the string has one. -/
theorem seekQuote_eq (before : Bytes) {s : Bytes} (nulFree : ∀ c ∈ s, c ≠ 0) (after : Bytes)
    : (quote ∈ s
        ∧ ∃ part rest,
            s = part ++ quote :: rest
            ∧ seekQuote (before ++ (s ++ 0 :: after)) before.length
              = .ok (before.length + part.length))
      ∨ (quote ∉ s
        ∧ seekQuote (before ++ (s ++ 0 :: after)) before.length = .error .outOfBounds) := by
  rcases exists_first (· == quote) s with none | ⟨part, c, rest, rfl, found, earlier⟩
  · have unquoted : quote ∉ s := fun member => by simpa using none quote member
    have passed : ∀ c ∈ s, (c != 0 && c != quote) = true := by
      intro c member
      simpa using ⟨nulFree c member, by simpa using none c member⟩
    have scanned := scanWhile_append before after passed (c := 0) (by decide)
    have read := load_behind before after s 0
    refine .inr ⟨unquoted, ?_⟩
    rw [seekQuote, scanned, Checked.ok_bind, read]
    rfl
  · obtain rfl : c = quote := by simpa using found
    have passed : ∀ c ∈ part, (c != 0 && c != quote) = true := by
      intro c member
      simpa using ⟨nulFree c (by simp [member]), by simpa using earlier c member⟩
    have scanned := scanWhile_append before (rest ++ 0 :: after) passed (c := quote) (by decide)
    have read := load_behind before (rest ++ 0 :: after) part quote
    refine .inl ⟨by simp, part, rest, rfl, ?_⟩
    rw [seekQuote, List.append_assoc, List.cons_append, scanned, Checked.ok_bind, read]
    simp

-----------------------------------------------------------------------------------------
-- The tokens of a text
-----------------------------------------------------------------------------------------

/-- The strings stand in the memory from the addresses on, one behind the other, behind an address.
-/
def Laid (mem : Bytes) : Nat → List Nat → List Bytes → Prop
  | _, [], [] => True
  | front, p :: ps, s :: ss =>
      front ≤ p ∧ (∃ rest, mem.drop p = s ++ 0 :: rest) ∧ Laid mem (p + s.length + 1) ps ss
  | _, _, _ => False

/-- Where strings stand only depends on the memory behind the address. -/
theorem Laid.of_drop {mem mem' : Bytes} {front : Nat} {ps : List Nat} {ss : List Bytes}
    (laid : Laid mem front ps ss) (same : mem'.drop front = mem.drop front)
    : Laid mem' front ps ss := by
  induction ps generalizing front ss with
  | nil =>
      cases ss with
      | nil => trivial
      | cons s ss => cases laid
  | cons p ps ih =>
      cases ss with
      | nil => cases laid
      | cons s ss =>
          obtain ⟨order, ⟨rest, here⟩, further⟩ := laid
          have behind (k : Nat) (order : front ≤ k) : mem'.drop k = mem.drop k := by
            rw [← Nat.add_sub_cancel' order, ← List.drop_drop, same, List.drop_drop]
          exact ⟨order, ⟨rest, by rw [behind p order, here]⟩,
            ih further (behind _ (by omega))⟩

/-- Commas in front of a text are skipped. -/
theorem pieces_commas {commas : Bytes} (all : ∀ c ∈ commas, c = comma) (text : Bytes)
    : pieces (commas ++ text) = pieces text := by
  induction commas with
  | nil => rfl
  | cons c commas ih =>
      obtain ⟨rfl, others⟩ := List.forall_mem_cons.mp all
      have first : pieces (comma :: (commas ++ text)) = pieces (commas ++ text) := by
        rw [pieces, pieces, ← List.nil_append (comma :: _),
          List.splitOn_append_cons_self_of_not_mem (by simp)]
        rfl
      rw [List.cons_append, first, ih others]

/-- A text without commas is one token. -/
theorem pieces_last {piece : Bytes} (filled : piece ≠ []) (whole : comma ∉ piece)
    : pieces piece = [piece] := by
  rw [pieces, List.splitOn_eq_singleton whole]
  simp [filled]

/-- The text in front of a comma is a token. -/
theorem pieces_first {piece : Bytes} (filled : piece ≠ []) (whole : comma ∉ piece) (text : Bytes)
    : pieces (piece ++ comma :: text) = piece :: pieces text := by
  rw [pieces, List.splitOn_append_cons_self_of_not_mem whole]
  simp [filled, pieces]

/-- Behind the delimiters at its start, a text has ended or starts with a token. -/
theorem exists_piece (delim : UInt8) (text : Bytes)
    : ∃ skipped,
        (∀ c ∈ skipped, c = delim)
        ∧ (text = skipped
          ∨ ∃ piece,
              piece ≠ []
              ∧ delim ∉ piece
              ∧ (text = skipped ++ piece
                ∨ ∃ more, text = skipped ++ (piece ++ delim :: more))) := by
  rcases exists_first (· != delim) text with all | ⟨skipped, c, rest, rfl, other, all⟩
  · exact ⟨text, by simpa using all, .inl rfl⟩
  · have other : c ≠ delim := by simpa using other
    have whole {part : Bytes} (inside : ∀ d ∈ part, (d == delim) = false) : delim ∉ c :: part := by
      intro member
      rcases List.mem_cons.mp member with same | member
      · exact other same.symm
      · simpa using inside delim member
    refine ⟨skipped, by simpa using all, .inr ?_⟩
    rcases exists_first (· == delim) rest with inside | ⟨part, d, more, rfl, found, inside⟩
    · exact ⟨c :: rest, by simp, whole inside, .inl rfl⟩
    · obtain rfl : d = delim := by simpa using found
      exact ⟨c :: part, by simp, whole inside, .inr ⟨more, rfl⟩⟩

/-- Behind a token that was cut off, the tokens of the rest are cut, and the token stays. -/
theorem cutTokens_behind {before commas piece rest before' text' after : Bytes} {count : Nat}
    (cut
      : Tokenizer.next ⟨before ++ (commas ++ (piece ++ rest)), before.length⟩ [comma]
        = .ok
            (some (before.length + commas.length),
              ⟨before' ++ (text' ++ 0 :: after), before'.length⟩))
    {rest' : Bytes}
    (stands : before' ++ (text' ++ 0 :: after) = before ++ commas ++ piece ++ 0 :: rest')
    (order : (before ++ commas ++ piece).length ≤ before'.length)
    (last : text' = [] ∨ before'.length = (before ++ commas ++ piece).length + 1)
    (further
      : ∃ tokens t,
          cutTokens count ⟨before' ++ (text' ++ 0 :: after), before'.length⟩ = .ok (tokens, t)
          ∧ Laid t.mem before'.length tokens ((pieces text').take count))
    : ∃ tokens t,
        cutTokens (count + 1) ⟨before ++ (commas ++ (piece ++ rest)), before.length⟩
          = .ok (tokens, t)
        ∧ Laid t.mem before.length tokens (piece :: (pieces text').take count) := by
  obtain ⟨tokens, t, cutRest, laid⟩ := further
  have kept := cutTokens_cut cutRest
  simp only [stands] at kept
  obtain ⟨after', memory⟩ := kept.text order
  refine ⟨(before.length + commas.length) :: tokens, t, ?_, Nat.le_add_right .., ⟨after', ?_⟩, ?_⟩
  · simp only [cutTokens, cut, cutRest, Checked.ok_bind]
  · rw [memory, ← List.length_append, List.append_assoc (before ++ commas), List.drop_left]
  · rcases last with rfl | place
    · have none : (pieces []).take count = [] := by simp [pieces]
      rw [none] at laid ⊢
      cases tokens with
      | nil => trivial
      | cons token tokens => cases laid
    · rw [place, List.length_append, List.length_append] at laid
      exact laid

/-- The tokens that are cut are the first ones of the text, and each stands in the memory. -/
theorem cutTokens_pieces {text : Bytes} (nulFree : ∀ c ∈ text, c ≠ 0) (before after : Bytes)
    (count : Nat)
    : ∃ tokens t,
        cutTokens count ⟨before ++ (text ++ 0 :: after), before.length⟩ = .ok (tokens, t)
        ∧ Laid t.mem before.length tokens ((pieces text).take count) := by
  induction count generalizing before text with
  | zero => exact ⟨[], _, rfl, trivial⟩
  | succ count ih =>
      obtain ⟨commas, all, parts⟩ := exists_piece comma text
      have delims (present : ∀ c ∈ commas, c ≠ 0) : ∀ c ∈ commas, c ≠ 0 ∧ c ∈ [comma] :=
        fun c member => ⟨present c member, by simpa using all c member⟩
      rcases parts with rfl | ⟨piece, filled, whole, parts⟩
      · have ended := Tokenizer.next_none before text after (delims nulFree)
        have none : pieces text = [] := by
          have skipped := pieces_commas all []
          rw [List.append_nil] at skipped
          rw [skipped]
          rfl
        rw [none, List.take_nil, cutTokens, ended]
        exact ⟨[], _, rfl, trivial⟩
      have skip (rest : Bytes) (same : text = commas ++ (piece ++ rest))
          : (∀ c ∈ commas, c ≠ 0 ∧ c ∈ [comma]) ∧ ∀ c ∈ piece, InToken [comma] c := by
        refine ⟨delims fun c member => nulFree c (by simp [same, member]), fun c member => ?_⟩
        exact ⟨nulFree c (by simp [same, member]), fun found => whole (by simp_all)⟩
      rcases parts with rfl | ⟨more, rfl⟩
      · obtain ⟨delims, inside⟩ := skip [] (by simp)
        have cut := Tokenizer.next_token before commas after delims filled inside (.inl rfl)
        have place
            : before.length + commas.length + piece.length
              = (before ++ commas ++ piece).length := by
          simp [Nat.add_assoc]
        have stands
            : before ++ (commas ++ (piece ++ 0 :: after))
              = before ++ commas ++ piece ++ ([] ++ 0 :: after) := by
          simp
        have none : (pieces []).take count = [] := by simp [pieces]
        rw [if_pos rfl, Nat.add_zero, place] at cut
        have behind :=
          cutTokens_behind (cut.trans (by rw [stands])) rfl (Nat.le_refl _) (.inl rfl)
            (ih (by simp) (before ++ commas ++ piece))
        rw [none] at behind
        simpa [pieces_commas all, pieces_last filled whole] using behind
      · obtain ⟨delims, inside⟩ := skip _ rfl
        have cut :=
          Tokenizer.next_token before commas (more ++ 0 :: after) delims filled inside
            (.inr (List.mem_singleton.mpr rfl))
        have place
            : before.length + commas.length + piece.length + 1
              = (before ++ commas ++ piece ++ [0]).length := by
          simp [Nat.add_assoc]
        have stands
            : before ++ (commas ++ (piece ++ 0 :: (more ++ 0 :: after)))
              = before ++ commas ++ piece ++ [0] ++ (more ++ 0 :: after) := by
          simp
        have token
            : before ++ commas ++ piece ++ [0] ++ (more ++ 0 :: after)
              = before ++ commas ++ piece ++ 0 :: (more ++ 0 :: after) := by
          simp
        rw [if_neg (by decide), place] at cut
        have behind :=
          cutTokens_behind (cut.trans (by rw [stands])) token (by simp)
            (.inr (by simp [Nat.add_assoc]))
            (ih (fun c member => nulFree c (by simp [member])) (before ++ commas ++ piece ++ [0]))
        simpa [pieces_commas all, pieces_first filled whole] using behind

-----------------------------------------------------------------------------------------
-- The halves of a token
-----------------------------------------------------------------------------------------

/-- A token with a colon at most at its start is not cut in two. -/
theorem halves_whole {colons name : Bytes} (all : ∀ c ∈ colons, c = colon) (whole : colon ∉ name)
    : halves (colons ++ name) = none := by
  have skipped : (colons ++ name).dropWhile (· = colon) = name.dropWhile (· = colon) :=
    List.dropWhile_append_of_pos (by simpa using all)
  have start : name.dropWhile (· = colon) = name := by
    cases name with
    | nil => rfl
    | cons c name => simp [Ne.symm (List.ne_of_not_mem_cons whole)]
  have passed : name.dropWhile (· ≠ colon) = [] := by
    refine List.dropWhile_eq_nil_iff.mpr fun c member => ?_
    simpa using fun same : c = colon => whole (same ▸ member)
  simp only [halves, skipped, start, passed, List.tail_nil, if_true]

/-- A token is cut at the first colon that is not at its start. -/
theorem halves_colon {colons name : Bytes} (all : ∀ c ∈ colons, c = colon) (filled : name ≠ [])
    (whole : colon ∉ name) (value : Bytes)
    : halves (colons ++ (name ++ colon :: value))
      = if value = [] then none else some (name, value) := by
  obtain ⟨c, name, rfl⟩ := List.exists_cons_of_ne_nil filled
  have first : c ≠ colon := Ne.symm (List.ne_of_not_mem_cons whole)
  have skipped
      : (colons ++ (c :: name ++ colon :: value)).dropWhile (· = colon)
        = c :: name ++ colon :: value := by
    rw [List.dropWhile_append_of_pos (by simpa using all)]
    simp [first]
  have inside : ∀ d ∈ c :: name, decide (d ≠ colon) = true := fun d member => by
    simpa using fun same : d = colon => whole (same ▸ member)
  have front : (c :: name ++ colon :: value).takeWhile (· ≠ colon) = c :: name := by
    rw [List.takeWhile_append_of_pos inside]
    simp
  have behind : (c :: name ++ colon :: value).dropWhile (· ≠ colon) = colon :: value := by
    rw [List.dropWhile_append_of_pos inside]
    simp
  simp only [halves, skipped, front, behind, List.tail_cons]

/-- What is in front of a cut in two and behind it. -/
theorem exists_halves {s name value : Bytes} (cut : halves s = some (name, value))
    : ∃ colons,
        (∀ c ∈ colons, c = colon)
        ∧ name ≠ []
        ∧ colon ∉ name
        ∧ value ≠ []
        ∧ s = colons ++ (name ++ colon :: value) := by
  obtain ⟨colons, all, parts⟩ := exists_piece colon s
  rcases parts with rfl | ⟨part, filled, whole, rfl | ⟨rest, rfl⟩⟩
  · have uncut := halves_whole all (List.not_mem_nil : colon ∉ [])
    rw [List.append_nil, cut] at uncut
    contradiction
  · rw [halves_whole all whole] at cut
    contradiction
  · rw [halves_colon all filled whole] at cut
    split at cut
    next => contradiction
    next filled' =>
      obtain ⟨rfl, rfl⟩ := Prod.mk.inj (Option.some.inj cut)
      exact ⟨colons, all, filled, whole, filled', rfl⟩

/-- In a string, `strtok` writes at most a NUL within the string. -/
theorem next_within (before : Bytes) {s : Bytes} (nulFree : ∀ c ∈ s, c ≠ 0) (after delim : Bytes)
    : ∃ found s' save,
        Tokenizer.next ⟨before ++ (s ++ 0 :: after), before.length⟩ delim
          = .ok (found, ⟨before ++ (s' ++ 0 :: after), save⟩)
        ∧ s'.length = s.length := by
  rcases exists_first (fun c => !delim.contains c) s with all | ⟨skipped, c, rest, rfl, first, all⟩
  · have delims : ∀ c ∈ s, c ≠ 0 ∧ c ∈ delim := fun c member =>
      ⟨nulFree c member, by simpa using all c member⟩
    exact ⟨none, s, _, Tokenizer.next_none before s after delims, rfl⟩
  · have delims : ∀ c ∈ skipped, c ≠ 0 ∧ c ∈ delim := fun c member =>
      ⟨nulFree c (by simp [member]), by simpa using all c member⟩
    have inside {part : Bytes} (within : part ⊆ rest)
        (others : ∀ d ∈ part, delim.contains d = false)
        : ∀ d ∈ c :: part, InToken delim d := by
      refine List.forall_mem_cons.mpr ⟨⟨nulFree c (by simp), by simpa using first⟩, ?_⟩
      exact fun d member =>
        ⟨nulFree d (by simp [within member]), by simpa using others d member⟩
    rcases exists_first delim.contains rest with others | ⟨part, d, more, rfl, found, others⟩
    · have cut :=
        Tokenizer.next_token before skipped after delims (List.cons_ne_nil c rest)
          (inside (List.Subset.refl rest) others) (.inl rfl)
      exact ⟨_, skipped ++ c :: rest, _, by simpa using cut, rfl⟩
    · have cut :=
        Tokenizer.next_token before skipped (more ++ 0 :: after) delims (List.cons_ne_nil c part)
          (inside (List.subset_append_left ..) others) (.inr (by simpa using found))
      exact ⟨_, skipped ++ (c :: part ++ 0 :: more), _, by simpa using cut, by simp⟩

/-- In a string with a quote, what stands behind the quote is cut out within the string; in another
one the quote is sought behind its end.
-/
theorem seekQuote_cut (before : Bytes) {s : Bytes} (nulFree : ∀ c ∈ s, c ≠ 0) (after : Bytes)
    : (quote ∉ s
        ∧ seekQuote (before ++ (s ++ 0 :: after)) before.length = .error .outOfBounds)
      ∨ (quote ∈ s
        ∧ ∃ stop found s' save,
            seekQuote (before ++ (s ++ 0 :: after)) before.length = .ok stop
            ∧ Tokenizer.next ⟨before ++ (s ++ 0 :: after), stop⟩ [quote]
              = .ok (found, ⟨before ++ (s' ++ 0 :: after), save⟩)
            ∧ s'.length = s.length) := by
  rcases seekQuote_eq before nulFree after with ⟨quoted, part, rest, rfl, sought⟩ | unquoted
  · obtain ⟨found, s', save, cut, length⟩ :=
      @next_within (before ++ part) (quote :: rest) (fun c member => nulFree c (by simp_all)) after
        [quote]
    refine .inr ⟨quoted, _, found, part ++ s', save, sought, ?_, by simp [length]⟩
    simpa using cut
  · exact .inl unquoted

/-- A token that is cut in two is cut at its colon, and its halves are cut at their quotes. -/
theorem splitInside_cut (before : Bytes) {colons name value : Bytes}
    (all : ∀ c ∈ colons, c = colon) (filled : name ≠ []) (whole : colon ∉ name)
    (filled' : value ≠ []) (nulFree : ∀ c ∈ colons ++ (name ++ colon :: value), c ≠ 0)
    (after : Bytes) (save : Nat) (tokens : List Nat)
    : splitInside (before.length :: tokens)
          ⟨before ++ (colons ++ (name ++ colon :: value) ++ 0 :: after), save⟩
      = (do
          let temp1 ←
            seekQuote (before ++ colons ++ (name ++ 0 :: (value ++ 0 :: after)))
              (before ++ colons).length
          let (found, t) ←
            Tokenizer.next ⟨before ++ colons ++ (name ++ 0 :: (value ++ 0 :: after)), temp1⟩
              [quote]
          let temp2 ← seekQuote t.mem (before ++ colons ++ name ++ [0]).length
          let (found', t) ← Tokenizer.next ⟨t.mem, temp2⟩ [quote]
          let (pairs, t) ← splitInside tokens t
          .ok ((found, found') :: pairs, t)) := by
  have inName : ∀ c ∈ name, InToken [colon] c := fun c member =>
    ⟨nulFree c (by simp [member]), fun found => whole (by simp_all)⟩
  have inValue : ∀ c ∈ value, InToken [] c := fun c member =>
    ⟨nulFree c (by simp [member]), List.not_mem_nil⟩
  obtain ⟨_, cutColon, cutRest⟩ := next_halves before all filled inName filled' inValue after
  have shape
      : before ++ (colons ++ (name ++ colon :: value) ++ 0 :: after)
        = before ++ (colons ++ (name ++ colon :: (value ++ 0 :: after))) := by
    simp
  rw [shape, splitInside, Tokenizer.strtok, cutColon, Checked.ok_bind]
  simp only [cutRest, Checked.ok_bind, Tokenizer.strtok]

/-- The name of a token that is cut in two is cut out first, then its value. -/
theorem splitInside_halves (before : Bytes) {colons name value : Bytes}
    (all : ∀ c ∈ colons, c = colon) (filled : name ≠ []) (whole : colon ∉ name)
    (filled' : value ≠ []) (nulFree : ∀ c ∈ colons ++ (name ++ colon :: value), c ≠ 0)
    (after : Bytes) (save : Nat) (tokens : List Nat)
    : if quote ∈ name ∧ quote ∈ value then
        ∃ pair s' save',
          s'.length = (colons ++ (name ++ colon :: value)).length
          ∧ splitInside (before.length :: tokens)
                ⟨before ++ (colons ++ (name ++ colon :: value) ++ 0 :: after), save⟩
            = (splitInside tokens ⟨before ++ (s' ++ 0 :: after), save'⟩).map
                fun (pairs, t) => (pair :: pairs, t)
      else
        splitInside (before.length :: tokens)
            ⟨before ++ (colons ++ (name ++ colon :: value) ++ 0 :: after), save⟩
          = .error .outOfBounds := by
  have nameFree : ∀ c ∈ name, c ≠ 0 := fun c member => nulFree c (by simp [member])
  have valueFree : ∀ c ∈ value, c ≠ 0 := fun c member => nulFree c (by simp [member])
  rw [splitInside_cut before all filled whole filled' nulFree]
  rcases seekQuote_cut (before ++ colons) nameFree (value ++ 0 :: after) with
    ⟨unquoted, sought⟩ | ⟨quoted, stop, found, name', save₂, sought, cut, length⟩
  · rw [if_neg fun both => unquoted both.1, sought]
    rfl
  have front
      : (before ++ colons ++ name ++ [0]).length = (before ++ colons ++ name' ++ [0]).length := by
    simp [length]
  have shape
      : before ++ colons ++ (name' ++ 0 :: (value ++ 0 :: after))
        = before ++ colons ++ name' ++ [0] ++ (value ++ 0 :: after) := by
    simp
  simp only [sought, cut, Checked.ok_bind, shape, front]
  rcases seekQuote_cut (before ++ colons ++ name' ++ [0]) valueFree after with
    ⟨unquoted, sought'⟩ | ⟨quoted', stop', found', value', save₃, sought', cut', length'⟩
  · rw [if_neg fun both => unquoted both.2, sought']
    rfl
  rw [if_pos ⟨quoted, quoted'⟩]
  refine ⟨(found, found'), colons ++ (name' ++ 0 :: value'), save₃, by simp [length, length'], ?_⟩
  have shape'
      : before ++ colons ++ name' ++ [0] ++ (value' ++ 0 :: after)
        = before ++ (colons ++ (name' ++ 0 :: value') ++ 0 :: after) := by
    simp
  simp only [sought', cut', Checked.ok_bind, shape']
  cases splitInside tokens ⟨before ++ (colons ++ (name' ++ 0 :: value') ++ 0 :: after), save₃⟩ with
  | error fault => rfl
  | ok result => rfl

/-- A token that is not cut in two ends the parsing. -/
theorem splitInside_whole (before : Bytes) {s : Bytes} (nulFree : ∀ c ∈ s, c ≠ 0)
    (uncut : halves s = none) (after : Bytes) (save : Nat) (tokens : List Nat)
    : ∃ t,
        splitInside (before.length :: tokens) ⟨before ++ (s ++ 0 :: after), save⟩
          = .ok ([], t) := by
  obtain ⟨colons, all, parts⟩ := exists_piece colon s
  have delims (within : colons ⊆ s) : ∀ c ∈ colons, c ≠ 0 ∧ c ∈ [colon] := fun c member =>
    ⟨nulFree c (within member), by simpa using all c member⟩
  rcases parts with rfl | ⟨name, filled, whole, parts⟩
  · have ended := Tokenizer.next_none before s after (delims (List.Subset.refl s))
    simp only [splitInside, Tokenizer.strtok, ended, Checked.ok_bind, Tokenizer.next_again ended]
    exact ⟨_, rfl⟩
  have inside (within : name ⊆ s) : ∀ c ∈ name, InToken [colon] c := fun c member =>
    ⟨nulFree c (within member), fun found => whole (by simp_all)⟩
  -- Behind the token or its colon, there is no rest.
  obtain ⟨t, first, ended⟩
      : ∃ t,
          Tokenizer.next ⟨before ++ (s ++ 0 :: after), before.length⟩ [colon]
            = .ok (some (before ++ colons).length, t)
          ∧ t.next [] = .ok (none, t) := by
    rcases parts with rfl | ⟨value, rfl⟩
    · have cut :=
        Tokenizer.next_token before colons after (delims (by simp)) filled (inside (by simp))
          (.inl rfl)
      have ended := next_rest_nil (before ++ (colons ++ name)) after
      exact ⟨_, by simpa [Nat.add_assoc] using cut, by simpa using ended⟩
    · rw [halves_colon all filled whole] at uncut
      obtain rfl : value = [] := by
        by_contra filled
        rw [if_neg filled] at uncut
        contradiction
      have cut :=
        Tokenizer.next_token before colons (0 :: after) (delims (by simp)) filled
          (inside fun c member => by simp [member]) (.inr (List.mem_singleton.mpr rfl))
      have ended := next_rest_nil (before ++ (colons ++ (name ++ [0]))) after
      rw [if_neg (by decide)] at cut
      exact ⟨_, by simpa [Nat.add_assoc] using cut, by simpa using ended⟩
  simp only [splitInside, Tokenizer.strtok, first, ended, Checked.ok_bind]
  exact ⟨t, rfl⟩

/-- The loop over tokens that stand in the memory stays inside them exactly when, up to the first
token that is not cut in two, both halves of each have a quote.
-/
theorem splitInside_iff {tokens : List Nat} {ss : List Bytes} {t : Tokenizer} {front : Nat}
    (laid : Laid t.mem front tokens ss) (nulFree : ∀ s ∈ ss, ∀ c ∈ s, c ≠ 0)
    : (∃ result, splitInside tokens t = .ok result) ↔ HalvesQuoted ss := by
  induction tokens generalizing ss t front with
  | nil =>
      cases ss with
      | nil => exact iff_of_true ⟨_, rfl⟩ trivial
      | cons s ss => cases laid
  | cons p tokens ih =>
      cases ss with
      | nil => cases laid
      | cons s ss =>
          obtain ⟨mem, save⟩ := t
          obtain ⟨-, ⟨rest, here⟩, behind⟩ := laid
          simp only at here behind
          obtain ⟨free, others⟩ := List.forall_mem_cons.mp nulFree
          obtain ⟨before, rfl, rfl⟩
              : ∃ before, mem = before ++ (s ++ 0 :: rest) ∧ p = before.length := by
            refine ⟨mem.take p, by rw [← here, List.take_append_drop], ?_⟩
            have inside := congrArg List.length here
            rw [List.length_drop, List.length_append, List.length_cons] at inside
            rw [List.length_take_of_le (by omega)]
          rw [HalvesQuoted]
          cases cutInTwo : halves s with
          | none =>
              obtain ⟨t, ended⟩ := splitInside_whole before free cutInTwo rest save tokens
              exact iff_of_true ⟨_, ended⟩ trivial
          | some parts =>
              obtain ⟨name, value⟩ := parts
              obtain ⟨colons, all, filled, whole, filled', rfl⟩ := exists_halves cutInTwo
              have step := splitInside_halves before all filled whole filled' free rest save tokens
              simp only
              by_cases quoted : quote ∈ name ∧ quote ∈ value
              · rw [if_pos quoted] at step
                obtain ⟨pair, s', save', length, step⟩ := step
                have later (s : Bytes)
                    : (before ++ (s ++ 0 :: rest)).drop (before.length + s.length + 1) = rest := by
                  have shape : before ++ (s ++ 0 :: rest) = before ++ s ++ [0] ++ rest := by simp
                  rw [shape]
                  exact List.drop_left' (by simp [Nat.add_assoc])
                have same := (later s').trans (later (colons ++ (name ++ colon :: value))).symm
                rw [length] at same
                have further :=
                  @ih ss ⟨before ++ (s' ++ 0 :: rest), save'⟩ _ (behind.of_drop same) others
                rw [step, ← and_assoc, and_iff_right quoted, ← further]
                simp only [Checked.map_eq_ok]
                constructor
                · rintro ⟨-, result, split, -⟩
                  exact ⟨result, split⟩
                · rintro ⟨result, split⟩
                  exact ⟨_, result, split, rfl⟩
              · rw [if_neg quoted] at step
                rw [step, ← and_assoc]
                exact iff_of_false (by simp) fun all => quoted all.1

/-- What stands between commas is part of the text. -/
theorem subset_of_mem_splitOn {text s : Bytes} (member : s ∈ text.splitOn comma) : s ⊆ text := by
  induction text generalizing s with
  | nil =>
      rw [List.splitOn_nil, List.mem_singleton] at member
      exact member ▸ List.Subset.refl []
  | cons c text ih =>
      rw [List.splitOn_cons_eq_if_modifyHead] at member
      split at member
      next =>
        rcases List.mem_cons.mp member with rfl | later
        · exact List.nil_subset _
        · exact List.subset_cons_of_subset c (ih later)
      next =>
        obtain ⟨first, others, parts⟩ := List.exists_cons_of_ne_nil (List.splitOn_ne_nil comma text)
        rw [parts, List.modifyHead_cons] at member
        rcases List.mem_cons.mp member with rfl | later
        · exact List.cons_subset_cons c (ih (by simp [parts]))
        · exact List.subset_cons_of_subset c (ih (by simp [parts, later]))

/-- The parser stays inside the tokens of a message exactly when, among the first 64 tokens and up
to the first one that is not cut in two, both halves of each have a quote.
-/
theorem staysInside_iff {text : Bytes} (nulFree : ∀ c ∈ text, c ≠ 0) (after : Bytes)
    : StaysInside (text ++ 0 :: after) ↔ HalvesQuoted ((pieces text).take maxJsonToken) := by
  obtain ⟨tokens, t, cut, laid⟩ := cutTokens_pieces nulFree [] after maxJsonToken
  rw [List.nil_append, List.length_nil] at cut
  have inside :=
    splitInside_iff laid fun s member c inside =>
      nulFree c (subset_of_mem_splitOn (List.mem_filter.mp (List.mem_of_mem_take member)).1 inside)
  rw [← inside]
  constructor
  · rintro ⟨parsed, -, returned⟩
    rw [parseInside, cut, Checked.ok_bind] at returned
    obtain ⟨result, split, -⟩ := Checked.bind_eq_ok.mp returned
    exact ⟨result, split⟩
  · rintro ⟨⟨pointers, t'⟩, split⟩
    refine ⟨⟨pointers.length, pointers, t'.mem⟩, ?_, ?_⟩
    · rw [osJsonParseMsg_eq, cut, Checked.ok_bind]
      simp only [splitTokens_of_splitInside split, Checked.ok_bind]
    · rw [parseInside, cut, Checked.ok_bind]
      simp only [split, Checked.ok_bind]

/-- Witness: a message of one pair, whose halves are both quoted. -/
theorem staysInside_iff_pair
    : StaysInside ("\x7b\"a\":\"b\"\x7d".toList.map Char.toUInt8 ++ 0 :: []) :=
  (staysInside_iff (by decide) []).mpr ⟨by decide, by decide, trivial⟩

/-- The parser seeks a quote behind the end of a number. -/
theorem not_staysInside_number
    : ¬ ∀ text after : Bytes, (∀ c ∈ text, c ≠ 0) → StaysInside (text ++ 0 :: after) := by
  intro always
  obtain ⟨parsed, -, returned⟩ :=
    always ("\x7b\"a\":1\x7d".toList.map Char.toUInt8) [] (by decide)
  have outside
      : parseInside ("\x7b\"a\":1\x7d".toList.map Char.toUInt8 ++ 0 :: [])
        = .error .outOfBounds := by
    rfl
  rw [outside] at returned
  contradiction

end Cvos.LibJson

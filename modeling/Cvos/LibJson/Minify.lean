import Cvos.Lib.Json

/-! `cJSON_Minify`, which takes the blanks and comments out of a text in place. It reads ahead of
what it writes, so each read is one of the text as it was given.
-/

namespace Cvos.LibJson

open Cvos.Lib Json

/-- The block with the addresses that are read and written next. -/
structure Minifier where
  mem : Bytes
  json : Nat
  into : Nat

/-- The effect of `*into++=*json++`. -/
def Minifier.copy (m : Minifier) : Checked Minifier := do
  let c ← load m.mem m.json
  let mem ← store m.mem m.into c
  .ok ⟨mem, m.json + 1, m.into + 1⟩

/-- The whitespace that is taken out. -/
def isWhitespace (c : UInt8) : Bool :=
  c == ' '.toUInt8 || c == '\t'.toUInt8 || c == '\r'.toUInt8 || c == '\n'.toUInt8

/-- The slash that comments start with. -/
def slash : UInt8 := '/'.toUInt8

/-- The star of a comment of several lines. -/
def star : UInt8 := '*'.toUInt8

/-- The end of a line. -/
def newline : UInt8 := '\n'.toUInt8

/-- Where the loop over a comment of several lines stops. -/
def scanComment (mem : Bytes) : Nat → Nat → Checked Nat
  | 0, _ => .error .diverges
  | fuel + 1, json => do
      let c ← load mem json
      if c = 0 then
        .ok json
      else if c = star then do
        let next ← load mem (json + 1)
        if next = slash then .ok json else scanComment mem fuel (json + 1)
      else
        scanComment mem fuel (json + 1)

/-- The loop over the characters of a string literal. -/
def copyLiteral : Nat → Minifier → Checked Minifier
  | 0, _ => .error .diverges
  | fuel + 1, m => do
      let c ← load m.mem m.json
      if c = 0 ∨ c = Json.quote then
        .ok m
      else if c = backslash then do
        let m ← m.copy
        let m ← m.copy
        copyLiteral fuel m
      else do
        let m ← m.copy
        copyLiteral fuel m

/-- What is done at a slash. -/
def minifySlash (fuel : Nat) (m : Minifier) : Checked Minifier := do
  let next ← load m.mem (m.json + 1)
  if next = slash then do
    let stop ← scanWhile m.mem (fun c => c != 0 && c != newline) m.json
    .ok { m with json := stop }
  else if next = star then do
    let stop ← scanComment m.mem fuel m.json
    .ok { m with json := stop + 2 }
  else
    m.copy

/-- What is done at a quote. -/
def minifyLiteral (fuel : Nat) (m : Minifier) : Checked Minifier := do
  let m ← m.copy
  let m ← copyLiteral fuel m
  m.copy

/-- The loop of `cJSON_Minify`. -/
def minifyLoop : Nat → Minifier → Checked Minifier
  | 0, _ => .error .diverges
  | fuel + 1, m => do
      let c ← load m.mem m.json
      if c = 0 then
        .ok m
      else if isWhitespace c then
        minifyLoop fuel { m with json := m.json + 1 }
      else if c = slash then do
        let m ← minifySlash (fuel + 1) m
        minifyLoop fuel m
      else if c = Json.quote then do
        let m ← minifyLiteral fuel m
        minifyLoop fuel m
      else do
        let m ← m.copy
        minifyLoop fuel m

/-- `cJSON_Minify` -/
def cJSONMinify (json : Bytes) : Checked Bytes := do
  let m ← minifyLoop (json.length + 1) ⟨json, 0, 0⟩
  store m.mem m.into 0

/-- Where a character of a text stands. -/
inductive Place where
  | outside
  | line
  | comment
  | closing
  | literal
  | escape

/-- What is left of a text from a place on, unless it ends inside a literal or a comment of several
lines. Such a comment may end with the star that it starts with.
-/
def stripped : Place → Bytes → Option Bytes
  | .outside, [] => some []
  | .outside, c :: s =>
      if isWhitespace c then
        stripped .outside s
      else if c = slash ∧ s.head? = some slash then
        stripped .line s
      else if c = slash ∧ s.head? = some star then
        stripped .comment s
      else
        (stripped (if c = Json.quote then .literal else .outside) s).map (c :: ·)
  | .line, [] => some []
  | .line, c :: s => stripped (if c = newline then .outside else .line) s
  | .comment, [] => none
  | .comment, c :: s =>
      stripped (if c = star ∧ s.head? = some slash then .closing else .comment) s
  | .closing, [] => none
  | .closing, _ :: s => stripped .outside s
  | .literal, [] => none
  | .literal, c :: s =>
      (stripped (if c = Json.quote then .outside else if c = backslash then .escape else .literal)
        s).map (c :: ·)
  | .escape, [] => none
  | .escape, c :: s => (stripped .literal s).map (c :: ·)

/-- The block after a part of the result has been written at its start. -/
def rewritten (old done : Bytes) : Bytes := done ++ old.drop done.length

/-- The state in which a part of the result has been written. -/
def Minifier.after (old done : Bytes) (json : Nat) : Minifier :=
  ⟨rewritten old done, json, done.length⟩

/-- What has not been written yet is as it was. -/
theorem load_rewritten {old done : Bytes} {p : Nat} (ahead : done.length ≤ p)
    : load (rewritten old done) p = load old p := by
  rw [load, rewritten, List.getElem?_append_right ahead, List.getElem?_drop,
    Nat.add_sub_cancel' ahead]
  rfl

/-- What has not been written yet is as it was. -/
theorem drop_rewritten {old done : Bytes} {p : Nat} (ahead : done.length ≤ p)
    : (rewritten old done).drop p = old.drop p := by
  rw [rewritten, List.drop_append, List.drop_eq_nil_of_le ahead, List.nil_append, List.drop_drop,
    Nat.add_sub_cancel' ahead]

/-- A character is written behind the others. -/
theorem store_rewritten {old done : Bytes} (inside : done.length < old.length) (c : UInt8)
    : store (rewritten old done) done.length c = .ok (rewritten old (done ++ [c])) := by
  have cut : old.drop done.length = old[done.length] :: old.drop (done.length + 1) :=
    List.drop_eq_getElem_cons inside
  rw [rewritten, cut, store_append_cons, rewritten, List.length_append, List.length_singleton,
    List.append_assoc]
  rfl

section Loops

variable {old done before behind : Bytes}

/-- The character that is read is copied. -/
theorem Minifier.copy_after (ahead : done.length ≤ before.length) {c : UInt8} {rest : Bytes}
    (split : old = before ++ c :: rest)
    : (Minifier.after old done before.length).copy
      = .ok (Minifier.after old (done ++ [c]) (before ++ [c]).length) := by
  have inside : done.length < old.length := by
    rw [split]
    simp
    omega
  simp only [Minifier.copy, Minifier.after, load_rewritten ahead, store_rewritten inside]
  rw [split, load_append_cons]
  simp

/-- The rest of a line is skipped up to the newline. -/
theorem scanFrom_line {s : Bytes} (nulFree : ∀ c ∈ s, c ≠ 0) (p : Nat)
    : ∃ line s',
        s = line ++ s'
        ∧ scanFrom (fun c => c != 0 && c != newline) (s ++ 0 :: behind) p = .ok (p + line.length)
        ∧ stripped .line s = stripped .outside s' := by
  induction s generalizing p with
  | nil => exact ⟨[], [], rfl, rfl, rfl⟩
  | cons c s ih =>
      obtain ⟨filled, nulFree⟩ := List.forall_mem_cons.mp nulFree
      by_cases last : c = newline
      · refine ⟨[], c :: s, rfl, ?_, ?_⟩
        · simp [scanFrom, last]
        · rw [last]
          rfl
      · obtain ⟨line, s', rfl, scanned, same⟩ := ih nulFree (p + 1)
        refine ⟨c :: line, s', rfl, ?_, ?_⟩
        · simp only [List.cons_append, scanFrom]
          rw [if_pos (by simp [filled, last]), scanned, List.length_cons]
          congr 1
          omega
        · rw [stripped, if_neg last, same]

/-- A comment of several lines is skipped as it was given. -/
theorem scanComment_rewritten (fuel : Nat) {p : Nat} (ahead : done.length ≤ p)
    : scanComment (rewritten old done) fuel p = scanComment old fuel p := by
  induction fuel generalizing p with
  | zero => rfl
  | succ fuel ih =>
      have next : done.length ≤ p + 1 := by omega
      simp only [scanComment, load_rewritten ahead, load_rewritten next, ih next]

/-- A comment of several lines is skipped up to its last two characters, or up to the terminator. -/
theorem scanComment_cases {s : Bytes} (nulFree : ∀ c ∈ s, c ≠ 0)
    (split : old = before ++ (s ++ 0 :: behind)) {fuel : Nat} (enough : s.length < fuel)
    : (∃ front s',
        s = front ++ star :: slash :: s'
        ∧ scanComment old fuel before.length = .ok (before.length + front.length)
        ∧ stripped .comment s = stripped .outside s')
      ∨ stripped .comment s = none
        ∧ scanComment old fuel before.length = .ok (before.length + s.length) := by
  induction s generalizing before fuel with
  | nil =>
      obtain ⟨fuel, rfl⟩ := Nat.exists_eq_succ_of_ne_zero (Nat.ne_zero_of_lt enough)
      refine .inr ⟨rfl, ?_⟩
      rw [split, List.nil_append, scanComment, load_append_cons]
      rfl
  | cons c s ih =>
      obtain ⟨filled, nulFree⟩ := List.forall_mem_cons.mp nulFree
      obtain ⟨fuel, rfl⟩ := Nat.exists_eq_succ_of_ne_zero (Nat.ne_zero_of_lt enough)
      have read : load old before.length = .ok c := by rw [split]; exact load_append_cons _ _ _
      have next : load old (before.length + 1) = load (s ++ 0 :: behind) 0 := by
        rw [split, load, load, List.getElem?_append_right (Nat.le_add_right _ 1),
          Nat.add_sub_cancel_left]
        rfl
      by_cases closes : c = star ∧ s.head? = some slash
      · obtain ⟨rfl, head⟩ := closes
        obtain ⟨s, rfl⟩ := List.head?_eq_some_iff.mp head
        refine .inl ⟨[], s, rfl, ?_, rfl⟩
        simp only [scanComment, read, next, Checked.ok_bind]
        rfl
      · have goesOn
            : scanComment old (fuel + 1) before.length
              = scanComment old fuel (before ++ [c]).length := by
          rw [scanComment, read, Checked.ok_bind, if_neg filled, List.length_append]
          by_cases isStar : c = star
          · have other : ∃ d, load (s ++ 0 :: behind) 0 = .ok d ∧ d ≠ slash := by
              cases s with
              | nil => exact ⟨0, rfl, by decide⟩
              | cons d s =>
                  exact ⟨d, rfl, fun same => closes ⟨isStar, by rw [same]; rfl⟩⟩
            obtain ⟨d, known, other⟩ := other
            rw [if_pos isStar, next, known, Checked.ok_bind, if_neg other]
            rfl
          · rw [if_neg isStar]
            rfl
        have rest := @ih (before ++ [c]) nulFree (by rw [split]; simp) fuel
          (Nat.lt_of_succ_lt_succ enough)
        rw [goesOn, stripped, if_neg closes]
        rcases rest with ⟨front, s', rfl, scanned, same⟩ | ⟨torn, scanned⟩
        · refine .inl ⟨c :: front, s', rfl, ?_, same⟩
          rw [scanned]
          simp [Nat.add_assoc, Nat.add_comm 1]
        · refine .inr ⟨torn, ?_⟩
          rw [scanned]
          simp [Nat.add_assoc, Nat.add_comm 1]

/-- A literal is copied up to its last quote. One that is torn is copied up to the terminator, or
the terminator is taken for the character of an escape.
-/
def CopiesLiteral (old behind done before s : Bytes) (result : Checked Minifier) : Prop :=
  (∃ text s',
    s = text ++ Json.quote :: s'
    ∧ result = .ok (.after old (done ++ text) (before ++ text).length)
    ∧ stripped .literal s = (stripped .outside s').map (text ++ Json.quote :: ·))
  ∨ stripped .literal s = none
    ∧ (result = .ok (.after old (done ++ s) (before ++ s).length)
      ∨ (behind = [] → result = .error .outOfBounds))

/-- A part of a literal is copied in front of the rest. -/
theorem CopiesLiteral.append {part s : Bytes} {result : Checked Minifier}
    (copies : CopiesLiteral old behind (done ++ part) (before ++ part) s result)
    (kept : stripped .literal (part ++ s) = (stripped .literal s).map (part ++ ·))
    : CopiesLiteral old behind done before (part ++ s) result := by
  rcases copies with ⟨text, s', rfl, copied, same⟩ | ⟨torn, copied⟩
  · refine .inl ⟨part ++ text, s', by simp, ?_, ?_⟩
    · rw [copied, List.append_assoc, List.append_assoc]
    · rw [kept, same, Option.map_map]
      simp [Function.comp_def]
  · refine .inr ⟨by rw [kept, torn]; rfl, ?_⟩
    simpa only [List.append_assoc] using copied

/-- The loop over a literal. -/
theorem copyLiteral_copies {fuel : Nat} {s : Bytes} (nulFree : ∀ c ∈ s, c ≠ 0)
    (split : old = before ++ (s ++ 0 :: behind)) (ahead : done.length ≤ before.length)
    (enough : s.length < fuel)
    : CopiesLiteral old behind done before s
        (copyLiteral fuel (.after old done before.length)) := by
  induction fuel generalizing done before s with
  | zero => exact absurd enough (Nat.not_lt_zero _)
  | succ fuel ih =>
      have moved {done before part : Bytes} (ahead : done.length ≤ before.length)
          : (done ++ part).length ≤ (before ++ part).length := by simpa using ahead
      cases s with
      | nil =>
          refine .inr ⟨rfl, .inl ?_⟩
          simp only [copyLiteral, Minifier.after, load_rewritten ahead]
          rw [split, List.nil_append, load_append_cons]
          simp
      | cons c s =>
          obtain ⟨filled, inside⟩ := List.forall_mem_cons.mp nulFree
          have split' : old = before ++ c :: (s ++ 0 :: behind) := split
          have copied := Minifier.copy_after ahead split'
          have read : load (Minifier.after old done before.length).mem
              (Minifier.after old done before.length).json = .ok c := by
            simp only [Minifier.after, load_rewritten ahead]
            rw [split', load_append_cons]
          rw [copyLiteral, read, Checked.ok_bind]
          by_cases closes : c = Json.quote
          · rw [if_pos (.inr closes), closes]
            exact .inl ⟨[], s, rfl, by simp, rfl⟩
          rw [if_neg (by simp [filled, closes])]
          by_cases escapes : c = backslash
          · rw [if_pos escapes, copied, Checked.ok_bind]
            subst escapes
            cases s with
            | nil =>
                have nul : old = (before ++ [backslash]) ++ 0 :: behind := by rw [split']; simp
                refine .inr ⟨rfl, .inr fun last => ?_⟩
                rw [Minifier.copy_after (moved ahead) nul, Checked.ok_bind]
                obtain ⟨fuel, rfl⟩ := Nat.exists_eq_succ_of_ne_zero
                  (Nat.ne_zero_of_lt (Nat.lt_of_succ_lt_succ enough))
                simp only [copyLiteral, Minifier.after, load_rewritten (moved (moved ahead))]
                rw [nul, last]
                simp [load]
            | cons d s =>
                have next : old = (before ++ [backslash]) ++ d :: (s ++ 0 :: behind) := by
                  rw [split']
                  simp
                rw [Minifier.copy_after (moved ahead) next, Checked.ok_bind, List.append_assoc,
                  List.append_assoc]
                have rest
                    : CopiesLiteral old behind (done ++ [backslash, d]) (before ++ [backslash, d]) s
                        (copyLiteral fuel (.after old (done ++ [backslash, d])
                          (before ++ [backslash, d]).length)) :=
                  ih (List.forall_mem_cons.mp inside).2 (by rw [split']; simp) (moved ahead)
                    (by simp at enough; omega)
                refine rest.append ?_
                rw [List.cons_append, List.cons_append, List.nil_append, stripped,
                  if_neg (by decide), if_pos rfl, stripped, Option.map_map]
                rfl
          · rw [if_neg escapes, copied, Checked.ok_bind]
            have rest
                : CopiesLiteral old behind (done ++ [c]) (before ++ [c]) s
                    (copyLiteral fuel (.after old (done ++ [c]) (before ++ [c]).length)) :=
              ih inside (by rw [split']; simp) (moved ahead) (Nat.lt_of_succ_lt_succ enough)
            refine rest.append ?_
            rw [List.singleton_append, stripped, if_neg closes, if_neg escapes]
            rfl

/-- What the loop makes of the rest of a text. -/
structure Minifies (old behind done before s : Bytes) (result : Checked Minifier) : Prop where
  whole {out : Bytes} (kept : stripped .outside s = some out)
    : result = .ok (.after old (done ++ out) (before ++ s).length)
  torn (torn : stripped .outside s = none) (last : behind = []) : result = .error .outOfBounds

/-- A part of the text is taken in front of the rest, and some of it is kept. -/
theorem Minifies.append {gone kept s : Bytes} {result : Checked Minifier}
    (minifies : Minifies old behind (done ++ kept) (before ++ gone) s result)
    (same : stripped .outside (gone ++ s) = (stripped .outside s).map (kept ++ ·))
    : Minifies old behind done before (gone ++ s) result := by
  constructor
  · intro out known
    rw [same] at known
    obtain ⟨out', behind', rfl⟩ := Option.map_eq_some_iff.mp known
    rw [minifies.whole behind', List.append_assoc, List.append_assoc]
  · intro torn last
    rw [same] at torn
    exact minifies.torn (Option.map_eq_none_iff.mp torn) last

/-- A text that is torn is left. -/
theorem Minifies.outside {s : Bytes} {result : Checked Minifier} (torn : stripped .outside s = none)
    (left : behind = [] → result = .error .outOfBounds)
    : Minifies old behind done before s result :=
  ⟨fun known => absurd (torn.symm.trans known) (by simp), fun _ => left⟩

/-- Behind the block, nothing is read. -/
theorem minifyLoop_outside {fuel p : Nat} (positive : 0 < fuel) (ahead : done.length ≤ p)
    (beyond : old.length ≤ p)
    : minifyLoop fuel (.after old done p) = .error .outOfBounds := by
  obtain ⟨fuel, rfl⟩ := Nat.exists_eq_succ_of_ne_zero positive.ne'
  simp only [minifyLoop, Minifier.after, load_rewritten ahead]
  rw [load, List.getElem?_eq_none beyond]
  rfl

/-- What is made of the start of a text: some of it is kept, or it is torn and the text is left. -/
inductive Takes (old behind done before s : Bytes) (result : Checked Minifier) : Prop where
  | part (gone kept s' : Bytes) (parts : s = gone ++ s') (atMost : kept.length ≤ gone.length)
    (less : s'.length < s.length)
    (taken : result = .ok (.after old (done ++ kept) (before ++ gone).length))
    (same : stripped .outside s = (stripped .outside s').map (kept ++ ·))
  | torn (torn : stripped .outside s = none)
    (left : behind = []
      → result = .error .outOfBounds
        ∨ ∃ done' p,
            result = .ok (.after old done' p) ∧ done'.length ≤ p ∧ old.length ≤ p)

/-- A slash starts a comment, or is copied. -/
theorem minifySlash_takes {fuel : Nat} {s : Bytes} (nulFree : ∀ c ∈ s, c ≠ 0)
    (split : old = before ++ slash :: (s ++ 0 :: behind)) (ahead : done.length ≤ before.length)
    (enough : s.length < fuel)
    : Takes old behind done before (slash :: s)
        (minifySlash (fuel + 1) (.after old done before.length)) := by
  have next : ∃ d, load (rewritten old done) (before.length + 1) = .ok d ∧ s.head?.getD 0 = d := by
    rw [load_rewritten (by omega), split]
    cases s <;> simp [load]
  obtain ⟨d, read, head⟩ := next
  have starts {c : UInt8} (filled : c ≠ 0) : d = c ↔ s.head? = some c := by
    cases s with
    | nil =>
        exact ⟨fun same => absurd (head.trans same).symm filled, fun none => absurd none (by simp)⟩
    | cons e s => simp [← head]
  have outside : stripped .outside (slash :: s)
      = if s.head? = some slash then stripped .line s
        else if s.head? = some star then stripped .comment s
        else (stripped .outside s).map (slash :: ·) := by
    rw [stripped, if_neg (by decide)]
    simp only [true_and]
    rfl
  simp only [minifySlash, Minifier.after, read, Checked.ok_bind]
  by_cases isLine : d = slash
  · obtain ⟨line, s', rfl, scanned, same⟩ := @scanFrom_line behind s nulFree (before.length + 1)
    rw [if_pos ((starts (by decide)).mp isLine)] at outside
    rw [if_pos isLine]
    refine .part (slash :: line) [] s' rfl (Nat.zero_le _)
      (by rw [List.length_cons, List.length_append]; omega) ?_ (by rw [outside, same]; simp)
    have first
        : (rewritten old done).drop before.length = slash :: (line ++ s' ++ 0 :: behind) := by
      rw [drop_rewritten ahead, split, List.drop_left]
    rw [scanWhile, first, scanFrom, if_pos (by decide), scanned]
    simp [Minifier.after, Nat.add_assoc, Nat.add_comm 1]
  rw [if_neg fun same => isLine ((starts (by decide)).mpr same)] at outside
  rw [if_neg isLine]
  by_cases isComment : d = star
  · rw [if_pos ((starts (by decide)).mp isComment)] at outside
    rw [if_pos isComment, scanComment_rewritten _ ahead]
    have opened : stripped .comment (slash :: s) = stripped .comment s := rfl
    have filled : ∀ c ∈ slash :: s, c ≠ 0 := List.forall_mem_cons.mpr ⟨by decide, nulFree⟩
    rw [← opened] at outside
    rcases scanComment_cases filled split (Nat.succ_lt_succ enough) with
      ⟨front, s', parts, scanned, same⟩ | ⟨torn, scanned⟩
    · refine .part (front ++ [star, slash]) [] s' (by rw [parts]; simp) (by simp)
        (by rw [parts]; simp; omega) ?_ (by rw [outside, same]; simp)
      rw [scanned]
      simp [Minifier.after, Nat.add_assoc]
    · refine .torn (outside.trans torn) fun last => .inr
        ⟨done, before.length + (slash :: s).length + 2, by rw [scanned]; rfl, by omega, ?_⟩
      rw [split, last]
      simp
      omega
  · rw [if_neg fun same => isComment ((starts (by decide)).mpr same)] at outside
    rw [if_neg isComment]
    exact .part [slash] [slash] s rfl le_rfl (Nat.lt_succ_self _)
      (Minifier.copy_after ahead split) outside

/-- A quote starts a literal. -/
theorem minifyLiteral_takes {fuel : Nat} {s : Bytes} (nulFree : ∀ c ∈ s, c ≠ 0)
    (split : old = before ++ Json.quote :: (s ++ 0 :: behind)) (ahead : done.length ≤ before.length)
    (enough : s.length < fuel)
    : Takes old behind done before (Json.quote :: s)
        (minifyLiteral fuel (.after old done before.length)) := by
  have moved {done before : Bytes} (part : Bytes) (ahead : done.length ≤ before.length)
      : (done ++ part).length ≤ (before ++ part).length := by simpa using ahead
  have opened
      : stripped .outside (Json.quote :: s) = (stripped .literal s).map (Json.quote :: ·) := rfl
  have split' : old = (before ++ [Json.quote]) ++ (s ++ 0 :: behind) := by rw [split]; simp
  rw [minifyLiteral, Minifier.copy_after ahead split, Checked.ok_bind]
  rcases copyLiteral_copies nulFree split' (moved _ ahead) enough with
    ⟨text, s', parts, copied, same⟩ | ⟨torn, copied⟩
  · have closing : old = (before ++ [Json.quote] ++ text) ++ Json.quote :: (s' ++ 0 :: behind) := by
      rw [split', parts]
      simp
    rw [copied, Checked.ok_bind, Minifier.copy_after (moved _ (moved _ ahead)) closing]
    refine .part (Json.quote :: (text ++ [Json.quote])) (Json.quote :: (text ++ [Json.quote])) s'
      (by rw [parts]; simp) le_rfl (by rw [parts]; simp; omega) (by simp) ?_
    rw [opened, same, Option.map_map]
    simp [Function.comp_def]
  · refine .torn (by rw [opened, torn]; rfl) fun last => ?_
    rcases copied with copied | left
    · have nul : old = (before ++ [Json.quote] ++ s) ++ 0 :: behind := by rw [split']; simp
      rw [copied, Checked.ok_bind, Minifier.copy_after (moved _ (moved _ ahead)) nul]
      exact .inr ⟨_, _, rfl, moved _ (moved _ (moved _ ahead)), by rw [nul, last]⟩
    · exact .inl (by rw [left last]; rfl)

/-- The loop takes a text as `stripped` says. -/
theorem minifyLoop_minifies {fuel : Nat} {s : Bytes} (nulFree : ∀ c ∈ s, c ≠ 0)
    (split : old = before ++ (s ++ 0 :: behind)) (ahead : done.length ≤ before.length)
    (enough : s.length < fuel)
    : Minifies old behind done before s (minifyLoop fuel (.after old done before.length)) := by
  induction fuel generalizing done before s with
  | zero => exact absurd enough (Nat.not_lt_zero _)
  | succ fuel ih =>
      have read {c : UInt8} {rest : Bytes} (split : old = before ++ c :: rest)
          : load (Minifier.after old done before.length).mem
              (Minifier.after old done before.length).json = .ok c := by
        simp only [Minifier.after, load_rewritten ahead]
        rw [split, load_append_cons]
      cases s with
      | nil =>
          rw [minifyLoop, read split, Checked.ok_bind, if_pos rfl]
          refine ⟨fun known => ?_, fun torn => absurd torn (by simp [stripped])⟩
          obtain rfl := by simpa [stripped] using known
          simp
      | cons c s =>
          obtain ⟨filled, inside⟩ := List.forall_mem_cons.mp nulFree
          have split' : old = before ++ c :: (s ++ 0 :: behind) := split
          have shorter : s.length < fuel := Nat.lt_of_succ_lt_succ enough
          have goesOn {result : Checked Minifier}
              (takes : Takes old behind done before (c :: s) result)
              : Minifies old behind done before (c :: s) (result >>= minifyLoop fuel) := by
            cases takes with
            | part gone kept s' parts atMost less taken same =>
                rw [parts] at nulFree split same
                rw [taken, Checked.ok_bind, parts]
                have nulFree' := (List.forall_mem_append.mp nulFree).2
                have rest := @ih (done ++ kept) (before ++ gone) s' nulFree'
                  (by rw [split]; simp) (by rw [List.length_append, List.length_append]; omega)
                  (less.trans_le (Nat.le_of_lt_succ enough))
                exact rest.append same
            | torn torn left =>
                refine .outside torn fun last => ?_
                rcases left last with left | ⟨done', p, taken, far, beyond⟩
                · rw [left]
                  rfl
                · rw [taken, Checked.ok_bind]
                  exact minifyLoop_outside (Nat.zero_lt_of_lt shorter) far beyond
          rw [minifyLoop, read split', Checked.ok_bind, if_neg filled]
          by_cases white : isWhitespace c
          · rw [if_pos white]
            have takes
                : Takes old behind done before (c :: s)
                    (.ok (.after old (done ++ []) (before ++ [c]).length)) :=
              .part [c] [] s rfl (by simp) (Nat.lt_succ_self _) rfl (by simp [stripped, white])
            simpa [Minifier.after] using goesOn takes
          rw [if_neg white]
          by_cases isSlash : c = slash
          · subst isSlash
            rw [if_pos rfl]
            exact goesOn (minifySlash_takes inside split' ahead shorter)
          rw [if_neg isSlash]
          by_cases isQuote : c = Json.quote
          · subst isQuote
            rw [if_pos rfl]
            exact goesOn (minifyLiteral_takes inside split' ahead shorter)
          rw [if_neg isQuote]
          exact goesOn
            (.part [c] [c] s rfl le_rfl (Nat.lt_succ_self _) (Minifier.copy_after ahead split')
              (by simp [stripped, white, isSlash, isQuote]))

end Loops

/-- What is left of a text is no longer than it. -/
theorem sublist_of_stripped {place : Place} {s out : Bytes} (kept : stripped place s = some out)
    : out.Sublist s := by
  induction s generalizing place out with
  | nil =>
      cases place <;> simp only [stripped, Option.some.injEq, reduceCtorEq] at kept <;>
        simp [← kept]
  | cons c s ih =>
      have dropped {place' : Place} (known : stripped place' s = some out) : out.Sublist (c :: s) :=
        (ih known).cons c
      have copied {place' : Place} (known : (stripped place' s).map (c :: ·) = some out)
          : out.Sublist (c :: s) := by
        obtain ⟨out', behind, rfl⟩ := Option.map_eq_some_iff.mp known
        exact (ih behind).cons_cons c
      cases place with
      | outside =>
          rw [stripped] at kept
          split_ifs at kept
          · exact dropped kept
          · exact dropped kept
          · exact dropped kept
          · exact copied kept
          · exact copied kept
      | line => exact dropped kept
      | comment => exact dropped kept
      | closing => exact dropped kept
      | literal => exact copied kept
      | escape => exact copied kept

/-- A text that is not torn is replaced by what is left of it. The block behind the text, and what
the new terminator leaves of the old text, stay as they were.
-/
theorem cJSONMinify_eq (s : CString) (behind : Bytes) {out : Bytes}
    (kept : stripped .outside s.val = some out)
    : cJSONMinify (s.val ++ 0 :: behind)
      = .ok (out ++ 0 :: (s.val ++ 0 :: behind).drop (out.length + 1)) := by
  have minifies := @minifyLoop_minifies (s.val ++ 0 :: behind) [] [] behind
    ((s.val ++ 0 :: behind).length + 1) s.val s.property rfl le_rfl
    (by rw [List.length_append]; omega)
  have inside : out.length < (s.val ++ 0 :: behind).length := by
    have short := (sublist_of_stripped kept).length_le
    simp
    omega
  have stored := store_rewritten inside 0
  have start
      : (⟨s.val ++ 0 :: behind, 0, 0⟩ : Minifier)
        = .after (s.val ++ 0 :: behind) [] ([] : Bytes).length :=
    rfl
  rw [cJSONMinify, start, minifies.whole kept, Checked.ok_bind, List.nil_append]
  refine stored.trans ?_
  rw [rewritten, List.length_append, List.append_assoc]
  rfl

/-- A text that is torn is left, where nothing stands behind it. -/
theorem cJSONMinify_torn (s : CString) (torn : stripped .outside s.val = none)
    : cJSONMinify (s.val ++ [0]) = .error .outOfBounds := by
  have minifies := @minifyLoop_minifies (s.val ++ [0]) [] [] []
    ((s.val ++ [0]).length + 1) s.val s.property rfl le_rfl (by rw [List.length_append]; omega)
  have start
      : (⟨s.val ++ [0], 0, 0⟩ : Minifier) = .after (s.val ++ [0]) [] ([] : Bytes).length :=
    rfl
  rw [cJSONMinify, start, minifies.torn torn rfl]
  rfl

end Cvos.LibJson

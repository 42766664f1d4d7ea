import Cvos.Vos.DateTime

/-! Which strings `_digit2time` takes for a date. It looks at no character as such: it only compares
the numbers that the characters are read as with upper bounds, and the days with those of the month
in a leap year.
-/

namespace Cvos.Timer

open Cvos.Lib Cvos.Vos

/-- The string is the text of a date and a time of day from 1900 to 2035. -/
def DenotesTime (timeStr : Bytes) (t : CalendarTime) : Prop :=
  1900 ≤ t.year ∧ t.year ≤ 2035 ∧ timeStr = osRecGetTime (brokenDown t)

/-- `_digit2time` looks up the days of a month inside the table, succeeds on exactly the strings
that denote a time, and fills in the fields of that time.
-/
def AcceptsTimes (timeStr : Bytes) : Prop :=
  ∃ ret tm,
    digit2time timeStr 14 = .ok (ret, tm)
    ∧ (ret = 0 ↔ ∃ t, DenotesTime timeStr t)
    ∧ ∀ t, DenotesTime timeStr t → tm = brokenDown t

/-- All characters are digits, no month or day is 00, and a 29th of February is in a leap year. -/
structure WellFormed (timeStr : Bytes) : Prop where
  digits : ∀ c ∈ timeStr, isDigit c
  month : 1 ≤ (fieldsOf timeStr).tmMon
  day : 1 ≤ (fieldsOf timeStr).tmMday
  leap
    : (fieldsOf timeStr).tmMon = 2
      → (fieldsOf timeStr).tmMday = 29
      → IsLeap (fieldsOf timeStr).tmYear.toNat

-----------------------------------------------------------------------------------------
-- Pairs of digits
-----------------------------------------------------------------------------------------

/-- The text of numbers of two digits each. -/
def pairsText (ns : List Nat) : Bytes := ns.flatMap (zeroPadded 2)

/-- A text of digits, of even length, is that of numbers of two digits. -/
theorem exists_pairs {count : Nat} {s : Bytes} (length : s.length = 2 * count)
    (digits : ∀ c ∈ s, isDigit c)
    : ∃ ns, s = pairsText ns ∧ ns.length = count ∧ ∀ n ∈ ns, n < 100 := by
  induction count generalizing s with
  | zero =>
      obtain rfl := List.eq_nil_of_length_eq_zero length
      exact ⟨[], rfl, rfl, by simp⟩
  | succ count ih =>
      obtain ⟨c, d, rest, rfl⟩ : ∃ c d rest, s = c :: d :: rest := by
        rcases s with _ | ⟨c, _ | ⟨d, rest⟩⟩
        case cons.cons => exact ⟨c, d, rest, rfl⟩
        all_goals
          simp only [List.length_nil, List.length_cons] at length
          omega
      obtain ⟨tens, tensSmall, rfl⟩ := exists_digit (digits c (by simp))
      obtain ⟨ones, onesSmall, rfl⟩ := exists_digit (digits d (by simp))
      simp only [List.length_cons] at length
      obtain ⟨ns, rfl, count, small⟩ :=
        @ih rest (by omega) fun c member => digits c (by simp [member])
      refine ⟨(10 * tens + ones) :: ns, ?_, by rw [List.length_cons, count], ?_⟩
      · have first : (10 * tens + ones) / 10 = tens := by omega
        have second : (10 * tens + ones) % 10 = ones := by omega
        rw [pairsText, pairsText, List.flatMap_cons, zeroPadded_two (by omega), first, second]
        rfl
      · exact List.forall_mem_cons.mpr ⟨by omega, small⟩

/-- The text of numbers of two digits has digits only. -/
theorem isDigit_pairsText {ns : List Nat} (small : ∀ n ∈ ns, n < 100)
    : ∀ c ∈ pairsText ns, isDigit c := by
  intro c member
  obtain ⟨n, found, member⟩ := List.mem_flatMap.mp member
  have bound := small n found
  rw [zeroPadded_two bound] at member
  simp only [List.mem_cons, List.not_mem_nil, or_false] at member
  rcases member with rfl | rfl
  · exact isDigit_digitByte _ (by omega)
  · exact isDigit_digitByte _ (by omega)

/-- The text of numbers of two digits has two bytes for each. -/
theorem length_pairsText {ns : List Nat} (small : ∀ n ∈ ns, n < 100)
    : (pairsText ns).length = 2 * ns.length := by
  induction ns with
  | nil => rfl
  | cons n ns ih =>
      obtain ⟨first, others⟩ := List.forall_mem_cons.mp small
      have rest := ih others
      rw [pairsText] at rest ⊢
      rw [List.flatMap_cons, List.length_append, rest, zeroPadded_two first, List.length_cons]
      simp only [List.length_cons, List.length_nil]
      omega

/-- A number of two digits is read back where it stands. -/
theorem pairAt_pairsText {before ns : List Nat} {n : Nat} (small : ∀ m ∈ before, m < 100)
    (bound : n < 100)
    : pairAt (pairsText (before ++ n :: ns)) (2 * before.length) = n := by
  refine pairAt_zeroPadded bound ?_
  have text
      : pairsText (before ++ n :: ns) = pairsText before ++ (zeroPadded 2 n ++ pairsText ns) := by
    rw [pairsText, List.flatMap_append, List.flatMap_cons]
    rfl
  rw [text, ← length_pairsText small, List.drop_left, zeroPadded_two bound]
  rfl

/-- The fields of seven numbers of two digits, of which the first two are the year. -/
theorem fieldsOf_pairsText {century year mon mday hour min sec : Nat}
    (small : ∀ n ∈ [century, year, mon, mday, hour, min, sec], n < 100)
    : fieldsOf (pairsText [century, year, mon, mday, hour, min, sec])
      = ⟨century * 100 + year, mon, mday, hour, min, sec⟩ := by
  have read (before : List Nat) (n : Nat) (ns : List Nat)
      (parts : before ++ n :: ns = [century, year, mon, mday, hour, min, sec])
      : pairAt (pairsText [century, year, mon, mday, hour, min, sec]) (2 * before.length) = n := by
    rw [← parts] at small ⊢
    exact pairAt_pairsText (fun m member => small m (List.mem_append_left _ member))
      (small n (by simp))
  rw [fieldsOf, Tm.mk.injEq]
  refine ⟨?_, ?_, ?_, ?_, ?_, ?_⟩
  · exact congrArg₂ (· * 100 + ·) (read [] century _ rfl) (read [century] year _ rfl)
  · exact read [century, year] mon _ rfl
  · exact read [century, year, mon] mday _ rfl
  · exact read [century, year, mon, mday] hour _ rfl
  · exact read [century, year, mon, mday, hour] min _ rfl
  · exact read [century, year, mon, mday, hour, min] sec _ rfl

-----------------------------------------------------------------------------------------
-- Times and their texts
-----------------------------------------------------------------------------------------

/-- A month has a day exactly when the table has it and it is no 29th of February outside of a leap
year.
-/
theorem le_daysInMonth_iff {year month day : Nat} (inYear : 1 ≤ month ∧ month ≤ 12)
    : day ≤ daysInMonth year month
      ↔ (day : Int) ≤ 29 + monthFix.getD ((month : Int) - 1).toNat 0
        ∧ (month = 2 → day = 29 → IsLeap year) := by
  obtain ⟨first, last⟩ := inYear
  have table
      : ∀ m < (13 : Nat),
          1 ≤ m
          → 29 + monthFix.getD ((m : Int) - 1).toNat 0
            = if m = 2 then 29 else if m ∈ [4, 6, 9, 11] then 30 else 31 := by
    decide
  rw [table month (by omega) first, daysInMonth]
  by_cases february : month = 2
  · rw [if_pos february, if_pos february]
    by_cases leap : IsLeap year
    · simp only [leap, if_true, implies_true, and_true]
      omega
    · simp only [february, leap, if_false, imp_false, forall_const]
      omega
  · rw [if_neg february, if_neg february]
    simp only [february, false_implies, and_true]
    by_cases short : month ∈ [4, 6, 9, 11]
    · rw [if_pos short, if_pos short]
      omega
    · rw [if_neg short, if_neg short]
      omega

/-- The text of a time is that of its numbers. -/
theorem osRecGetTime_brokenDown (t : CalendarTime)
    : osRecGetTime (brokenDown t)
      = pairsText [t.year / 100, t.year % 100, t.month, t.day, t.hour, t.minute, t.second] := by
  have number {width n : Nat} {z : Int} (same : z = n)
      : zeroPaddedInt width z = zeroPadded width n := by
    rw [same, zeroPaddedInt, if_neg (by omega), Int.natAbs_natCast]
  have month := t.monthInYear
  simp only [osRecGetTime, brokenDown]
  rw [@number 4 t.year _ (by omega), @number 2 t.month _ (by omega), @number 2 t.day _ rfl,
    @number 2 t.hour _ rfl, @number 2 t.minute _ rfl, @number 2 t.second _ rfl, zeroPadded_four]
  simp [pairsText]

/-- The numbers of a time up to the year 2035 have two digits each. -/
theorem CalendarTime.small {t : CalendarTime} (before : t.year ≤ 2035)
    : ∀ n ∈ [t.year / 100, t.year % 100, t.month, t.day, t.hour, t.minute, t.second], n < 100 := by
  have month := t.monthInYear
  have day := t.dayInMonth
  have days := daysInMonth_le t.year t.month
  have hour := t.hourInDay
  have minute := t.minuteInHour
  have second := t.secondInMinute
  simp only [List.forall_mem_cons, List.not_mem_nil, false_implies, implies_true, and_true]
  omega

/-- A string that denotes a time has its fields. -/
theorem DenotesTime.fields {timeStr : Bytes} {t : CalendarTime} (denotes : DenotesTime timeStr t)
    : fieldsOf timeStr = ⟨t.year, t.month, t.day, t.hour, t.minute, t.second⟩ := by
  obtain ⟨-, before, rfl⟩ := denotes
  rw [osRecGetTime_brokenDown, fieldsOf_pairsText (CalendarTime.small before)]
  have year : ((t.year / 100 : Nat) : Int) * 100 + (t.year % 100 : Nat) = t.year := by omega
  rw [year]

/-- A string that denotes a time has numbers below their bounds and is well formed. -/
theorem DenotesTime.wellFormed {timeStr : Bytes} {t : CalendarTime}
    (denotes : DenotesTime timeStr t)
    : LooksUp (fieldsOf timeStr) ∧ Below (fieldsOf timeStr) ∧ WellFormed timeStr := by
  have fields := denotes.fields
  obtain ⟨after, before, text⟩ := denotes
  have month := t.monthInYear
  obtain ⟨first, last⟩ := t.dayInMonth
  obtain ⟨day, leap⟩ := (le_daysInMonth_iff month).mp last
  have hour := t.hourInDay
  have minute := t.minuteInHour
  have second := t.secondInMinute
  refine ⟨?_, ?_, ⟨?_, ?_, ?_, ?_⟩⟩
  · rw [fields, LooksUp]
    dsimp only
    omega
  · rw [fields, Below]
    dsimp only
    exact ⟨day, by omega, by omega, by omega⟩
  · rw [text, osRecGetTime_brokenDown]
    exact isDigit_pairsText (CalendarTime.small before)
  · rw [fields]
    dsimp only
    omega
  · rw [fields]
    dsimp only
    omega
  · rw [fields]
    intro february last
    exact leap (Int.ofNat_inj.mp february) (Int.ofNat_inj.mp last)

/-- The seven numbers of a list of that length. -/
theorem exists_seven {ns : List Nat} (count : ns.length = 7)
    : ∃ century year mon mday hour min sec, ns = [century, year, mon, mday, hour, min, sec] := by
  rcases ns with _ | ⟨century, _ | ⟨year, _ | ⟨mon, _ | ⟨mday, _ | ⟨hour, _ | ⟨min, rest⟩⟩⟩⟩⟩⟩
  case cons.cons.cons.cons.cons.cons =>
    simp only [List.length_cons] at count
    obtain ⟨sec, rfl⟩ := List.length_eq_one_iff.mp (by omega : rest.length = 1)
    exact ⟨century, year, mon, mday, hour, min, sec, rfl⟩
  all_goals
    simp only [List.length_nil, List.length_cons] at count
    omega

/-- A well formed string with numbers below their bounds denotes a time. -/
theorem exists_denotesTime {timeStr : Bytes} (length : timeStr.length = 14)
    (looksUp : LooksUp (fieldsOf timeStr)) (below : Below (fieldsOf timeStr))
    (wellFormed : WellFormed timeStr)
    : ∃ t, DenotesTime timeStr t := by
  obtain ⟨ns, text, count, small⟩ := @exists_pairs 7 timeStr length wellFormed.digits
  obtain ⟨century, year, mon, mday, hour, min, sec, rfl⟩ := exists_seven count
  have fields := fieldsOf_pairsText small
  rw [← text] at fields
  obtain ⟨-, month, day, leap⟩ := wellFormed
  rw [fields] at looksUp below month day leap
  obtain ⟨after, before, months⟩ := looksUp
  obtain ⟨last, hours, minutes, seconds⟩ := below
  dsimp only at *
  have number : ((century : Int) * 100 + year).toNat = 100 * century + year := by omega
  rw [number] at leap
  simp only [List.forall_mem_cons] at small
  refine
    ⟨
      {
        year := 100 * century + year
        month := mon
        day := mday
        hour := hour
        minute := min
        second := sec
        monthInYear := by omega
        dayInMonth := ⟨by omega, (le_daysInMonth_iff (by omega)).mpr ⟨last, ?_⟩⟩
        hourInDay := by omega
        minuteInHour := by omega
        secondInMinute := by omega
      },
      ?_, ?_, ?_⟩
  · intro february last
    exact leap (by omega) (by omega)
  · dsimp only
    omega
  · dsimp only
    omega
  · rw [osRecGetTime_brokenDown, text]
    dsimp only
    have first : (100 * century + year) / 100 = century := by omega
    have second : (100 * century + year) % 100 = year := by omega
    rw [first, second]

/-- The strings that denote a time are those whose numbers are below their bounds and that are well
formed.
-/
theorem denotesTime_iff {timeStr : Bytes} (length : timeStr.length = 14)
    : (∃ t, DenotesTime timeStr t)
      ↔ LooksUp (fieldsOf timeStr) ∧ Below (fieldsOf timeStr) ∧ WellFormed timeStr := by
  constructor
  · rintro ⟨t, denotes⟩
    exact denotes.wellFormed
  · rintro ⟨looksUp, below, wellFormed⟩
    exact exists_denotesTime length looksUp below wellFormed

-----------------------------------------------------------------------------------------
-- The strings that are accepted
-----------------------------------------------------------------------------------------

/-- The strings that `_digit2time` treats as it should are those whose year or month is above its
bound, those with a month from the first one on and with a day or a time of day above its bound, and
those that are well formed.
-/
theorem acceptsTimes_iff {timeStr : Bytes} (length : timeStr.length = 14)
    : AcceptsTimes timeStr
      ↔ ¬LooksUp (fieldsOf timeStr)
        ∨ (1 ≤ (fieldsOf timeStr).tmMon ∧ ¬Below (fieldsOf timeStr))
        ∨ WellFormed timeStr := by
  have fields := readFields_eq length
  have denotes := denotesTime_iff length
  -- A refused string is treated as it should when it denotes no time.
  have refused (valid : validFields (fieldsOf timeStr) = .ok false)
      (none : ¬∃ t, DenotesTime timeStr t)
      : AcceptsTimes timeStr := by
    refine ⟨-2, fieldsOf timeStr, ?_, iff_of_false (by decide) none, ?_⟩
    · simp [digit2time, fields, valid]
    · exact fun t found => absurd ⟨t, found⟩ none
  by_cases looksUp : LooksUp (fieldsOf timeStr)
  case neg =>
    refine iff_of_true (refused (validFields_refused looksUp) ?_) (.inl looksUp)
    exact fun found => looksUp (denotes.mp found).1
  by_cases month : 1 ≤ (fieldsOf timeStr).tmMon
  case neg =>
    have outside := validFields_outOfBounds looksUp (by omega)
    refine iff_of_false ?_ ?_
    · rintro ⟨ret, tm, result, -⟩
      simp [digit2time, fields, outside] at result
    · rintro (refused | ⟨first, -⟩ | wellFormed)
      · exact refused looksUp
      · exact month first
      · exact month wellFormed.month
  have valid := validFields_month looksUp month
  by_cases below : Below (fieldsOf timeStr)
  case neg =>
    rw [decide_eq_false below] at valid
    refine iff_of_true (refused valid ?_) (.inr (.inl ⟨month, below⟩))
    exact fun found => below (denotes.mp found).2.1
  rw [decide_eq_true below] at valid
  simp only [looksUp, below, not_true_eq_false, and_false, false_or, true_and] at denotes ⊢
  rw [← denotes]
  constructor
  · rintro ⟨ret, tm, result, success, -⟩
    simp only [digit2time, fields, valid, Checked.ok_bind, ne_eq, not_true_eq_false, if_false,
      if_true, Except.ok.injEq, Prod.mk.injEq] at result
    exact success.mp result.1.symm
  · intro found
    refine ⟨0, { fieldsOf timeStr with
      tmYear := (fieldsOf timeStr).tmYear - 1900, tmMon := (fieldsOf timeStr).tmMon - 1 }, ?_,
      iff_of_true rfl found, ?_⟩
    · simp [digit2time, fields, valid]
    · intro t found
      rw [found.fields]
      rfl

/-- Witness: the 29th of February of a leap year is accepted. -/
theorem acceptsTimes_iff_leapDay : AcceptsTimes ("20160229235959".toList.map Char.toUInt8) :=
  (acceptsTimes_iff (by decide)).mpr (.inr (.inr ⟨by decide, by decide, by decide, by decide⟩))

/-- The 29th of February of a common year is accepted. -/
theorem not_acceptsTimes_commonYear
    : ¬ ∀ timeStr : Bytes, timeStr.length = 14 → AcceptsTimes timeStr := by
  intro always
  obtain ⟨ret, tm, result, success, same⟩ :=
    always ("20170229000000".toList.map Char.toUInt8) (by decide)
  have converted
      : digit2time ("20170229000000".toList.map Char.toUInt8) 14 = .ok (0, ⟨117, 1, 29, 0, 0, 0⟩) :=
    rfl
  obtain ⟨rfl, rfl⟩ := Prod.mk.inj (Except.ok.inj (converted.symm.trans result))
  obtain ⟨t, denotes⟩ := success.mp rfl
  have wellFormed := ((denotesTime_iff (by decide)).mp ⟨t, denotes⟩).2.2
  exact absurd (wellFormed.leap (by decide) (by decide)) (by decide)

end Cvos.Timer

import Cvos.CfgFile.Find

/-! A configuration as a list of sections with bindings, and the cursor search as a lookup in
it: the first header of a name opens the section, and the first binding of a key counts.
-/

namespace Cvos.CfgFile

open Cvos.Lib

/-- The key without quotes and the value of a `key = value` entry. -/
def CfgEntry.binding (e : Entry) : Option (Bytes × Bytes) :=
  match e.sectionName, e.id, e.value with
  | none, some id, some value => (removeQuotes id).map (·, value)
  | _, _, _ => none

/-- The value that the entry gives to the key. -/
def CfgEntry.valueOf (k : Bytes) (e : Entry) : Option Bytes :=
  e.binding.bind fun binding => if binding.1 = k then some binding.2 else none

/-- The value that the first binding of the key has in a section. -/
def lookup (body : List Entry) (k : Bytes) : Option Bytes := body.findSome? (CfgEntry.valueOf k)

/-- The entries up to the next header. -/
def untilHeader (es : List Entry) : List Entry := es.takeWhile (fun e => !e.isHeader)

/-- The entries between the first header of the name and the next header. -/
def sectionBody (es : List Entry) (s : Bytes) : Option (List Entry) :=
  match es with
  | [] => none
  | e :: rest => if e.sectionName = some s then some (untilHeader rest) else sectionBody rest s

/-- The key without quotes of a `key = value` entry. -/
def CfgEntry.keyOf (e : Entry) : Option Bytes := e.binding.map Prod.fst

/-- The first entry of the section that has the key. -/
def firstWithKey (es : List Entry) (s k : Bytes) : Option Entry :=
  (sectionBody es s).bind fun body => body.find? (fun e => e.keyOf = some k)

/-- What a search for a section, or for a key in it, delivers. -/
def lookupIn (es : List Entry) (s : Bytes) (id : Option Bytes) : Option (Option Bytes) :=
  (sectionBody es s).bind fun body =>
    match id with
    | none => some none
    | some k => (lookup body k).map some

/-- The value of a key in a section. -/
def valueIn (es : List Entry) (s k : Bytes) : Option Bytes :=
  (sectionBody es s).bind fun body => lookup body k

/-- The entry is shown by the cursor. -/
def CfgEntry.visible (e : Entry) : Bool := e.sectionName.isSome || e.value.isSome

/-- What a search without a section delivers, where the first visible entry opens the section
without being looked at itself.
-/
def lookupFirst (es : List Entry) (k : Bytes) : Checked (Option (Option Bytes)) :=
  match es.dropWhile (fun e => !e.visible) with
  | [] => .ok none
  | e :: rest =>
      if e.isHeader then .error .nullPointer else .ok ((lookup (untilHeader rest) k).map some)

/-- The value that a finished search delivers. -/
def delivered (result : Checked (Int × Config)) : Checked (Option (Option Bytes)) := do
  let (ret, c) ← result
  .ok (if ret = 0 then some c.value else none)

/-- The cursor of a valid configuration stands before the given entries. -/
structure Before (rest : List Entry) (c : Config) : Prop where
  valid : c.valid
  eof : c.eof = false
  rest : c.pool.entries.drop c.cursor = rest

/-- The search for a key in a section is the search for its value. -/
theorem lookupIn_eq_valueIn (es : List Entry) (s k : Bytes)
    : lookupIn es s (some k) = (valueIn es s k).map some := by
  rw [lookupIn, valueIn]
  cases sectionBody es s <;> rfl

/-- A header ends the entries of a section. -/
theorem untilHeader_cons (e : Entry) (rest : List Entry)
    : untilHeader (e :: rest) = if e.isHeader then [] else e :: untilHeader rest := by
  cases header : e.isHeader <;> simp [untilHeader, header]

/-- An entry without a key has no binding for it. -/
theorem lookup_cons (e : Entry) (rest : List Entry) (k : Bytes)
    : lookup (e :: rest) k = (e.valueOf k).or (lookup rest k) := by
  cases found : e.valueOf k <;> simp [lookup, found]

/-- A `key = value` entry gives its value to the key that its id is without quotes. -/
theorem valueOf_define {e : Entry} {id value : Bytes} (noHeader : e.sectionName = none)
    (key : e.id = some id) (shown : e.value = some value) (k : Bytes)
    : e.valueOf k = if removeQuotes id = some k then some value else none := by
  cases stripped : removeQuotes id <;>
    simp [CfgEntry.valueOf, CfgEntry.binding, noHeader, key, shown, stripped]

/-- An entry without id or value gives no value. -/
theorem valueOf_eq_none {e : Entry} (missing : e.id = none ∨ e.value = none) (k : Bytes)
    : e.valueOf k = none := by
  have noBinding : e.binding = none := by
    obtain ⟨sectionName, id, value, comment⟩ := e
    rcases missing with rfl | rfl
    · cases sectionName <;> rfl
    · cases sectionName <;> cases id <;> rfl
  rw [CfgEntry.valueOf, noBinding, Option.bind_none]

/-- The value that an entry gives a key is its value. -/
theorem value_of_valueOf {e : Entry} {k value : Bytes} (gives : e.valueOf k = some value)
    : e.value = some value := by
  obtain ⟨sectionName, id, shown, comment⟩ := e
  cases id with
  | none => rw [valueOf_eq_none (Or.inl rfl)] at gives; contradiction
  | some id =>
      cases shown with
      | none => rw [valueOf_eq_none (Or.inr rfl)] at gives; contradiction
      | some shown =>
          cases sectionName with
          | some name => contradiction
          | none =>
              rw [valueOf_define rfl rfl rfl] at gives
              split at gives
              next => exact gives
              next => contradiction

/-- The search compares the key it is asked for with the id without quotes. -/
theorem sameKey_eq {c : Config} {id : Bytes} (key : c.id = some id) (k : Bytes)
    : sameKey c (some k) = .ok (removeQuotes id = some k) := by
  cases stripped : removeQuotes id <;> simp [sameKey, key, stripped, strcmpEq]

/-- No key is the same as a null pointer. -/
theorem sameKey_null (c : Config) : sameKey c none ≠ .ok true := by
  rw [sameKey]
  cases c.id with
  | none => simp
  | some id => cases stripped : removeQuotes id <;> simp [stripped, strcmpEq]

/-- The cursor moves past the entry in front of it. -/
theorem Before.next {e : Entry} {rest : List Entry} {c : Config} (h : Before (e :: rest) c)
    : c.pool.entries.drop (c.cursor + 1) = rest := by
  rw [← List.tail_drop, h.rest, List.tail_cons]

/-- At the end of the entries the cursor stays. -/
theorem cfgNextentry_nil {c : Config} (h : Before [] c) : (cfgNextentry c).1 = -1 := by
  simp [cfgNextentry, h.valid, h.eof, h.rest, nextentryFrom]

/-- The cursor passes an entry that only has a comment. -/
theorem cfgNextentry_skip {e : Entry} {rest : List Entry} {c : Config} (h : Before (e :: rest) c)
    (hidden : e.visible = false)
    : cfgNextentry c = cfgNextentry { c with cursor := c.cursor + 1 } := by
  obtain ⟨sectionName, id, value, comment⟩ := e
  simp only [CfgEntry.visible, Bool.or_eq_false_iff, Option.isSome_eq_false_iff,
    Option.isNone_iff_eq_none] at hidden
  obtain ⟨rfl, rfl⟩ := hidden
  simp [cfgNextentry, h.valid, h.eof, h.rest, h.next, nextentryFrom]

/-- The cursor stops at a header. -/
theorem cfgNextentry_section {e : Entry} {rest : List Entry} {c : Config}
    (h : Before (e :: rest) c) {name : Bytes} (header : e.sectionName = some name)
    : ∃ c',
        cfgNextentry c = (0, c')
        ∧ Before rest c'
        ∧ c'.type = .cfgSection
        ∧ c'.sectionName = some name
        ∧ c'.value = none := by
  simp only [cfgNextentry, h.valid, h.eof, h.rest, nextentryFrom, header]
  exact ⟨_, rfl, ⟨rfl, rfl, h.next⟩, rfl, rfl, rfl⟩

/-- The cursor stops at an entry with a value. -/
theorem cfgNextentry_value {e : Entry} {rest : List Entry} {c : Config}
    (h : Before (e :: rest) c) {value : Bytes} (noHeader : e.sectionName = none)
    (shown : e.value = some value)
    : ∃ c',
        cfgNextentry c = (0, c')
        ∧ Before rest c'
        ∧ c'.type = (if e.id.isSome then .cfgDefine else .cfgContinue)
        ∧ c'.id = e.id
        ∧ c'.value = some value := by
  simp only [cfgNextentry, h.valid, h.eof, h.rest, nextentryFrom, noHeader, shown]
  cases e.id with
  | none => exact ⟨_, rfl, ⟨rfl, rfl, h.next⟩, rfl, rfl, rfl⟩
  | some id => exact ⟨_, rfl, ⟨rfl, rfl, h.next⟩, rfl, rfl, rfl⟩

/-- A search goes past an entry that only has a comment. -/
theorem findLoop_skip {e : Entry} {rest : List Entry} {c : Config} (h : Before (e :: rest) c)
    (hidden : e.visible = false) (sectionName id : Option Bytes) (bound : Nat) (atsection : Bool)
    : findLoop sectionName id bound atsection c
      = findLoop sectionName id bound atsection { c with cursor := c.cursor + 1 } := by
  cases bound with
  | zero => rfl
  | succ bound => rw [findLoop, findLoop, cfgNextentry_skip h hidden]

/-- A search that has no entries left fails. -/
theorem findLoop_nil {c : Config} (h : Before [] c) (sectionName id : Option Bytes) (bound : Nat)
    (atsection : Bool)
    : delivered (findLoop sectionName id (bound + 1) atsection c) = .ok none := by
  have ended := cfgNextentry_nil h
  rw [findLoop]
  split
  next found => simp [found] at ended
  next => simp [delivered]

/-- The cursor stands behind an entry that was passed. -/
theorem Before.pass {e : Entry} {rest : List Entry} {c : Config} (h : Before (e :: rest) c)
    : Before rest { c with cursor := c.cursor + 1 } where
  valid := h.valid
  eof := h.eof
  rest := h.next

/-- In its section, a search looks up the key before the next header. -/
theorem findLoop_atsection (sectionName : Option Bytes) (k : Bytes) {rest : List Entry}
    {bound : Nat} {c : Config} (h : Before rest c) (enough : rest.length < bound)
    : delivered (findLoop sectionName (some k) bound true c)
      = .ok ((lookup (untilHeader rest) k).map some) := by
  induction rest generalizing bound c with
  | nil =>
      obtain ⟨bound, rfl⟩ := Nat.exists_eq_succ_of_ne_zero (Nat.ne_of_gt enough)
      exact findLoop_nil h ..
  | cons e rest ih =>
      obtain ⟨bound, rfl⟩ := Nat.exists_eq_succ_of_ne_zero (Nat.ne_of_gt (Nat.zero_lt_of_lt enough))
      have fewer : rest.length < bound := Nat.lt_of_succ_lt_succ enough
      rw [untilHeader_cons]
      cases header : e.sectionName with
      | some name =>
          obtain ⟨c', next, -, type, -, -⟩ := cfgNextentry_section h header
          simp [findLoop, next, type, delivered, CfgEntry.isHeader, header, lookup]
      | none =>
          have noHeader : e.isHeader = false := by simp [CfgEntry.isHeader, header]
          rw [noHeader, if_neg (by simp), lookup_cons]
          cases shown : e.value with
          | none =>
              have hidden : e.visible = false := by simp [CfgEntry.visible, header, shown]
              rw [findLoop_skip h hidden, valueOf_eq_none (Or.inr shown), Option.none_or]
              exact ih h.pass (Nat.lt_succ_of_lt fewer)
          | some value =>
              obtain ⟨c', next, before, type, sameId, delivers⟩ := cfgNextentry_value h header shown
              have further := ih before fewer
              cases key : e.id with
              | none =>
                  rw [valueOf_eq_none (Or.inl key)]
                  simpa [findLoop, next, type, key] using further
              | some id =>
                  rw [valueOf_define header key shown]
                  rw [key] at sameId
                  by_cases same : removeQuotes id = some k
                  · simp [findLoop, next, type, key, sameKey_eq sameId, same, delivered, delivers]
                  · simpa [findLoop, next, type, key, sameKey_eq sameId, same] using further

/-- Outside its section, a search for a named section looks for the first header of the name.
-/
theorem findLoop_named (s : Bytes) (id : Option Bytes) {rest : List Entry} {bound : Nat}
    {c : Config} (h : Before rest c) (enough : rest.length < bound)
    : delivered (findLoop (some s) id bound false c) = .ok (lookupIn rest s id) := by
  induction rest generalizing bound c with
  | nil =>
      obtain ⟨bound, rfl⟩ := Nat.exists_eq_succ_of_ne_zero (Nat.ne_of_gt enough)
      exact findLoop_nil h ..
  | cons e rest ih =>
      obtain ⟨bound, rfl⟩ := Nat.exists_eq_succ_of_ne_zero (Nat.ne_of_gt (Nat.zero_lt_of_lt enough))
      have fewer : rest.length < bound := Nat.lt_of_succ_lt_succ enough
      have onward (other : e.sectionName ≠ some s)
          : lookupIn (e :: rest) s id = lookupIn rest s id := by
        rw [lookupIn, sectionBody, if_neg other, lookupIn]
      cases header : e.sectionName with
      | some name =>
          obtain ⟨c', next, before, type, sameName, noValue⟩ := cfgNextentry_section h header
          by_cases same : name = s
          · subst same
            cases id with
            | none =>
                rw [lookupIn, sectionBody, if_pos header]
                simp [findLoop, next, type, sameName, strcmpEq, delivered, noValue]
            | some k =>
                rw [lookupIn, sectionBody, if_pos header]
                simpa [findLoop, next, type, sameName, strcmpEq]
                  using findLoop_atsection (some name) k before fewer
          · rw [onward (by simpa [header] using same)]
            simpa [findLoop, next, type, sameName, strcmpEq, same] using ih before fewer
      | none =>
          rw [onward (by simp [header])]
          cases shown : e.value with
          | none =>
              have hidden : e.visible = false := by simp [CfgEntry.visible, header, shown]
              rw [findLoop_skip h hidden]
              exact ih h.pass (Nat.lt_succ_of_lt fewer)
          | some value =>
              obtain ⟨c', next, before, type, -, -⟩ := cfgNextentry_value h header shown
              have further := ih before fewer
              cases key : e.id <;> simpa [findLoop, next, type, key] using further

/-- Without a section, the first visible entry opens the section unseen, and a header there
makes the search compare with a null pointer.
-/
theorem findLoop_null (k : Bytes) {rest : List Entry} {bound : Nat} {c : Config}
    (h : Before rest c) (enough : rest.length < bound)
    : delivered (findLoop none (some k) bound false c) = lookupFirst rest k := by
  induction rest generalizing bound c with
  | nil =>
      obtain ⟨bound, rfl⟩ := Nat.exists_eq_succ_of_ne_zero (Nat.ne_of_gt enough)
      exact findLoop_nil h ..
  | cons e rest ih =>
      obtain ⟨bound, rfl⟩ := Nat.exists_eq_succ_of_ne_zero (Nat.ne_of_gt (Nat.zero_lt_of_lt enough))
      have fewer : rest.length < bound := Nat.lt_of_succ_lt_succ enough
      cases header : e.sectionName with
      | some name =>
          obtain ⟨c', next, before, type, sameName, -⟩ := cfgNextentry_section h header
          simp [findLoop, next, type, sameName, strcmpEq, delivered, lookupFirst, CfgEntry.visible,
            CfgEntry.isHeader, header]
      | none =>
          cases shown : e.value with
          | none =>
              have hidden : e.visible = false := by simp [CfgEntry.visible, header, shown]
              rw [findLoop_skip h hidden, ih h.pass (Nat.lt_succ_of_lt fewer)]
              simp [lookupFirst, hidden]
          | some value =>
              obtain ⟨c', next, before, type, -, -⟩ := cfgNextentry_value h header shown
              have further := findLoop_atsection none k before fewer
              cases key : e.id <;>
                simpa [findLoop, next, type, key, lookupFirst, CfgEntry.visible, header, shown,
                  CfgEntry.isHeader] using further

/-- A search without a section and without a key finds nothing. -/
theorem findLoop_nothing {bound : Nat} {atsection : Bool} {c c' : Config} {ret : Int}
    (returned : findLoop none none bound atsection c = .ok (ret, c'))
    : ret = -1 := by
  induction bound generalizing atsection c with
  | zero => contradiction
  | succ bound ih =>
      rw [findLoop] at returned
      split at returned
      next c₁ next =>
        cases atsection with
        | true =>
            rw [if_pos rfl] at returned
            split at returned
            next =>
              cases returned
              rfl
            next =>
              split at returned
              next =>
                obtain ⟨same, compared, returned⟩ := Checked.bind_eq_ok.mp returned
                -- a key is only compared with a null pointer if it is one of quotes
                cases same with
                | true => exact absurd compared (sameKey_null c₁)
                | false => exact ih returned
              next => exact ih returned
        | false =>
            rw [if_neg Bool.false_ne_true] at returned
            have fault : strcmpEq c₁.sectionName none = .error .nullPointer := by
              cases c₁.sectionName <;> rfl
            split at returned
            next => simp [fault] at returned
            next => exact ih returned
      next =>
        cases returned
        rfl

/-- A search starts before the first entry. -/
theorem before_rewind {c : Config} (valid : c.valid)
    : Before c.pool.entries { c with eof := false, type := .cfgError, cursor := 0 } where
  valid := valid
  eof := rfl
  rest := rfl

/-- `cfg_find` in a named section is the lookup in it, whatever the cursor was. -/
theorem findValue_named {c : Config} (valid : c.valid) (s : Bytes) (id : Option Bytes)
    : findValue c (some s) id = .ok (lookupIn c.pool.entries s id) := by
  have search := findLoop_named s id (before_rewind valid) (Nat.lt_succ_self _)
  simpa [findValue, cfgFind, cfgRewind, valid, delivered] using search

/-- `cfg_find` without a section and without a key finds nothing. -/
theorem findValue_nothing {c : Config} {found : Option (Option Bytes)}
    (returned : findValue c none none = .ok found)
    : found = none := by
  rw [findValue] at returned
  obtain ⟨⟨ret, c'⟩, searched, found_eq⟩ := Checked.bind_eq_ok.mp returned
  have failed : ret = -1 := by
    rw [cfgFind] at searched
    split at searched
    next => exact findLoop_nothing searched
    next =>
      cases searched
      rfl
  dsimp only at found_eq
  rw [failed, if_neg (by decide), Except.ok.injEq] at found_eq
  exact found_eq.symm

/-- `cfg_find` without a section looks behind the first visible entry, up to the first header.
-/
theorem findValue_null {c : Config} (valid : c.valid) (k : Bytes)
    : findValue c none (some k) = lookupFirst c.pool.entries k := by
  have search := findLoop_null k (before_rewind valid) (Nat.lt_succ_self _)
  simpa [findValue, cfgFind, cfgRewind, valid, delivered] using search

end Cvos.CfgFile

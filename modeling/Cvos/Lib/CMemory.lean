import Mathlib.Data.List.DropRight

/-! One block of bytes as C code sees it: checked reads and writes, the scanning loops over
it, and the string that starts at an address. An access outside the block is a fault, and
every operation on an address past a prefix of the block leaves that prefix alone.
-/

namespace Cvos.Lib

/-- Why C code has no defined result. -/
inductive Fault where
  | outOfBounds
  | nullPointer
  | useAfterFree
  | diverges
  deriving DecidableEq, Repr

/-- The result of code that may have none. -/
abbrev Checked (α : Type) := Except Fault α

/-- Code that has run without a fault hands its result on. -/
@[simp]
theorem Checked.ok_bind {α β : Type} (a : α) (next : α → Checked β)
    : ((.ok a : Checked α) >>= next) = next a := rfl

/-- Code that follows a fault does not run. -/
@[simp]
theorem Checked.error_bind {α β : Type} (fault : Fault) (next : α → Checked β)
    : ((.error fault : Checked α) >>= next) = .error fault := rfl

/-- Code has a result exactly when each of its parts has one. -/
theorem Checked.bind_eq_ok {α β : Type} {x : Checked α} {next : α → Checked β} {b : β}
    : x >>= next = .ok b ↔ ∃ a, x = .ok a ∧ next a = .ok b := by
  cases x with
  | error fault => simp
  | ok a => simp

/-- Code whose result is only changed has a result exactly when there was one to change. -/
theorem Checked.map_eq_ok {α β : Type} {x : Checked α} {f : α → β} {b : β}
    : x.map f = .ok b ↔ ∃ a, x = .ok a ∧ f a = b := by
  cases x with
  | error fault => simp [Except.map]
  | ok a => simp [Except.map]

/-- The bytes of a string, without the terminating NUL, or of a block of memory. -/
abbrev Bytes := List UInt8

/-- A property of all bytes of a text is decided on the text, not on all 256 bytes. -/
instance (priority := high) (s : Bytes) (p : UInt8 → Prop) [DecidablePred p]
    : Decidable (∀ c ∈ s, p c) :=
  List.decidableBAll p s

/-- The value `*p`. -/
def load (mem : Bytes) (p : Nat) : Checked UInt8 :=
  match mem[p]? with
  | some c => .ok c
  | none => .error .outOfBounds

/-- The value `p[-1]`. -/
def loadBefore (mem : Bytes) : Nat → Checked UInt8
  | 0 => .error .outOfBounds
  | p + 1 => load mem p

/-- The effect of `*p = c`. -/
def store (mem : Bytes) (p : Nat) (c : UInt8) : Checked Bytes :=
  if p < mem.length then .ok (mem.set p c) else .error .outOfBounds

/-- `scanWhile` over the bytes from the address `p` on. -/
def scanFrom (keep : UInt8 → Bool) : Bytes → Nat → Checked Nat
  | [], _ => .error .outOfBounds
  | c :: rest, p => if keep c then scanFrom keep rest (p + 1) else .ok p

/-- The address at which `while (keep (*p)) p++;` stops. -/
def scanWhile (mem : Bytes) (keep : UInt8 → Bool) (p : Nat) : Checked Nat :=
  scanFrom keep (mem.drop p) p

/-- The address after the one at which `while (--p >= start && drop (*p));` stops, with `p`
at first `start + count`.
-/
def trimBack (mem : Bytes) (drop : UInt8 → Bool) (start : Nat) : Nat → Checked Nat
  | 0 => .ok start
  | count + 1 => do
      let c ← load mem (start + count)
      if drop c then trimBack mem drop start count else .ok (start + count + 1)

/-- The address `strchr (p, c)` of the first `c` in the string at `p`, for a nonzero `c`. -/
def strchr (mem : Bytes) (p : Nat) (c : UInt8) : Checked (Option Nat) := do
  let stop ← scanWhile mem (fun b => b != 0 && b != c) p
  let found ← load mem stop
  .ok (if found = c then some stop else none)

/-- The string that starts at `p`. -/
def cstring (mem : Bytes) (p : Nat) : Bytes := (mem.drop p).takeWhile (· ≠ 0)

section Prefixes

variable (before : Bytes) (rest : Bytes)

/-- Reading a byte that is known to stand at the address. -/
@[simp]
theorem load_append_cons (c : UInt8)
    : load (before ++ c :: rest) before.length = .ok c := by
  simp [load]

/-- Reading the byte behind a text. -/
theorem load_behind (kept : Bytes) (c : UInt8)
    : load (before ++ (kept ++ c :: rest)) (before.length + kept.length) = .ok c := by
  rw [← List.append_assoc, ← List.length_append, load_append_cons]

/-- Writing a byte that is known to stand at the address. -/
@[simp]
theorem store_append_cons (old c : UInt8)
    : store (before ++ old :: rest) before.length c = .ok (before ++ c :: rest) := by
  simp [store]

/-- Writing the byte behind a text. -/
theorem store_behind (kept : Bytes) (old c : UInt8)
    : store (before ++ (kept ++ old :: rest)) (before.length + kept.length) c
      = .ok (before ++ (kept ++ c :: rest)) := by
  rw [← List.append_assoc, ← List.length_append, store_append_cons, List.append_assoc]

/-- Terminating a string early changes only bytes of the part cut off: what remains is
followed by a NUL, and so is the part cut off.
-/
theorem store_terminator (kept cut : Bytes)
    : ∃ cut' tail,
        cut'.length = cut.length
        ∧ cut' ++ [0] = 0 :: tail
        ∧ store (before ++ (kept ++ (cut ++ 0 :: rest))) (before.length + kept.length) 0
          = .ok (before ++ (kept ++ (cut' ++ 0 :: rest))) := by
  cases cut with
  | nil => exact ⟨[], [], rfl, rfl, store_behind before rest kept 0 0⟩
  | cons c cut =>
      exact ⟨0 :: cut, cut ++ [0], by simp, by simp,
        store_behind before (cut ++ 0 :: rest) kept c 0⟩

/-- A scan passes the bytes it keeps and stops at the first other one. -/
theorem scanFrom_append {keep : UInt8 → Bool} {kept : Bytes} (all : ∀ c ∈ kept, keep c)
    {stop : UInt8} (stops : keep stop = false) (p : Nat)
    : scanFrom keep (kept ++ stop :: rest) p = .ok (p + kept.length) := by
  induction kept generalizing p with
  | nil => simp [scanFrom, stops]
  | cons c kept ih =>
      have here : keep c = true := all c List.mem_cons_self
      rw [List.cons_append, scanFrom, if_pos here, ih fun d member => all d (by simp [member])]
      simp [Nat.add_assoc, Nat.add_comm 1]

/-- A scan from the end of a prefix, over bytes it keeps, up to the first other one. -/
theorem scanWhile_append {keep : UInt8 → Bool} {kept : Bytes} (all : ∀ c ∈ kept, keep c)
    {c : UInt8} (stops : keep c = false)
    : scanWhile (before ++ (kept ++ c :: rest)) keep before.length
      = .ok (before.length + kept.length) := by
  rw [scanWhile, List.drop_left, scanFrom_append _ all stops]

/-- Trimming a text from its end leaves the address after what remains of it. -/
theorem trimBack_append (drop : UInt8 → Bool) (text : Bytes)
    : trimBack (before ++ (text ++ rest)) drop before.length text.length
      = .ok (before.length + (text.rdropWhile drop).length) := by
  induction text using List.reverseRecOn generalizing rest with
  | nil => simp [trimBack]
  | append_singleton text c ih =>
      have read : load (before ++ (text ++ [c] ++ rest)) (before.length + text.length) = .ok c := by
        simp [load]
      rw [List.length_append, List.length_singleton, trimBack, read]
      by_cases dropped : drop c
      · rw [List.rdropWhile_concat_pos _ _ _ dropped, List.append_assoc]
        simpa [dropped] using ih ([c] ++ rest)
      · rw [List.rdropWhile_concat_neg _ _ _ dropped]
        simp [dropped, Nat.add_assoc]

/-- The string at the end of a prefix runs up to the first NUL. -/
theorem cstring_append {text : Bytes} (nonzero : ∀ c ∈ text, c ≠ 0)
    : cstring (before ++ (text ++ 0 :: rest)) before.length = text := by
  rw [cstring, List.drop_left, List.takeWhile_append_of_pos (by simpa using nonzero)]
  simp

end Prefixes

end Cvos.Lib

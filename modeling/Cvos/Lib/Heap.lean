import Cvos.Lib.CMemory
import Mathlib.Data.Finmap
import Mathlib.Order.Lattice.Nat

/-! Memory that is handed out block by block. An access to an address where no block stands is a
fault, and a block is freed once.
-/

namespace Cvos.Lib

/-- The blocks that stand, each at its address. -/
abbrev Heap (α : Type) := Finmap fun _ : Nat => α

/-- Where `malloc` places a block, which is where none stands. -/
structure Allocator where
  place : Finset Nat → Nat
  fresh : ∀ taken, place taken ∉ taken

/-- A block may be placed behind all others. -/
def Allocator.above : Allocator where
  place taken := taken.sup id + 1
  fresh _ member := absurd (Finset.le_sup (f := id) member) (Nat.not_succ_le_self _)

namespace Heap

variable {α : Type}

/-- The block at a pointer. -/
def read (heap : Heap α) : Option Nat → Checked α
  | none => .error .nullPointer
  | some a =>
      match heap.lookup a with
      | some block => .ok block
      | none => .error .useAfterFree

/-- A write into the block at a pointer. -/
def change (heap : Heap α) (p : Option Nat) (f : α → α) : Checked (Heap α) :=
  (heap.read p).map fun block => heap.insert (p.getD 0) (f block)

/-- The effect of `free`. -/
def free (heap : Heap α) (p : Option Nat) : Checked (Heap α) :=
  (heap.read p).map fun _ => heap.erase (p.getD 0)

variable {heap : Heap α} {a : Nat} {block : α}

/-- A block that stands is read. -/
theorem read_eq (stands : heap.lookup a = some block) : heap.read (some a) = .ok block := by
  rw [read, stands]

/-- A block that stands is changed. -/
theorem change_eq (stands : heap.lookup a = some block) (f : α → α)
    : heap.change (some a) f = .ok (heap.insert a (f block)) := by
  rw [change, read_eq stands]
  rfl

/-- A block that stands is freed. -/
theorem free_eq (stands : heap.lookup a = some block)
    : heap.free (some a) = .ok (heap.erase a) := by
  rw [free, read_eq stands]
  rfl

/-- Where a new block is placed, none stands. -/
theorem lookup_place (allocator : Allocator) (heap : Heap α)
    : heap.lookup (allocator.place heap.keys) = none := by
  rw [Finmap.lookup_eq_none, ← Finmap.mem_keys]
  exact allocator.fresh heap.keys

/-- What is read after a write. -/
theorem lookup_insert (heap : Heap α) (a b : Nat) (block : α)
    : Finmap.lookup b (heap.insert a block) = if b = a then some block else heap.lookup b := by
  split_ifs with same
  · rw [same, Finmap.lookup_insert]
  · exact Finmap.lookup_insert_of_ne _ same

/-- What is read after a block was freed. -/
theorem lookup_erase (heap : Heap α) (a b : Nat)
    : Finmap.lookup b (heap.erase a) = if b = a then none else heap.lookup b := by
  split_ifs with same
  · rw [same, Finmap.lookup_erase]
  · exact Finmap.lookup_erase_ne same

/-- Different blocks that stand are no more than there are. -/
theorem length_le_card {xs : List Nat} (unique : xs.Nodup)
    (stand : ∀ x ∈ xs, ∃ block, heap.lookup x = some block)
    : xs.length ≤ heap.keys.card := by
  rw [← List.toFinset_card_of_nodup unique]
  refine Finset.card_le_card fun x member => ?_
  obtain ⟨block, stands⟩ := stand x (List.mem_toFinset.mp member)
  rw [Finmap.mem_keys, ← Finmap.lookup_isSome, stands]
  rfl

end Heap

end Cvos.Lib

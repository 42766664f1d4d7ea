import Mathlib.Data.List.Nodup
import Mathlib.Data.List.Perm.Basic

/-! A ledger of things that are created, owned for a while, and freed. It balances when each thing
created so far is either owned or freed, and only once.
-/

namespace Cvos.Lib

/-- The things owned and those freed are together the things created. -/
structure Ledger {α : Type} (created freed owned : List α) : Prop where
  balance : (freed ++ owned).Perm created

section Balances

variable {α : Type} {created freed owned : List α}

/-- At first, nothing is created. -/
theorem Ledger.empty : Ledger ([] : List α) [] [] := ⟨.refl _⟩

/-- A new thing is owned. -/
theorem Ledger.create (ledger : Ledger created freed owned) (new : List α)
    : Ledger (created ++ new) freed (owned ++ new) where
  balance := by
    rw [← List.append_assoc]
    exact ledger.balance.append_right new

/-- Who owns things may be listed in another order. -/
theorem Ledger.reorder (ledger : Ledger created freed owned) {owned' : List α}
    (same : owned.Perm owned')
    : Ledger created freed owned' where
  balance := (same.append_left freed).symm.trans ledger.balance

/-- A thing that was owned is freed. -/
theorem Ledger.free {gone kept : List α} (ledger : Ledger created freed (gone ++ kept))
    : Ledger created (freed ++ gone) kept where
  balance := by
    rw [List.append_assoc]
    exact ledger.balance

/-- Once nothing is owned, everything was freed once. -/
theorem Ledger.all_freed (ledger : Ledger created freed []) : freed.Perm created := by
  simpa using ledger.balance

/-- What is created without repetition is freed without repetition. -/
theorem Ledger.freed_nodup (ledger : Ledger created freed owned) (unique : created.Nodup)
    : freed.Nodup :=
  (List.nodup_append.mp (ledger.balance.nodup_iff.mpr unique)).1

/-- What is owned was not freed. -/
theorem Ledger.not_freed (ledger : Ledger created freed owned) (unique : created.Nodup) {x : α}
    (member : x ∈ owned)
    : x ∉ freed :=
  fun gone => (List.nodup_append'.mp (ledger.balance.nodup_iff.mpr unique)).2.2 gone member

/-- What was freed was created. -/
theorem Ledger.freed_created (ledger : Ledger created freed owned) {x : α} (gone : x ∈ freed)
    : x ∈ created :=
  ledger.balance.subset (List.mem_append_left owned gone)

end Balances

end Cvos.Lib

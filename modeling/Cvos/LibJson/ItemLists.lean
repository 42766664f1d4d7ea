import Cvos.LibJson.ItemHeap

/-! The lists of items in memory. The functions of cJSON that walk, extend and cut the list of an
item do to the links what the operations of the same meaning do to the list.
-/

namespace Cvos.LibJson

open Cvos.Lib

/-- An item owns the items that it leads to, unless it is a reference. -/
def Record.owns {F : Type} (record : Record F) : Bool := !record.isReference

variable {F : Type} {items items' : Heap (Cell F)} {forest : Forest} {before : Option Nat}
  {xs front back : List Nat} {array item c : Nat} {cell new : Cell F}

section Walks

/-- A walk along a chain stops at the first item that does not let it go on. -/
theorem seek_linked {goesOn : Cell F → Checked Bool} {fuel : Nat}
    (linked : Linked items before (front ++ back) none)
    (on : ∀ x ∈ front, ∀ {cell}, items.lookup x = some cell → goesOn cell = .ok true)
    (stops
      : ∀ {x}, back.head? = some x → ∀ {cell}, items.lookup x = some cell → goesOn cell = .ok false)
    (enough : (front ++ back).length ≤ fuel) (i : Nat)
    : seek items goesOn fuel (front ++ back).head? i
      = .ok ⟨back.head?, int32 (i + front.length : Nat)⟩ := by
  induction front generalizing before fuel i with
  | nil =>
      cases back with
      | nil => cases fuel <;> rfl
      | cons x back =>
          obtain ⟨⟨cell, stands, -, -⟩, -⟩ := linked
          cases fuel with
          | zero => exact absurd enough (by simp)
          | succ fuel =>
              rw [List.nil_append, List.head?_cons, seek, Heap.read_eq stands, Checked.ok_bind,
                stops rfl stands]
              rfl
  | cons x front ih =>
      obtain ⟨⟨cell, stands, -, next⟩, linked⟩ := linked
      cases fuel with
      | zero => exact absurd enough (by simp)
      | succ fuel =>
          have turn := on x List.mem_cons_self stands
          have next' : cell.next = (front ++ back).head? := next.trans Option.or_none
          have rest := ih linked (fun y member => on y (List.mem_cons_of_mem _ member))
            (Nat.le_of_succ_le_succ enough) (i + 1)
          rw [List.cons_append, List.head?_cons, seek, Heap.read_eq stands, Checked.ok_bind, turn,
            Checked.ok_bind, if_pos rfl, next', rest, List.length_cons, Nat.add_assoc,
            Nat.add_comm 1]

/-- A walk over a number of items reaches the item with that number. -/
theorem advance_linked (linked : Linked items before xs none) (which : Nat)
    : advance items which xs.head? = .ok (xs.drop which).head? := by
  induction xs generalizing before which with
  | nil => cases which <;> rfl
  | cons x xs ih =>
      obtain ⟨⟨cell, stands, -, next⟩, linked⟩ := linked
      cases which with
      | zero => rfl
      | succ which =>
          rw [Option.or_none] at next
          rw [List.head?_cons, advance, Heap.read_eq stands, Checked.ok_bind, next, ih linked,
            List.drop_succ_cons]

variable (holds : Holds Record.owns items forest) (stands : items.lookup array = some cell)
  (owns : cell.data.owns = true)

include holds stands owns

end Walks

section Writes

/-- The walk to the last item of a list ends there. -/
theorem suffixLast_eq_suffixObject (linked : Linked items none xs none) (unique : xs.Nodup)
    (some : xs ≠ []) (p : Option Nat)
    : suffixLast items xs.head? p = suffixObject items xs.getLast? p := by
  obtain ⟨front, last, rfl⟩ := xs.eq_nil_or_concat.resolve_left some
  rw [List.concat_eq_append] at linked unique ⊢
  have on
      : ∀ x ∈ front, ∀ {cell : Cell F},
          items.lookup x = .some cell
          → (Except.ok cell.next.isSome : Checked Bool) = .ok true := by
    intro x member cell stands
    obtain ⟨a, b, rfl⟩ := List.append_of_mem member
    rw [List.append_assoc, List.cons_append] at linked
    obtain ⟨node, stands', -, next⟩ := linked.middle
    obtain rfl := Option.some.inj (stands.symm.trans stands')
    rw [next]
    cases b <;> rfl
  have stops
      : ∀ {x}, [last].head? = .some x → ∀ {cell : Cell F},
          items.lookup x = .some cell
          → (Except.ok cell.next.isSome : Checked Bool) = .ok false := by
    intro x here cell stands
    obtain rfl := Option.some.inj here
    obtain ⟨node, stands', -, next⟩ := linked.middle
    obtain rfl := Option.some.inj (stands.symm.trans stands')
    rw [next]
    rfl
  have walk := seek_linked linked on stops (linked.length_le unique) 0
  rw [suffixLast, enoughTurns, walk, Checked.ok_bind, List.head?_cons, List.getLast?_append,
    List.getLast?_singleton]
  rfl

/-- An item is written behind the last one of a list. -/
theorem suffixLast_eq (linked : Linked items none xs none) (unique : xs.Nodup) (some : xs ≠ [])
    (alone : Linked items none [item] none) (apart : item ∉ xs)
    : ∃ items',
        suffixLast items xs.head? (.some item) = .ok items'
        ∧ Linked items' none (xs ++ [item]) none
        ∧ Relinked items items' (xs ++ [item]) := by
  obtain ⟨items₁, written₁, linked₁, relinked₁⟩ := linked.setNext unique (.some item)
  have alone₁ := alone.frame relinked₁ fun x member inside =>
    apart (List.mem_singleton.mp member ▸ inside)
  obtain ⟨items₂, written₂, linked₂, relinked₂⟩ :=
    alone₁.setPrev (List.nodup_singleton item) xs.getLast?
  have last : xs.getLast?.isSome := by simpa using some
  refine ⟨items₂, ?_, linked_append.mpr ⟨?_, ?_⟩,
    (relinked₁.mono (List.subset_append_left ..)).trans
      (relinked₂.mono (List.subset_append_right ..))⟩
  · rw [suffixLast_eq_suffixObject linked unique some, suffixObject]
    rw [Heap.changeIf, if_pos last] at written₁
    refine (congrArg (· >>= _) written₁).trans ?_
    exact written₂
  · refine linked₁.frame relinked₂ fun x member inside => apart ?_
    rwa [← List.mem_singleton.mp inside]
  · rw [Option.or_none]
    exact linked₂

/-- The first item of a list is replaced as the one that leads the list. -/
theorem changeFirst_eq (stands : items.lookup array = some cell)
    (child : cell.child = (front ++ c :: back).head?) (apart : c ∉ front) (p : Option Nat)
    : ∃ items',
        changeFirst items (some array) (some c) p = .ok items'
        ∧ Touched items items' array []
        ∧ (items'.lookup array).map Node.child = some (front.head?.or p) := by
  cases front with
  | nil =>
      refine ⟨items.insert array { cell with child := p }, ?_, touched_child stands p, ?_⟩
      · rw [changeFirst, Heap.read_eq stands, Checked.ok_bind, child]
        exact (if_pos rfl).trans (Heap.change_eq stands _)
      · rw [Finmap.lookup_insert]
        rfl
  | cons x front =>
      have other : cell.child ≠ some c := by
        rw [child]
        intro same
        exact apart (by rw [← Option.some.inj same]; exact List.mem_cons_self)
      refine ⟨items, ?_, (Relinked.refl items []).touched array (List.Subset.refl []), ?_⟩
      · rw [changeFirst, Heap.read_eq stands, Checked.ok_bind, if_neg other]
      · rw [stands, Option.map_some, child]
        rfl

/-- An item takes the place behind the front of a list. -/
theorem changeFirstOrNext_eq (stands : items.lookup array = some cell)
    (child : cell.child = (front ++ c :: back).head?) (apart : c ∉ front) (unique : front.Nodup)
    (linked : Linked items none front (some c)) (there : items.lookup item = some new)
    (prev : new.prev = front.getLast?)
    : ∃ items',
        changeFirstOrNext items (some array) (some c) (some item) = .ok items'
        ∧ Touched items items' array front
        ∧ Linked items' none front (some item)
        ∧ (items'.lookup array).map Node.child = some (front.head?.or (some item)) := by
  cases front with
  | nil =>
      refine ⟨items.insert array { cell with child := some item }, ?_,
        touched_child stands (some item), trivial, ?_⟩
      · rw [changeFirstOrNext, Heap.read_eq stands, Checked.ok_bind, child]
        exact (if_pos rfl).trans (Heap.change_eq stands _)
      · rw [Finmap.lookup_insert]
        rfl
  | cons x front =>
      have other : cell.child ≠ some c := by
        rw [child]
        intro same
        exact apart (by rw [← Option.some.inj same]; exact List.mem_cons_self)
      obtain ⟨items', written, linked', relinked⟩ := linked.setNext unique (some item)
      refine ⟨items', ?_, relinked.touched array (List.Subset.refl _), linked', ?_⟩
      · rw [changeFirstOrNext, Heap.read_eq stands, Checked.ok_bind, if_neg other,
          Heap.read_eq there, Checked.ok_bind, prev, ← written, Heap.changeIf, if_pos]
        rw [List.getLast?_cons]
        rfl
      · rw [relinked.child, stands, Option.map_some, child]
        rfl

/-- The links of an item are cleared. -/
theorem exists_cleared (there : items.lookup c = some cell)
    : ∃ items',
        items.change (some c) (fun cell => { cell with next := none, prev := none }) = .ok items'
        ∧ Relinked items items' [c]
        ∧ ∀ {node}, items'.lookup c = some node → node.links = (none, none) := by
  refine ⟨items.insert c { cell with next := none, prev := none }, Heap.change_eq there _,
    .insert there rfl (List.mem_singleton_self c), fun stands => ?_⟩
  rw [Finmap.lookup_insert] at stands
  obtain rfl := Option.some.inj stands
  rfl

section Middle

variable (linked : Linked items none (front ++ c :: back) none)
  (unique : (front ++ c :: back).Nodup) (stands : items.lookup array = some cell)
  (child : cell.child = (front ++ c :: back).head?)

include linked unique stands child

/-- An item is taken out of a list. -/
theorem unlink_eq
    : ∃ items',
        unlink items (some array) (some c) = .ok items'
        ∧ Rechained items items' array (front ++ c :: back) (front ++ back) := by
  obtain ⟨node, there, prev, next⟩ := linked.middle
  rw [Option.or_none] at prev next
  obtain ⟨first, -, later⟩ := linked_append.mp linked
  obtain ⟨uniqueFront, uniqueRest, disjoint⟩ := List.nodup_append'.mp unique
  obtain ⟨notBack, uniqueBack⟩ := List.nodup_cons.mp uniqueRest
  have notFront : c ∉ front := fun member => disjoint member List.mem_cons_self
  have between : ∀ x ∈ back, x ∉ front := fun x member inside =>
    disjoint inside (List.mem_cons_of_mem c member)
  obtain ⟨items₁, written₁, front₁, relinked₁⟩ := first.setNext uniqueFront node.next
  have there₁ := (relinked₁.outside c notFront).trans there
  obtain ⟨items₂, written₂, back₂, relinked₂⟩ :=
    (later.frame relinked₁ between).setPrev uniqueBack node.prev
  have there₂ := (relinked₂.outside c notBack).trans there₁
  have front₂ := front₁.frame relinked₂ fun x member inside => between x inside member
  have kept : (items₂.lookup array).map Node.child = some cell.child := by
    rw [relinked₂.child, relinked₁.child, stands, Option.map_some]
  obtain ⟨cell₂, stands₂, child₂⟩ := Option.map_eq_some_iff.mp kept
  obtain ⟨items₃, written₃, touched₃, first₃⟩ :=
    changeFirst_eq stands₂ (child₂.trans child) notFront node.next
  obtain ⟨node₃, there₃, -⟩ := touched₃.stands there₂
  obtain ⟨items₄, written₄, relinked₄, cleared⟩ := exists_cleared there₃
  rw [← prev] at written₁
  rw [← next] at written₂
  refine ⟨items₄, ?_, ⟨?_, ?_, linked_append.mpr ⟨?_, ?_⟩, ?_⟩⟩
  · rw [unlink, Heap.read_eq there, Checked.ok_bind, written₁, Checked.ok_bind,
      Heap.read_eq there₁, Checked.ok_bind, written₂, Checked.ok_bind, Heap.read_eq there₂,
      Checked.ok_bind, written₃, Checked.ok_bind, written₄]
  · exact ((relinked₁.touched array (List.subset_append_left ..)).trans
      (relinked₂.touched array fun x member =>
        List.mem_append_right front (List.mem_cons_of_mem c member))).trans
      ((touched₃.mono (List.nil_subset _)).trans
        (relinked₄.touched array fun x member =>
          List.mem_singleton.mp member ▸ List.mem_append_right front List.mem_cons_self))
  · rw [relinked₄.child, first₃, next, List.head?_append]
  · rw [Option.or_none, ← next]
    refine (front₂.keep touched₃ fun x _ => List.not_mem_nil).frame relinked₄ fun x member here =>
      notFront (List.mem_singleton.mp here ▸ member)
  · rw [Option.or_none, ← prev]
    refine (back₂.keep touched₃ fun x _ => List.not_mem_nil).frame relinked₄ fun x member here =>
      notBack (List.mem_singleton.mp here ▸ member)
  · intro y member missing node' stands'
    have here : y = c := by
      simp only [List.mem_append, List.mem_cons, not_or] at member missing
      exact (member.resolve_left missing.1).resolve_right missing.2
    exact cleared (here ▸ stands')

/-- An item is put in front of one of a list. -/
theorem linkBefore_eq (alone : Linked items none [item] none)
    (missing : item ∉ front ++ c :: back)
    : ∃ items',
        linkBefore items (some array) (some c) (some item) = .ok items'
        ∧ Rechained items items' array (front ++ item :: c :: back)
            (front ++ item :: c :: back) := by
  obtain ⟨node, there, prev, -⟩ := linked.middle
  rw [Option.or_none] at prev
  obtain ⟨front₀, rest₀⟩ := linked_append.mp linked
  obtain ⟨uniqueFront, uniqueRest, disjoint⟩ := List.nodup_append'.mp unique
  have notFront : c ∉ front := fun member => disjoint member List.mem_cons_self
  have between : ∀ x ∈ c :: back, x ∉ front := fun x member inside => disjoint inside member
  have others : ∀ x ∈ front ++ c :: back, x ∉ [item] := fun x member here =>
    missing (List.mem_singleton.mp here ▸ member)
  have inFront {x : Nat} (member : x ∈ front) := others x (List.mem_append_left _ member)
  have inRest {x : Nat} (member : x ∈ c :: back) := others x (List.mem_append_right _ member)
  have notRest : ∀ x ∈ [item], x ∉ c :: back := fun x here member => inRest member here
  have single := List.nodup_singleton item
  -- the item first, then what is behind it, then what is in front of it
  obtain ⟨items₁, written₁, item₁, relinked₁⟩ := alone.setNext single (some c)
  have there₁ := (relinked₁.outside c (inRest List.mem_cons_self)).trans there
  obtain ⟨items₂, written₂, item₂, relinked₂⟩ := item₁.setPrev single node.prev
  have rest₂ := (rest₀.frame relinked₁ fun x => inRest).frame relinked₂ fun x => inRest
  obtain ⟨items₃, written₃, rest₃, relinked₃⟩ := rest₂.setPrev uniqueRest (some item)
  have front₃ := ((front₀.frame relinked₁ fun x => inFront).frame relinked₂ fun x => inFront).frame
    relinked₃ fun x inside member => between x member inside
  have item₃ := item₂.frame relinked₃ notRest
  obtain ⟨⟨new₃, standsNew, prevNew, -⟩, -⟩ := item₃
  have kept : (items₃.lookup array).map Node.child = some cell.child := by
    rw [relinked₃.child, relinked₂.child, relinked₁.child, stands, Option.map_some]
  obtain ⟨cell₃, stands₃, child₃⟩ := Option.map_eq_some_iff.mp kept
  obtain ⟨items₄, written₄, touched₄, front₄, first₄⟩ :=
    changeFirstOrNext_eq stands₃ (child₃.trans child) notFront uniqueFront front₃ standsNew
      (prevNew.trans prev)
  have linked₄ : Linked items₄ none (front ++ item :: c :: back) none := by
    refine linked_append.mpr ⟨front₄, ?_⟩
    rw [Option.or_none, ← prev]
    have both : Linked items₄ node.prev ([item] ++ c :: back) none :=
      linked_append.mpr
        ⟨(item₂.frame relinked₃ notRest).keep touched₄ fun x here inside => inFront inside here,
          rest₃.keep touched₄ between⟩
    exact both
  refine ⟨items₄, ?_, ⟨?_, ?_, linked₄, fun y member missing => absurd member missing⟩⟩
  · rw [linkBefore]
    refine (congrArg (· >>= _) written₁).trans ?_
    rw [Checked.ok_bind, Heap.read_eq there₁, Checked.ok_bind]
    refine (congrArg (· >>= _) written₂).trans ?_
    rw [Checked.ok_bind]
    refine (congrArg (· >>= _) written₃).trans ?_
    exact written₄
  · have here : [item] ⊆ front ++ item :: c :: back := by simp
    have behind : c :: back ⊆ front ++ item :: c :: back := fun x member =>
      List.mem_append_right front (List.mem_cons_of_mem item member)
    exact (((relinked₁.touched array here).trans (relinked₂.touched array here)).trans
      (relinked₃.touched array behind)).trans (touched₄.mono (List.subset_append_left ..))
  · rw [first₄, List.head?_append]
    rfl

/-- An item takes the place of one of a list. -/
theorem relink_eq (alone : Linked items none [item] none) (missing : item ∉ front ++ c :: back)
    : ∃ items',
        relink items (some array) (some c) (some item) = .ok items'
        ∧ Rechained items items' array (front ++ c :: item :: back) (front ++ item :: back) := by
  obtain ⟨node, there, prev, next⟩ := linked.middle
  rw [Option.or_none] at prev next
  obtain ⟨front₀, -, back₀⟩ := linked_append.mp linked
  obtain ⟨uniqueFront, uniqueRest, disjoint⟩ := List.nodup_append'.mp unique
  obtain ⟨notBack, uniqueBack⟩ := List.nodup_cons.mp uniqueRest
  have notFront : c ∉ front := fun member => disjoint member List.mem_cons_self
  have between : ∀ x ∈ back, x ∉ front := fun x member inside =>
    disjoint inside (List.mem_cons_of_mem c member)
  have others : ∀ x ∈ front ++ c :: back, x ∉ [item] := fun x member here =>
    missing (List.mem_singleton.mp here ▸ member)
  have inFront {x : Nat} (member : x ∈ front) := others x (List.mem_append_left _ member)
  have inBack {x : Nat} (member : x ∈ back) :=
    others x (List.mem_append_right _ (List.mem_cons_of_mem c member))
  have notItem : c ∉ [item] := others c (List.mem_append_right _ List.mem_cons_self)
  have single := List.nodup_singleton item
  -- the item first, then what is behind it, then what is in front of it, and the old one last
  obtain ⟨items₁, written₁, item₁, relinked₁⟩ := alone.setNext single node.next
  have there₁ := (relinked₁.outside c notItem).trans there
  obtain ⟨items₂, written₂, item₂, relinked₂⟩ := item₁.setPrev single node.prev
  have there₂ := (relinked₂.outside c notItem).trans there₁
  obtain ⟨new₂, standsNew₂, -, nextNew₂⟩ := item₂.1
  obtain ⟨items₃, written₃, back₃, relinked₃⟩ :=
    ((back₀.frame relinked₁ fun x => inBack).frame relinked₂ fun x => inBack).setPrev uniqueBack
      (some item)
  have there₃ := (relinked₃.outside c notBack).trans there₂
  have front₃ := ((front₀.frame relinked₁ fun x => inFront).frame relinked₂ fun x => inFront).frame
    relinked₃ fun x inside member => between x member inside
  have item₃ := item₂.frame relinked₃ fun x here member => inBack member here
  obtain ⟨new₃, standsNew₃, prevNew₃, -⟩ := item₃.1
  have kept : (items₃.lookup array).map Node.child = some cell.child := by
    rw [relinked₃.child, relinked₂.child, relinked₁.child, stands, Option.map_some]
  obtain ⟨cell₃, stands₃, child₃⟩ := Option.map_eq_some_iff.mp kept
  obtain ⟨items₄, written₄, touched₄, front₄, first₄⟩ :=
    changeFirstOrNext_eq stands₃ (child₃.trans child) notFront uniqueFront front₃ standsNew₃
      (prevNew₃.trans prev)
  obtain ⟨node₄, there₄, -⟩ := touched₄.stands there₃
  obtain ⟨items₅, written₅, relinked₅, cleared⟩ := exists_cleared there₄
  have single₅ {x : Nat} (here : x ∈ [c]) : x = c := List.mem_singleton.mp here
  have linked₅ : Linked items₅ none (front ++ item :: back) none := by
    refine linked_append.mpr
      ⟨front₄.frame relinked₅ fun x inside here => notFront (single₅ here ▸ inside), ?_⟩
    rw [Option.or_none, ← prev]
    have both : Linked items₅ node.prev ([item] ++ back) none := by
      refine linked_append.mpr ⟨?_, ?_⟩
      · rw [Option.or_none, ← next]
        exact ((item₂.frame relinked₃ fun x here member => inBack member here).keep touched₄
          fun x here inside => inFront inside here).frame relinked₅ fun x here gone =>
            notItem (single₅ gone ▸ here)
      · exact (back₃.keep touched₄ between).frame relinked₅ fun x inside here =>
          notBack (single₅ here ▸ inside)
    exact both
  have behind : new₂.next = back.head? := nextNew₂.trans next
  rw [← behind] at written₃
  refine ⟨items₅, ?_, ⟨?_, ?_, linked₅, ?_⟩⟩
  · rw [relink, Heap.read_eq there, Checked.ok_bind]
    refine (congrArg (· >>= _) written₁).trans ?_
    rw [Checked.ok_bind, Heap.read_eq there₁, Checked.ok_bind]
    refine (congrArg (· >>= _) written₂).trans ?_
    rw [Checked.ok_bind, Heap.read_eq standsNew₂, Checked.ok_bind, written₃, Checked.ok_bind,
      written₄, Checked.ok_bind, written₅]
  · have here : [item] ⊆ front ++ c :: item :: back := by simp
    have old : [c] ⊆ front ++ c :: item :: back := by simp
    have behind : back ⊆ front ++ c :: item :: back := fun x member =>
      List.mem_append_right front (List.mem_cons_of_mem c (List.mem_cons_of_mem item member))
    exact ((((relinked₁.touched array here).trans (relinked₂.touched array here)).trans
      (relinked₃.touched array behind)).trans (touched₄.mono (List.subset_append_left ..))).trans
      (relinked₅.touched array old)
  · rw [relinked₅.child, first₄, List.head?_append]
    rfl
  · intro y member missing' node' stands'
    have here : y = c := by
      simp only [List.mem_append, List.mem_cons, not_or] at member missing'
      exact (member.resolve_left missing'.1).resolve_right fun either =>
        either.elim missing'.2.1 missing'.2.2
    exact cleared (here ▸ stands')

end Middle

end Writes

/-- A list around one of its items. -/
theorem split_at {xs : List Nat} {n c : Nat} (found : xs[n]? = some c)
    : xs = xs.take n ++ c :: xs.drop (n + 1) ∧ (xs.take n).length = n := by
  obtain ⟨inside, here⟩ := List.getElem?_eq_some_iff.mp found
  rw [← here, ← List.drop_eq_getElem_cons inside, List.take_append_drop]
  exact ⟨rfl, List.length_take_of_le (Nat.le_of_lt inside)⟩

section Operations

variable (holds : Holds Record.owns items forest) (stands : items.lookup array = some cell)
  (owns : cell.data.owns = true)

include holds stands owns

/-- `cJSON_AddItemToArray` lists a loose item behind the last one. -/
theorem cJSONAddItemToArray_inserts (there : items.lookup item = some new)
    (loose : forest.Loose item) (apart : ¬ forest.Below item array) {which : Nat}
    (behind : (forest.children array).length ≤ which)
    : ∃ items',
        cJSONAddItemToArray items (some array) (some item) = .ok items'
        ∧ Holds Record.owns items' (forest.insertAt array which item loose apart)
        ∧ ∀ b, (items'.lookup b).map Node.data = (items.lookup b).map Node.data := by
  have other : array ≠ item := fun same => apart (same ▸ .refl)
  have alone := linked_singleton there (holds.loose there loose)
  have list : (forest.children array).take which ++ item :: (forest.children array).drop which
      = forest.children array ++ [item] := by
    rw [List.take_of_length_le behind, List.drop_of_length_le behind]
  have owner : ∃ node, items.lookup array = some node ∧ node.data.owns = true :=
    ⟨cell, stands, owns⟩
  have first := holds.child stands owns
  rw [cJSONAddItemToArray, Heap.read_eq stands, Checked.ok_bind, if_neg (by simp), first]
  by_cases empty : forest.children array = []
  · have touched := touched_child stands (some item)
    rw [empty, List.head?_nil, if_pos Option.isNone_none]
    refine ⟨_, Heap.change_eq stands _, ?_, touched.data⟩
    refine holds.inserted owner loose apart ?_
    rw [list, empty, List.nil_append]
    refine ⟨touched.mono (List.nil_subset _), ?_, ?_, fun y member missing => absurd member missing⟩
    · rw [Finmap.lookup_insert]
      rfl
    · exact alone.keep touched fun y _ => List.not_mem_nil
  · obtain ⟨items', written, linked, relinked⟩ :=
      suffixLast_eq (holds.linked array) (forest.nodup array) empty alone (loose array)
    rw [if_neg (by simpa using empty)]
    refine ⟨items', written, ?_, relinked.data⟩
    refine holds.inserted owner loose apart ?_
    rw [list]
    refine ⟨relinked.touched array (List.Subset.refl _), ?_, linked,
      fun y member missing => absurd member missing⟩
    rw [relinked.child, stands, Option.map_some, first, List.head?_append]
    cases list' : forest.children array with
    | nil => exact absurd list' empty
    | cons x xs => rfl

/-- `cJSON_InsertItemInArray` lists a loose item in front of the one with the number. -/
theorem cJSONInsertItemInArray_inserts (there : items.lookup item = some new)
    (loose : forest.Loose item) (apart : ¬ forest.Below item array) (which : Int)
    : ∃ items',
        cJSONInsertItemInArray items (some array) which (some item) = .ok items'
        ∧ Holds Record.owns items' (forest.insertAt array which.toNat item loose apart)
        ∧ ∀ b, (items'.lookup b).map Node.data = (items.lookup b).map Node.data := by
  have walk := advance_linked (holds.linked array) which.toNat
  have first := holds.child stands owns
  rw [cJSONInsertItemInArray, Heap.read_eq stands, Checked.ok_bind, first, walk,
    Checked.ok_bind]
  cases rest : (forest.children array).drop which.toNat with
  | nil =>
      rw [List.head?_nil, if_pos Option.isNone_none]
      exact cJSONAddItemToArray_inserts holds stands owns there loose apart
        (List.drop_eq_nil_iff.mp rest)
  | cons c back =>
      have list
          : forest.children array = (forest.children array).take which.toNat ++ c :: back := by
        rw [← rest, List.take_append_drop]
      have linked := holds.linked array
      have unique := forest.nodup array
      have missing := loose array
      rw [list] at linked unique first missing
      obtain ⟨items', written, rechained⟩ :=
        linkBefore_eq linked unique stands first
          (linked_singleton there (holds.loose there loose)) missing
      rw [← rest] at rechained
      refine ⟨items', ?_, holds.inserted ⟨cell, stands, owns⟩ loose apart rechained,
        rechained.touched.data⟩
      rw [List.head?_cons, if_neg (by simp), written]

/-- `cJSON_DetachItemFromArray` takes the item with the number out of the list and returns it. -/
theorem cJSONDetachItemFromArray_erases (which : Int)
    : ∃ items',
        cJSONDetachItemFromArray items (some array) which
          = .ok ((forest.children array)[which.toNat]?, items')
        ∧ Holds Record.owns items' (forest.eraseAt array which.toNat)
        ∧ ∀ b, (items'.lookup b).map Node.data = (items.lookup b).map Node.data := by
  have walk := advance_linked (holds.linked array) which.toNat
  have first := holds.child stands owns
  rw [cJSONDetachItemFromArray, Heap.read_eq stands, Checked.ok_bind, first, walk,
    Checked.ok_bind, List.head?_drop]
  cases found : (forest.children array)[which.toNat]? with
  | none =>
      have same : forest.eraseAt array which.toNat = forest := by
        have kept
            : (forest.children array).eraseIdx which.toNat = forest.children array :=
          List.eraseIdx_of_length_le (List.getElem?_eq_none_iff.mp found)
        exact Forest.ext ((congrArg (Function.update forest.children array) kept).trans
          (Function.update_eq_self array forest.children))
      exact ⟨items, rfl, same.symm ▸ holds, fun _ => rfl⟩
  | some c =>
      obtain ⟨list, place⟩ := split_at found
      have linked := holds.linked array
      have unique := forest.nodup array
      rw [list] at linked unique first
      obtain ⟨items', written, rechained⟩ := unlink_eq linked unique stands first
      have holds' := holds.erased ⟨cell, stands, owns⟩ list rechained
      rw [place] at holds'
      refine ⟨items', ?_, holds', rechained.touched.data⟩
      rw [if_neg (by simp), written]
      rfl

end Operations

end Cvos.LibJson

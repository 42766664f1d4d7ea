import Cvos.Lib.Heap

/-! Blocks that are linked to the next one and to the one before, as the children of one parent.
What a write does to the links of such a list is said from the list's two ends.
-/

namespace Cvos.Lib

/-- A block with links to its neighbours and to the first block below it. -/
structure Node (D : Type) where
  next : Option Nat
  prev : Option Nat
  child : Option Nat
  data : D
  deriving DecidableEq, Repr

variable {D : Type}

/-- A write into the block at a pointer, unless the pointer is null. -/
def Heap.changeIf {α : Type} (heap : Heap α) (p : Option Nat) (f : α → α) : Checked (Heap α) :=
  if p.isSome then heap.change p f else .ok heap

/-- The links of a node to its neighbours. -/
def Node.links (node : Node D) : Option Nat × Option Nat := (node.prev, node.next)

/-- What a node has beside these links. -/
def Node.rest (node : Node D) : Option Nat × D := (node.child, node.data)

/-- Blocks that lead from one to the next and back, between two others. -/
def Linked (heap : Heap (Node D)) : Option Nat → List Nat → Option Nat → Prop
  | _, [], _ => True
  | before, x :: xs, behind =>
      (∃ node,
        heap.lookup x = some node ∧ node.prev = before ∧ node.next = xs.head?.or behind)
      ∧ Linked heap (some x) xs behind

/-- The links of some blocks were written, and nothing else. -/
structure Relinked (heap heap' : Heap (Node D)) (xs : List Nat) : Prop where
  outside : ∀ a ∉ xs, heap'.lookup a = heap.lookup a
  rest : ∀ a, (heap'.lookup a).map Node.rest = (heap.lookup a).map Node.rest

variable {heap heap' heap'' : Heap (Node D)} {before behind : Option Nat} {x : Nat}
  {xs ys : List Nat}

/-- A list is linked if its parts are, and each leads to the other. -/
theorem linked_append
    : Linked heap before (xs ++ ys) behind
      ↔ Linked heap before xs (ys.head?.or behind)
        ∧ Linked heap (xs.getLast?.or before) ys behind := by
  induction xs generalizing before with
  | nil => simp [Linked]
  | cons x xs ih =>
      have last : (x :: xs).getLast?.or before = xs.getLast?.or (some x) := by
        rw [List.getLast?_cons]
        cases xs.getLast? <;> rfl
      rw [List.cons_append, Linked, Linked, ih, last, List.head?_append, Option.or_assoc, and_assoc]

/-- Only the links of the listed blocks count. -/
theorem Linked.congr (linked : Linked heap before xs behind)
    (same : ∀ x ∈ xs, (heap'.lookup x).map Node.links = (heap.lookup x).map Node.links)
    : Linked heap' before xs behind := by
  induction xs generalizing before with
  | nil => trivial
  | cons x xs ih =>
      obtain ⟨⟨node, stands, prev, next⟩, linked⟩ := linked
      have kept := same x List.mem_cons_self
      rw [stands, Option.map_some] at kept
      obtain ⟨node', stands', links⟩ := Option.map_eq_some_iff.mp kept
      obtain ⟨prev', next'⟩ := Prod.ext_iff.mp links
      exact ⟨⟨node', stands', prev'.trans prev, next'.trans next⟩,
        ih linked fun y member => same y (List.mem_cons_of_mem _ member)⟩

/-- A linked block stands. -/
theorem Linked.stands (linked : Linked heap before xs behind) (member : x ∈ xs)
    : ∃ node, heap.lookup x = some node := by
  obtain ⟨front, back, rfl⟩ := List.append_of_mem member
  obtain ⟨⟨node, stands, -, -⟩, -⟩ := (linked_append.mp linked).2
  exact ⟨node, stands⟩

/-- A list of different blocks is no longer than there are blocks. -/
theorem Linked.length_le (linked : Linked heap before xs behind) (unique : xs.Nodup)
    : xs.length ≤ heap.keys.card :=
  Heap.length_le_card unique fun _ member => linked.stands member

/-- In a list, a block leads to the one behind it and to the one in front of it. -/
theorem Linked.middle {front back : List Nat}
    (linked : Linked heap before (front ++ x :: back) behind)
    : ∃ node,
        heap.lookup x = some node
        ∧ node.prev = front.getLast?.or before
        ∧ node.next = back.head?.or behind :=
  (linked_append.mp linked).2.1

/-- A block is linked to where its links lead. -/
theorem linked_singleton {node : Node D} (stands : heap.lookup x = some node)
    (links : node.links = (before, behind))
    : Linked heap before [x] behind :=
  have both := Prod.ext_iff.mp links
  ⟨⟨node, stands, both.1, both.2⟩, trivial⟩

/-- Nothing was written. -/
theorem Relinked.refl (heap : Heap (Node D)) (xs : List Nat) : Relinked heap heap xs :=
  ⟨fun _ _ => rfl, fun _ => rfl⟩

/-- More was written. -/
theorem Relinked.trans (first : Relinked heap heap' xs) (second : Relinked heap' heap'' xs)
    : Relinked heap heap'' xs :=
  ⟨fun a other => (second.outside a other).trans (first.outside a other),
    fun a => (second.rest a).trans (first.rest a)⟩

/-- What was written may be said to lie in a longer list. -/
theorem Relinked.mono (relinked : Relinked heap heap' xs) (included : xs ⊆ ys)
    : Relinked heap heap' ys :=
  ⟨fun a other => relinked.outside a fun member => other (included member), relinked.rest⟩

/-- A linked list of other blocks is linked as before. -/
theorem Linked.frame (linked : Linked heap before xs behind) (relinked : Relinked heap heap' ys)
    (apart : ∀ x ∈ xs, x ∉ ys)
    : Linked heap' before xs behind :=
  linked.congr fun x member => by rw [relinked.outside x (apart x member)]

/-- New links of a block that stands. -/
theorem Relinked.insert {node node' : Node D} (stands : heap.lookup x = some node)
    (rest : node'.rest = node.rest) (member : x ∈ xs)
    : Relinked heap (heap.insert x node') xs where
  outside a other := by
    rw [Heap.lookup_insert, if_neg]
    rintro rfl
    exact other member
  rest a := by
    rw [Heap.lookup_insert]
    split_ifs with same
    · rw [same, stands, Option.map_some, rest, Option.map_some]
    · rfl

/-- The last block of a list is led elsewhere. -/
theorem Linked.setNext (linked : Linked heap before xs behind) (unique : xs.Nodup)
    (behind' : Option Nat)
    : ∃ heap',
        heap.changeIf xs.getLast? (fun node => { node with next := behind' }) = .ok heap'
        ∧ Linked heap' before xs behind'
        ∧ Relinked heap heap' xs := by
  obtain rfl | ⟨front, x, rfl⟩ := xs.eq_nil_or_concat
  · exact ⟨heap, rfl, trivial, .refl heap []⟩
  · rw [List.concat_eq_append] at linked unique ⊢
    have apart : x ∉ front := fun member =>
      List.disjoint_of_nodup_append unique member (List.mem_singleton_self x)
    obtain ⟨earlier, ⟨node, stands, prev, -⟩, -⟩ := linked_append.mp linked
    have written : Relinked heap (heap.insert x { node with next := behind' }) [x] :=
      .insert stands rfl (List.mem_singleton_self x)
    refine ⟨heap.insert x { node with next := behind' }, ?_, linked_append.mpr ⟨?_, ?_⟩,
      written.mono (List.subset_append_right front [x])⟩
    · rw [List.getLast?_append, List.getLast?_singleton]
      exact Heap.change_eq stands _
    · refine earlier.frame written fun y member => ?_
      rintro same
      exact apart (List.mem_singleton.mp same ▸ member)
    · exact ⟨⟨_, Finmap.lookup_insert _, prev, rfl⟩, trivial⟩

/-- The first block of a list is led back elsewhere. -/
theorem Linked.setPrev (linked : Linked heap before xs behind) (unique : xs.Nodup)
    (before' : Option Nat)
    : ∃ heap',
        heap.changeIf xs.head? (fun node => { node with prev := before' }) = .ok heap'
        ∧ Linked heap' before' xs behind
        ∧ Relinked heap heap' xs := by
  cases xs with
  | nil => exact ⟨heap, rfl, trivial, .refl heap []⟩
  | cons x xs =>
      obtain ⟨⟨node, stands, -, next⟩, later⟩ := linked
      have written : Relinked heap (heap.insert x { node with prev := before' }) [x] :=
        .insert stands rfl (List.mem_singleton_self x)
      refine ⟨heap.insert x { node with prev := before' }, Heap.change_eq stands _,
        ⟨⟨_, Finmap.lookup_insert _, rfl, next⟩, ?_⟩, written.mono (by simp)⟩
      refine later.frame written fun y member => ?_
      rintro same
      exact (List.nodup_cons.mp unique).1 (List.mem_singleton.mp same ▸ member)

end Cvos.Lib

import Cvos.Lib.Forest

/-! Memory whose links are those of a forest. A parent leads to the first of its children, and these
lead to one another. Some blocks lead to children that are not theirs, and list none.
-/

namespace Cvos.Lib

variable {D : Type} {owns : D → Bool} {heap heap' : Heap (Node D)} {forest forest' : Forest}

/-- The links of the memory are those of a forest. -/
structure Holds (owns : D → Bool) (heap : Heap (Node D)) (forest : Forest) : Prop where
  linked : ∀ a, Linked heap none (forest.children a) none
  owner
    : ∀ {a},
        forest.children a ≠ [] → ∃ node, heap.lookup a = some node ∧ owns node.data = true
  child
    : ∀ {a node},
        heap.lookup a = some node
        → owns node.data = true
        → node.child = (forest.children a).head?
  loose : ∀ {x node}, heap.lookup x = some node → forest.Loose x → node.links = (none, none)

/-- Empty memory holds the empty forest. -/
theorem Holds.empty : Holds owns ∅ .empty where
  linked _ := trivial
  owner some := absurd rfl some
  child stands := by simp at stands
  loose stands := by simp at stands

/-- A listed block stands. -/
theorem Holds.stands (holds : Holds owns heap forest) {a x : Nat} (listed : x ∈ forest.children a)
    : ∃ node, heap.lookup x = some node :=
  (holds.linked a).stands listed

/-- Where no block stands, none is listed. -/
theorem Holds.dead (holds : Holds owns heap forest) {a : Nat} (none : heap.lookup a = none)
    : forest.children a = [] ∧ forest.Loose a := by
  constructor
  · by_contra some
    obtain ⟨node, stands, -⟩ := holds.owner some
    simp [none] at stands
  · intro b listed
    obtain ⟨node, stands⟩ := holds.stands listed
    simp [none] at stands

/-- A block that does not own what it leads to lists nothing. -/
theorem Holds.barren (holds : Holds owns heap forest) {a : Nat} {node : Node D}
    (stands : heap.lookup a = some node) (borrows : owns node.data = false)
    : forest.children a = [] := by
  by_contra some
  obtain ⟨node', stands', owns'⟩ := holds.owner some
  obtain rfl := Option.some.inj (stands.symm.trans stands')
  rw [borrows] at owns'
  exact absurd owns' (by decide)

/-- What some blocks hold may be written, as long as it says the same of who owns what. -/
theorem Holds.write (holds : Holds owns heap forest) {a : Nat} {node : Node D}
    (stands : heap.lookup a = some node) {data : D} (same : owns data = owns node.data)
    : Holds owns (heap.insert a { node with data := data }) forest where
  linked b := by
    refine (holds.linked b).congr fun x _ => ?_
    rw [Heap.lookup_insert]
    split_ifs with here
    · rw [here, stands]
      rfl
    · rfl
  owner {b} some := by
    obtain ⟨node', stands', owns'⟩ := holds.owner some
    rw [Heap.lookup_insert]
    split_ifs with here
    · rw [here] at stands'
      obtain rfl := Option.some.inj (stands.symm.trans stands')
      exact ⟨_, rfl, same.trans owns'⟩
    · exact ⟨node', stands', owns'⟩
  child {b node'} stands' owns' := by
    rw [Heap.lookup_insert] at stands'
    split_ifs at stands' with here
    · obtain rfl := Option.some.inj stands'
      have kept : node.child = _ := holds.child stands (same.symm.trans owns')
      rw [here]
      exact kept
    · exact holds.child stands' owns'
  loose {x node'} stands' alone := by
    rw [Heap.lookup_insert] at stands'
    split_ifs at stands' with here
    · obtain rfl := Option.some.inj stands'
      rw [here] at alone
      have kept : node.links = _ := holds.loose stands alone
      exact kept
    · exact holds.loose stands' alone

/-- A block of its own may be placed where none stood. -/
theorem Holds.place (holds : Holds owns heap forest) {a : Nat} (vacant : heap.lookup a = none)
    {node : Node D} (links : node.links = (none, none))
    (child : owns node.data = true → node.child = none)
    : Holds owns (heap.insert a node) forest where
  linked b := by
    refine (holds.linked b).congr fun x listed => ?_
    rw [Heap.lookup_insert, if_neg ((holds.dead vacant).2.ne listed)]
  owner {b} some := by
    obtain ⟨node', stands', owns'⟩ := holds.owner some
    rw [Heap.lookup_insert]
    split_ifs with here
    · rw [here, vacant] at stands'
      exact absurd stands' (by simp)
    · exact ⟨node', stands', owns'⟩
  child {b node'} stands' owns' := by
    rw [Heap.lookup_insert] at stands'
    split_ifs at stands' with here
    · obtain rfl := Option.some.inj stands'
      rw [here, (holds.dead vacant).1]
      exact child owns'
    · exact holds.child stands' owns'
  loose {x node'} stands' alone := by
    rw [Heap.lookup_insert] at stands'
    split_ifs at stands' with here
    · obtain rfl := Option.some.inj stands'
      exact links
    · exact holds.loose stands' alone

/-- Nothing was written but the links of some blocks, and where one block leads down. -/
structure Touched (heap heap' : Heap (Node D)) (a : Nat) (xs : List Nat) : Prop where
  data : ∀ b, (heap'.lookup b).map Node.data = (heap.lookup b).map Node.data
  child : ∀ b, b ≠ a → (heap'.lookup b).map Node.child = (heap.lookup b).map Node.child
  links : ∀ y ∉ xs, (heap'.lookup y).map Node.links = (heap.lookup y).map Node.links

/-- The list of one block was written anew. The blocks `xs` are those that were listed there, or are
now.
-/
structure Rechained (heap heap' : Heap (Node D)) (a : Nat) (xs ys : List Nat) : Prop where
  touched : Touched heap heap' a xs
  first : (heap'.lookup a).map Node.child = some ys.head?
  linked : Linked heap' none ys none
  loose : ∀ y ∈ xs, y ∉ ys → ∀ {node}, heap'.lookup y = some node → node.links = (none, none)

section Writes

variable {heap'' : Heap (Node D)} {a x : Nat} {xs ys : List Nat}

/-- More was written. -/
theorem Touched.trans (first : Touched heap heap' a xs) (second : Touched heap' heap'' a xs)
    : Touched heap heap'' a xs where
  data b := (second.data b).trans (first.data b)
  child b other := (second.child b other).trans (first.child b other)
  links y other := (second.links y other).trans (first.links y other)

/-- Where links were written, a block leads down as before. -/
theorem Relinked.child (relinked : Relinked heap heap' ys) (b : Nat)
    : (heap'.lookup b).map Node.child = (heap.lookup b).map Node.child := by
  have same := congrArg (Option.map Prod.fst) (relinked.rest b)
  rw [Option.map_map, Option.map_map] at same
  exact same

/-- Where links were written, a block holds the same. -/
theorem Relinked.data (relinked : Relinked heap heap' ys) (b : Nat)
    : (heap'.lookup b).map Node.data = (heap.lookup b).map Node.data := by
  have same := congrArg (Option.map Prod.snd) (relinked.rest b)
  rw [Option.map_map, Option.map_map] at same
  exact same

/-- Links were written. -/
theorem Relinked.touched (relinked : Relinked heap heap' ys) (a : Nat) (included : ys ⊆ xs)
    : Touched heap heap' a xs where
  data := relinked.data
  child b _ := relinked.child b
  links y other := by rw [relinked.outside y fun member => other (included member)]

/-- A block that stood still stands. -/
theorem Touched.stands (touched : Touched heap heap' a xs) {b : Nat} {node : Node D}
    (stands : heap.lookup b = some node)
    : ∃ node', heap'.lookup b = some node' ∧ node'.data = node.data := by
  have data := touched.data b
  rw [stands, Option.map_some] at data
  exact Option.map_eq_some_iff.mp data

/-- A new block to lead down to was written. -/
theorem touched_child {node : Node D} (stands : heap.lookup a = some node) (child : Option Nat)
    : Touched heap (heap.insert a { node with child }) a [] where
  data b := by
    rw [Heap.lookup_insert]
    split_ifs with here
    · rw [here, stands]
      rfl
    · rfl
  child b other := by rw [Heap.lookup_insert, if_neg other]
  links b _ := by
    rw [Heap.lookup_insert]
    split_ifs with here
    · rw [here, stands]
      rfl
    · rfl

/-- Fewer links are known to be the same. -/
theorem Touched.mono (touched : Touched heap heap' a ys) (included : ys ⊆ xs)
    : Touched heap heap' a xs where
  data := touched.data
  child := touched.child
  links y other := touched.links y fun member => other (included member)

/-- A linked list of other blocks is linked as before. -/
theorem Linked.keep {before behind : Option Nat} (linked : Linked heap before ys behind)
    (touched : Touched heap heap' a xs) (apart : ∀ y ∈ ys, y ∉ xs)
    : Linked heap' before ys behind :=
  linked.congr fun y member => touched.links y (apart y member)

end Writes

/-- What one block held is still held. -/
private theorem exists_kept {β : Type} {f : Node D → β} {b : Nat} {node : Node D}
    (same : (heap'.lookup b).map f = (heap.lookup b).map f) (stands : heap'.lookup b = some node)
    : ∃ node', heap.lookup b = some node' ∧ f node' = f node := by
  rw [stands, Option.map_some] at same
  exact Option.map_eq_some_iff.mp same.symm

/-- When one list was written anew, the memory holds the forest with that list. -/
theorem Holds.relist (holds : Holds owns heap forest) {a : Nat} {xs : List Nat}
    (same : ∀ b, b ≠ a → forest'.children b = forest.children b)
    (owner : ∃ node, heap.lookup a = some node ∧ owns node.data = true)
    (touched : ∀ y, y ∈ xs ↔ y ∈ forest.children a ∨ y ∈ forest'.children a)
    (rechained : Rechained heap heap' a xs (forest'.children a))
    : Holds owns heap' forest' where
  linked b := by
    by_cases here : b = a
    · rw [here]
      exact rechained.linked
    · rw [same b here]
      refine (holds.linked b).congr fun y listed => rechained.touched.links y fun member => ?_
      rcases (touched y).mp member with old | new
      · exact here (forest.unique listed old)
      · rw [← same b here] at listed
        exact here (forest'.unique listed new)
  owner {b} some := by
    have before : ∃ node, heap.lookup b = .some node ∧ owns node.data = true := by
      by_cases here : b = a
      · rw [here]
        exact owner
      · rw [same b here] at some
        exact holds.owner some
    obtain ⟨node, stands, owns'⟩ := before
    obtain ⟨node', stands', data⟩ := exists_kept (rechained.touched.data b).symm stands
    exact ⟨node', stands', data ▸ owns'⟩
  child {b node} stands owns' := by
    by_cases here : b = a
    · have first := rechained.first
      rw [here] at stands ⊢
      rw [stands, Option.map_some] at first
      exact Option.some.inj first
    · obtain ⟨node', stands', child⟩ := exists_kept (rechained.touched.child b here) stands
      obtain ⟨node'', stands'', data⟩ := exists_kept (rechained.touched.data b) stands
      obtain rfl := Option.some.inj (stands'.symm.trans stands'')
      rw [same b here, ← child]
      exact holds.child stands' (data ▸ owns')
  loose {x node} stands alone := by
    by_cases member : x ∈ xs
    · exact rechained.loose x member (alone a) stands
    · obtain ⟨node', stands', links⟩ := exists_kept (rechained.touched.links x member) stands
      rw [← links]
      refine holds.loose stands' fun b listed => ?_
      by_cases here : b = a
      · exact member ((touched x).mpr (.inl (here ▸ listed)))
      · rw [← same b here] at listed
        exact alone b listed

section Operations

variable {a x : Nat} (holds : Holds owns heap forest)
  (owner : ∃ node, heap.lookup a = some node ∧ owns node.data = true)

include holds owner

/-- When a loose block was put into a list, the memory holds the forest with that block. -/
theorem Holds.inserted {which : Nat} (loose : forest.Loose x) (apart : ¬ forest.Below x a)
    (rechained
      : Rechained heap heap' a
          ((forest.children a).take which ++ x :: (forest.children a).drop which)
          ((forest.children a).take which ++ x :: (forest.children a).drop which))
    : Holds owns heap' (forest.insertAt a which x loose apart) := by
  have list
      : (forest.insertAt a which x loose apart).children a
        = (forest.children a).take which ++ x :: (forest.children a).drop which :=
    Function.update_self ..
  refine holds.relist (fun b other => Function.update_of_ne other ..) owner (fun y => ?_)
    (list ▸ rechained)
  rw [list, List.perm_middle.mem_iff, List.take_append_drop, List.mem_cons]
  exact ⟨fun member => .inr member, fun either => either.elim .inr id⟩

/-- When a block was taken out of a list, the memory holds the forest without it. -/
theorem Holds.erased {front back : List Nat} (list : forest.children a = front ++ x :: back)
    (rechained : Rechained heap heap' a (front ++ x :: back) (front ++ back))
    : Holds owns heap' (forest.eraseAt a front.length) := by
  have list' := Forest.children_eraseAt list
  refine holds.relist (fun b other => Function.update_of_ne other ..) owner (fun y => ?_)
    (list'.symm ▸ rechained)
  rw [list, list', List.perm_middle.mem_iff, List.mem_cons]
  exact ⟨fun member => .inl member, fun either => either.elim id .inr⟩

end Operations

/-- When the blocks below a loose one are gone, the memory holds the forest of the others. -/
theorem Holds.prune (holds : Holds owns heap forest) {x : Nat} (alone : forest.Loose x)
    {gone : List Nat} (spans : forest.Spans [x] gone)
    (left : ∀ a, heap'.lookup a = if a ∈ gone then none else heap.lookup a)
    : Holds owns heap' (forest.prune gone) := by
  have mem_gone {y : Nat} : y ∈ gone ↔ forest.Below x y := by simp [spans.mem_iff]
  have stays {a y : Nat} (listed : y ∈ forest.children a) : y ∈ gone ↔ a ∈ gone := by
    rw [mem_gone, mem_gone]
    refine ⟨fun below => ?_, fun below => below.tail listed⟩
    rcases below.cases_tail with same | ⟨parent, between, last⟩
    · exact absurd (same ▸ listed) (alone a)
    · rwa [forest.unique listed last]
  have kept {a : Nat} {node : Node D} (stands : heap'.lookup a = some node)
      : a ∉ gone ∧ heap.lookup a = some node := by
    rw [left] at stands
    split_ifs at stands with member
    exact ⟨member, stands⟩
  have children {a : Nat} (member : a ∉ gone)
      : (forest.prune gone).children a = forest.children a :=
    if_neg member
  refine ⟨fun a => ?_, fun {a} some => ?_, fun {a node} stands owns' => ?_,
    fun {y node} stands alone' => ?_⟩
  · by_cases member : a ∈ gone
    · rw [Forest.prune, Forest.restrict]
      simp only [if_pos member]
      trivial
    · rw [children member]
      refine (holds.linked a).congr fun y listed => ?_
      rw [left, if_neg fun inside => member ((stays listed).mp inside)]
  · have member : a ∉ gone := fun inside => some (if_pos inside)
    rw [children member] at some
    obtain ⟨node, stands, owns'⟩ := holds.owner some
    exact ⟨node, by rw [left, if_neg member, stands], owns'⟩
  · obtain ⟨member, before⟩ := kept stands
    rw [children member]
    exact holds.child before owns'
  · obtain ⟨member, before⟩ := kept stands
    refine holds.loose before fun a listed => ?_
    have owner : a ∉ gone := fun inside => member ((stays listed).mpr inside)
    exact alone' a (by rwa [children owner])

end Cvos.Lib

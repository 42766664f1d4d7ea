import Cvos.LibJson.ItemLists

/-! Deletion of items. Each text that cJSON has allocated belongs to one item, and `cJSON_Delete`
frees an item with all that is below it and all their texts, each once.
-/

namespace Cvos.LibJson

open Cvos.Lib

variable {F : Type} {m m' : Memory F} {forest : Forest} {items : Heap (Cell F)} {cell : Cell F}

/-- The text at a pointer, if it is to be freed. -/
def ownedText (free : Bool) (p : Option Nat) : List Nat := if free then p.toList else []

/-- The texts that are freed with an item. -/
def Record.texts (record : Record F) : List Nat :=
  ownedText (!record.isReference) record.valuestring
    ++ ownedText (!record.stringIsConst) record.string

/-- The texts that are freed with the item at an address. -/
def textsAt (items : Heap (Cell F)) (a : Nat) : List Nat :=
  ((items.lookup a).map fun cell => cell.data.texts).getD []

/-- A text that `malloc` returned stands at an address. -/
def Memory.Allocated (m : Memory F) (t : Nat) : Prop :=
  ∃ block, m.texts.lookup t = some block ∧ block.callers = false

/-- The second memory is the first one without some items and texts. -/
structure Freed (m m' : Memory F) (gone lost : List Nat) : Prop where
  items : ∀ a, m'.items.lookup a = if a ∈ gone then none else m.items.lookup a
  texts : ∀ t, m'.texts.lookup t = if t ∈ lost then none else m.texts.lookup t

/-- Each text that was allocated and not freed belongs to one item. -/
structure Tidy (m : Memory F) : Prop where
  allocated : ∀ {a t}, t ∈ textsAt m.items a → m.Allocated t
  nodup : ∀ a, (textsAt m.items a).Nodup
  unique : ∀ {a b t}, t ∈ textsAt m.items a → t ∈ textsAt m.items b → a = b
  owned : ∀ {t}, m.Allocated t → ∃ a, t ∈ textsAt m.items a

section Frees

/-- Nothing was freed. -/
theorem Freed.refl (m : Memory F) : Freed m m [] [] := ⟨fun _ => rfl, fun _ => rfl⟩

/-- More was freed. -/
theorem Freed.trans {m'' : Memory F} {gone gone' lost lost' : List Nat}
    (first : Freed m m' gone lost) (second : Freed m' m'' gone' lost')
    : Freed m m'' (gone ++ gone') (lost ++ lost') where
  items a := by
    rw [second.items, first.items]
    by_cases early : a ∈ gone <;> by_cases late : a ∈ gone' <;> simp [early, late]
  texts t := by
    rw [second.texts, first.texts]
    by_cases early : t ∈ lost <;> by_cases late : t ∈ lost' <;> simp [early, late]

/-- What was freed may be listed in another order. -/
theorem Freed.perm {gone gone' lost lost' : List Nat} (freed : Freed m m' gone lost)
    (same : gone.Perm gone') (same' : lost.Perm lost')
    : Freed m m' gone' lost' where
  items a := by
    rw [freed.items]
    simp only [same.mem_iff]
  texts t := by
    rw [freed.texts]
    simp only [same'.mem_iff]

/-- A text that was not freed is still allocated. -/
theorem Freed.allocated {gone lost : List Nat} (freed : Freed m m' gone lost) {t : Nat}
    (kept : t ∉ lost)
    : m'.Allocated t ↔ m.Allocated t := by
  rw [Memory.Allocated, Memory.Allocated, freed.texts, if_neg kept]

/-- The texts of an item that stands. -/
theorem textsAt_eq {a : Nat} (stands : items.lookup a = some cell)
    : textsAt items a = cell.data.texts := by
  rw [textsAt, stands]
  rfl

/-- An allocated text is freed if it is to be. -/
theorem freeIf_eq (free : Bool) (p : Option Nat) (allocated : ∀ t ∈ ownedText free p, m.Allocated t)
    : ∃ m', m.freeIf free p = .ok m' ∧ Freed m m' [] (ownedText free p) := by
  cases free with
  | false => exact ⟨m, rfl, .refl m⟩
  | true =>
      cases p with
      | none => exact ⟨m, rfl, .refl m⟩
      | some t =>
          obtain ⟨block, stands, malloced⟩ := allocated t (List.mem_singleton_self t)
          refine ⟨{ m with texts := m.texts.erase t }, ?_, fun a => rfl, fun t' => ?_⟩
          · rw [Memory.freeIf]
            refine (if_pos rfl).trans ?_
            rw [Memory.freeText, Heap.read_eq stands, Checked.ok_bind, malloced,
              if_neg (by decide), Heap.free_eq stands]
            rfl
          · simp [Heap.lookup_erase, ownedText]

/-- An item is freed with its texts. -/
theorem freeItem_eq {x : Nat} (stands : m.items.lookup x = some cell)
    (unique : cell.data.texts.Nodup) (allocated : ∀ t ∈ cell.data.texts, m.Allocated t)
    : ∃ m', m.freeItem (some x) = .ok m' ∧ Freed m m' [x] cell.data.texts := by
  obtain ⟨m₁, written₁, freed₁⟩ :=
    freeIf_eq (!cell.data.isReference) cell.data.valuestring fun t member =>
      allocated t (List.mem_append_left _ member)
  have disjoint := (List.nodup_append'.mp unique).2.2
  obtain ⟨m₂, written₂, freed₂⟩ :=
    freeIf_eq (!cell.data.stringIsConst) cell.data.string fun t member =>
      (freed₁.allocated fun inside => disjoint inside member).mpr
        (allocated t (List.mem_append_right _ member))
  have freed := freed₁.trans freed₂
  have stands₂ : m₂.items.lookup x = some cell := by
    rw [freed.items, if_neg (by simp), stands]
  refine ⟨{ m₂ with items := m₂.items.erase x }, ?_, fun a => ?_, freed.texts⟩
  · rw [Memory.freeItem, Heap.read_eq stands, Checked.ok_bind, written₁, Checked.ok_bind, written₂,
      Checked.ok_bind, Heap.free_eq stands₂]
    rfl
  · simp [Heap.lookup_erase, freed.items]

end Frees

/-- The turns of `cJSON_Delete` free a chain of items with all that is below them. -/
theorem deleteLoop_frees (holds : Holds Record.owns items forest) {xs gone : List Nat}
    (spans : forest.Spans xs gone) {before : Option Nat} (linked : Linked items before xs none)
    (unique : gone.Nodup) (uniqueTexts : (gone.flatMap (textsAt items)).Nodup)
    {fuel : Nat} (enough : gone.length ≤ fuel)
    (same : ∀ a ∈ gone, m.items.lookup a = items.lookup a)
    (allocated : ∀ t ∈ gone.flatMap (textsAt items), m.Allocated t)
    : ∃ m',
        deleteLoop fuel xs.head? m = .ok m' ∧ Freed m m' gone (gone.flatMap (textsAt items)) := by
  induction spans generalizing before fuel m with
  | nil => exact ⟨m, by cases fuel <;> rfl, .refl m⟩
  | @cons x xs ys zs below rest ih ih' =>
      obtain ⟨⟨node, there, -, next⟩, later⟩ := linked
      obtain ⟨fuel, rfl⟩ : ∃ n, fuel = n + 1 :=
        Nat.exists_eq_succ_of_ne_zero (by rw [List.length_cons] at enough; omega)
      rw [List.length_cons, List.length_append] at enough
      obtain ⟨fresh, uniqueRest⟩ := List.nodup_cons.mp unique
      obtain ⟨uniqueBelow, uniqueLater, apart⟩ := List.nodup_append'.mp uniqueRest
      rw [List.flatMap_cons, List.flatMap_append] at uniqueTexts allocated ⊢
      obtain ⟨uniqueOwn, uniqueOthers, apartOwn⟩ := List.nodup_append'.mp uniqueTexts
      obtain ⟨textsBelow, textsLater, apartTexts⟩ := List.nodup_append'.mp uniqueOthers
      rw [textsAt_eq there] at uniqueOwn apartOwn allocated ⊢
      have stands : m.items.lookup x = some node := (same x List.mem_cons_self).trans there
      -- the items below, of which a reference has none of its own
      have first
          : ∃ m₁,
              (if node.data.isReference then .ok m else deleteLoop fuel node.child m) = .ok m₁
              ∧ Freed m m₁ ys (ys.flatMap (textsAt items)) := by
        by_cases borrows : node.data.isReference = true
        · have nothing := holds.barren there (by simp [Record.owns, borrows])
          rw [nothing] at below
          cases below
          exact ⟨m, if_pos borrows, .refl m⟩
        · rw [if_neg borrows, holds.child there (by simpa [Record.owns] using borrows)]
          refine ih (holds.linked x) uniqueBelow textsBelow (by omega)
            (fun a member => same a ?_) fun t member => allocated t ?_
          · exact List.mem_cons_of_mem _ (List.mem_append_left _ member)
          · exact List.mem_append_right _ (List.mem_append_left _ member)
      obtain ⟨m₁, written₁, freed₁⟩ := first
      have stands₁ : m₁.items.lookup x = some node := by
        rw [freed₁.items, if_neg fun member => fresh (List.mem_append_left _ member), stands]
      obtain ⟨m₂, written₂, freed₂⟩ :=
        freeItem_eq stands₁ uniqueOwn fun t member =>
          (freed₁.allocated fun inside =>
            apartOwn member (List.mem_append_left _ inside)).mpr
            (allocated t (List.mem_append_left _ member))
      have freed := freed₁.trans freed₂
      obtain ⟨m₃, written₃, freed₃⟩ :=
        @ih' m₂ (some x) later uniqueLater textsLater fuel (by omega)
          (fun a member => by
            rw [freed.items, if_neg]
            · exact same a (List.mem_cons_of_mem _ (List.mem_append_right _ member))
            · rw [List.mem_append, List.mem_singleton]
              rintro (inside | rfl)
              · exact apart inside member
              · exact fresh (List.mem_append_right _ member))
          fun t member => by
            refine (freed.allocated fun inside => ?_).mpr
              (allocated t (List.mem_append_right _ (List.mem_append_right _ member)))
            rcases List.mem_append.mp inside with inside | inside
            · exact apartTexts inside member
            · exact apartOwn inside (List.mem_append_right _ member)
      rw [Option.or_none] at next
      refine ⟨m₃, ?_, ?_⟩
      · rw [List.head?_cons, deleteLoop, Heap.read_eq stands, Checked.ok_bind, written₁,
          Checked.ok_bind, written₂, Checked.ok_bind, next, written₃]
      · refine (freed.trans freed₃).perm ?_ ?_
        · rw [List.append_assoc]
          exact List.perm_middle
        · rw [← List.append_assoc]
          exact List.perm_append_comm.append_right _

/-- `cJSON_Delete` of a loose item frees it with all that is below it and all their texts, each
once. The memory then holds the other items, and their texts are those that are still allocated.
-/
theorem cJSONDelete_frees (holds : Holds Record.owns m.items forest) (tidy : Tidy m) {x : Nat}
    (stands : m.items.lookup x = some cell) (loose : forest.Loose x)
    : ∃ gone m',
        forest.Spans [x] gone
        ∧ gone.Nodup
        ∧ (gone.flatMap (textsAt m.items)).Nodup
        ∧ cJSONDelete m (some x) = .ok m'
        ∧ Freed m m' gone (gone.flatMap (textsAt m.items))
        ∧ Holds Record.owns m'.items (forest.prune gone)
        ∧ Tidy m' := by
  obtain ⟨gone, spans⟩ := forest.exists_spans [x]
  have unique := spans.nodup_singleton
  have uniqueTexts : (gone.flatMap (textsAt m.items)).Nodup :=
    List.nodup_flatMap.mpr ⟨fun a _ => tidy.nodup a,
      unique.imp fun other _ member member' => other (tidy.unique member member')⟩
  have stand : ∀ a ∈ gone, ∃ cell, m.items.lookup a = some cell := by
    intro a member
    obtain ⟨y, here, below⟩ := spans.mem_iff.mp member
    rw [List.mem_singleton.mp here] at below
    rcases below.cases_tail with same | ⟨parent, -, listed⟩
    · exact ⟨cell, same ▸ stands⟩
    · exact holds.stands listed
  have enough : gone.length ≤ enoughTurns m.items := Heap.length_le_card unique stand
  obtain ⟨m', deleted, freed⟩ :=
    deleteLoop_frees holds spans (linked_singleton stands (holds.loose stands loose)) unique
      uniqueTexts enough (fun _ _ => rfl) fun t member => by
        obtain ⟨a, -, inside⟩ := List.mem_flatMap.mp member
        exact tidy.allocated inside
  have left (a : Nat) : textsAt m'.items a = if a ∈ gone then [] else textsAt m.items a := by
    rw [textsAt, freed.items]
    split_ifs <;> rfl
  have kept {a t : Nat} (member : t ∈ textsAt m'.items a) : a ∉ gone ∧ t ∈ textsAt m.items a := by
    rw [left] at member
    split_ifs at member with inside
    · exact absurd member List.not_mem_nil
    · exact ⟨inside, member⟩
  refine ⟨gone, m', spans, unique, uniqueTexts, deleted, freed,
    holds.prune loose spans freed.items, ⟨?_, fun a => ?_, ?_, ?_⟩⟩
  · intro a t member
    obtain ⟨stays, member⟩ := kept member
    refine (freed.allocated fun lost => ?_).mpr (tidy.allocated member)
    obtain ⟨b, inside, member'⟩ := List.mem_flatMap.mp lost
    exact stays (tidy.unique member member' ▸ inside)
  · rw [left]
    split_ifs
    · exact List.nodup_nil
    · exact tidy.nodup a
  · intro a b t member member'
    exact tidy.unique (kept member).2 (kept member').2
  · intro t allocated
    have stays : t ∉ gone.flatMap (textsAt m.items) := by
      intro lost
      obtain ⟨block, there, -⟩ := allocated
      rw [freed.texts, if_pos lost] at there
      exact absurd there (by simp)
    obtain ⟨a, member⟩ := tidy.owned ((freed.allocated stays).mp allocated)
    refine ⟨a, ?_⟩
    rwa [left, if_neg fun inside => stays (List.mem_flatMap.mpr ⟨a, inside, member⟩)]

end Cvos.LibJson

import Cvos.LibJson.ItemDelete

/-! The texts of items. Each text that cJSON has allocated belongs to one item, also after an item
was created or given another name.
-/

namespace Cvos.LibJson

open Cvos.Lib

variable {F : Type} {m m' : Memory F} {items' : Heap (Cell F)} {cell : Cell F} {item : Nat}

/-- Who owns which texts depends on what the items hold, not on their links. -/
theorem textsAt_congr {items : Heap (Cell F)}
    (data : ∀ b, (items'.lookup b).map Node.data = (items.lookup b).map Node.data) (a : Nat)
    : textsAt items' a = textsAt items a := by
  have same := congrArg (fun found => (Option.map Record.texts found).getD []) (data a)
  simp only [Option.map_map] at same
  exact same

/-- When only links were written, the texts belong to the items as before. -/
theorem Tidy.relink (tidy : Tidy m)
    (data : ∀ b, (items'.lookup b).map Node.data = (m.items.lookup b).map Node.data)
    : Tidy { m with items := items' } where
  allocated member := tidy.allocated (textsAt_congr data _ ▸ member)
  nodup a := by
    rw [textsAt_congr data a]
    exact tidy.nodup a
  unique member member' :=
    tidy.unique (textsAt_congr data _ ▸ member) (textsAt_congr data _ ▸ member')
  owned allocated := by
    obtain ⟨a, member⟩ := tidy.owned allocated
    exact ⟨a, by rwa [textsAt_congr data a]⟩

/-- One item may own other texts than before, if they are the ones that are allocated for it. -/
theorem Tidy.change (tidy : Tidy m) {a : Nat} {new : List Nat}
    (left : ∀ b, textsAt m'.items b = if b = a then new else textsAt m.items b)
    (allocated
      : ∀ t, m'.Allocated t ↔ t ∈ new ∨ (m.Allocated t ∧ t ∉ textsAt m.items a))
    (nodup : new.Nodup) (apart : ∀ t ∈ new, ∀ b, b ≠ a → t ∉ textsAt m.items b)
    : Tidy m' := by
  have either {b t : Nat} (member : t ∈ textsAt m'.items b)
      : (b = a ∧ t ∈ new) ∨ (b ≠ a ∧ t ∈ textsAt m.items b) := by
    rw [left] at member
    split_ifs at member with here
    · exact .inl ⟨here, member⟩
    · exact .inr ⟨here, member⟩
  refine ⟨fun {b t} member => (allocated t).mpr ?_, fun b => ?_, fun {b c t} member member' => ?_,
    fun {t} given => ?_⟩
  · rcases either member with ⟨-, inside⟩ | ⟨other, inside⟩
    · exact .inl inside
    · exact .inr ⟨tidy.allocated inside, fun own => other (tidy.unique inside own)⟩
  · rw [left]
    split_ifs
    · exact nodup
    · exact tidy.nodup b
  · rcases either member with ⟨here, inside⟩ | ⟨other, inside⟩
    · rcases either member' with ⟨here', -⟩ | ⟨other', inside'⟩
      · exact here.trans here'.symm
      · exact absurd inside' (apart t inside c other')
    · rcases either member' with ⟨-, inside'⟩ | ⟨-, inside'⟩
      · exact absurd inside (apart t inside' b other)
      · exact tidy.unique inside inside'
  · rcases (allocated t).mp given with inside | ⟨before, kept⟩
    · exact ⟨a, by rwa [left, if_pos rfl]⟩
    · obtain ⟨b, member⟩ := tidy.owned before
      refine ⟨b, ?_⟩
      rwa [left, if_neg]
      rintro rfl
      exact kept member

/-- Where no text stands, none is allocated. -/
theorem not_allocated {t : Nat} (vacant : m.texts.lookup t = none) : ¬ m.Allocated t := by
  rintro ⟨block, stands, -⟩
  rw [vacant] at stands
  exact absurd stands (by simp)

/-- After a text was allocated, it and the ones before are. -/
theorem allocated_insert {t : Nat} (string : CString) (t' : Nat)
    (texts : m'.texts = m.texts.insert t ⟨string, false⟩)
    : m'.Allocated t' ↔ t' = t ∨ m.Allocated t' := by
  rw [Memory.Allocated, Memory.Allocated, texts, Heap.lookup_insert]
  by_cases here : t' = t
  · simp [here]
  · simp [here]

/-- What the item at an address owns after a write. -/
theorem textsAt_insert (items : Heap (Cell F)) (a : Nat) (node : Cell F) (b : Nat)
    : textsAt (items.insert a node) b = if b = a then node.data.texts else textsAt items b := by
  rw [textsAt, Heap.lookup_insert]
  split_ifs <;> rfl

/-- A new item without texts leaves the texts to their items. -/
theorem Tidy.insert (tidy : Tidy m) {a : Nat} (vacant : m.items.lookup a = none) {node : Cell F}
    (nothing : node.data.texts = [])
    : Tidy { m with items := m.items.insert a node } := by
  have before : textsAt m.items a = [] := by
    rw [textsAt, vacant]
    rfl
  refine @Tidy.change F m _ tidy a [] (fun b => ?_) (fun t => ?_) List.nodup_nil
    (fun t member => absurd member List.not_mem_nil)
  · rw [textsAt_insert, nothing]
  · rw [before]
    simp only [List.not_mem_nil, false_or, not_false_eq_true, and_true]
    rfl

variable (malloc : Allocator)

/-- A text of the caller's is not allocated. -/
theorem Tidy.keepText (tidy : Tidy m) (text : CString) : Tidy (m.keepText malloc text).memory := by
  have vacant := Heap.lookup_place malloc m.texts
  have same {t : Nat} : (m.keepText malloc text).memory.Allocated t ↔ m.Allocated t := by
    rw [Memory.Allocated, Memory.Allocated, Memory.keepText, Heap.lookup_insert]
    split_ifs with here
    · rw [here, vacant]
      simp
    · rfl
  exact ⟨fun member => same.mpr (tidy.allocated member), tidy.nodup, tidy.unique,
    fun allocated => tidy.owned (same.mp allocated)⟩

/-- A reference is a new item with the fields of another one, and owns nothing. -/
theorem createReference_eq [CDouble F] (stands : m.items.lookup item = some cell)
    : m.createReference malloc (some item)
      = .ok
          ⟨some (malloc.place m.items.keys),
            { m with
              items :=
                m.items.insert (malloc.place m.items.keys)
                  ⟨none, none, cell.child, cell.data.reference⟩ }⟩ := by
  have vacant := Heap.lookup_place malloc m.items
  have other : item ≠ malloc.place m.items.keys := by
    rintro rfl
    rw [vacant] at stands
    exact absurd stands (by simp)
  have stands' : (m.place malloc newRecord).memory.items.lookup item = some cell :=
    (Heap.lookup_insert ..).trans ((if_neg other).trans stands)
  have here := Heap.lookup_insert m.items (malloc.place m.items.keys) (malloc.place m.items.keys)
    ⟨none, none, none, (newRecord : Record F)⟩
  rw [if_pos rfl] at here
  have written := Heap.change_eq here fun _ => ⟨none, none, cell.child, cell.data.reference⟩
  rw [Finmap.insert_insert] at written
  rw [Memory.createReference, Heap.read_eq stands', Checked.ok_bind]
  refine (congrArg (· >>= _) written).trans ?_
  rfl

/-- A new string item owns its text. -/
theorem Tidy.createString [CDouble F] (tidy : Tidy m) (string : CString)
    : Tidy (m.cJSONCreateString malloc string).memory := by
  have vacant := Heap.lookup_place malloc m.items
  have unused := Heap.lookup_place malloc m.texts
  have before : textsAt m.items (malloc.place m.items.keys) = [] := by
    rw [textsAt, vacant]
    rfl
  refine @Tidy.change F m _ tidy (malloc.place m.items.keys) [malloc.place m.texts.keys]
    (fun b => ?_) (fun t => ?_) (List.nodup_singleton _) (fun t member b _ inside => ?_)
  · have found
        : (m.cJSONCreateString malloc string).memory.items.lookup b
          = if b = malloc.place m.items.keys then
              some ⟨none, none, none,
                { (newRecord : Record F) with
                  type := .string, valuestring := some (malloc.place m.texts.keys) }⟩
            else m.items.lookup b :=
      Heap.lookup_insert ..
    rw [textsAt, found]
    split_ifs <;> rfl
  · rw [before, allocated_insert (m := m) string t rfl]
    simp
  · rw [List.mem_singleton.mp member] at inside
    exact not_allocated unused (tidy.allocated inside)

/-- What is allocated after some texts were freed. -/
theorem Freed.allocated_iff {gone lost : List Nat} (freed : Freed m m' gone lost) {t : Nat}
    : m'.Allocated t ↔ t ∉ lost ∧ m.Allocated t := by
  by_cases member : t ∈ lost
  · refine ⟨fun allocated => absurd allocated (not_allocated ?_), fun both => absurd member both.1⟩
    rw [freed.texts, if_pos member]
  · rw [freed.allocated member]
    exact ⟨fun allocated => ⟨member, allocated⟩, And.right⟩

/-- After the name of an item was freed, the item may have none, or one of the caller's. -/
theorem Tidy.unname (tidy : Tidy m) (stands : m.items.lookup item = some cell)
    (freed : Freed m m' [] (ownedText (!cell.data.stringIsConst) cell.data.string))
    {record : Record F}
    (texts : record.texts = ownedText (!cell.data.isReference) cell.data.valuestring)
    : Tidy { m' with items := m'.items.insert item { cell with data := record } } := by
  have mine := textsAt_eq stands
  have unique := tidy.nodup item
  rw [mine] at unique
  obtain ⟨uniqueValue, -, disjoint⟩ := List.nodup_append'.mp unique
  have owned {t : Nat} (member : t ∈ record.texts) : t ∈ textsAt m.items item := by
    rw [mine]
    exact List.mem_append_left _ (texts ▸ member)
  refine @Tidy.change F m _ tidy item record.texts (fun b => ?_) (fun t => ?_)
    (texts ▸ uniqueValue) (fun t member b other inside => other (tidy.unique inside (owned member)))
  · rw [textsAt_insert, textsAt, freed.items, if_neg List.not_mem_nil]
    rfl
  · change m'.Allocated t ↔ _
    have parts {t : Nat}
        : t ∈ cell.data.texts
          ↔ t ∈ record.texts
            ∨ t ∈ ownedText (!cell.data.stringIsConst) cell.data.string := by
      rw [texts]
      exact List.mem_append
    rw [freed.allocated_iff, mine, parts, not_or]
    constructor
    · rintro ⟨stays, before⟩
      by_cases value : t ∈ record.texts
      · exact .inl value
      · exact .inr ⟨before, value, stays⟩
    · rintro (value | ⟨before, -, stays⟩)
      · exact ⟨fun name => disjoint (texts ▸ value) name, tidy.allocated (owned value)⟩
      · exact ⟨stays, before⟩

/-- An item without a name may be given one that was allocated for it. -/
theorem Tidy.name (tidy : Tidy m) (stands : m.items.lookup item = some cell)
    (unnamed : cell.data.string = none) (own : cell.data.stringIsConst = false) {t : Nat}
    (vacant : m.texts.lookup t = none) (name : CString)
    : Tidy
        { items :=
            m.items.insert item { cell with data := { cell.data with string := some t } }
          texts := m.texts.insert t ⟨name, false⟩ } := by
  have unused : t ∉ textsAt m.items item := fun member =>
    not_allocated vacant (tidy.allocated member)
  have mine : cell.data.texts = textsAt m.items item := (textsAt_eq stands).symm
  have more
      : Record.texts { cell.data with string := some t } = textsAt m.items item ++ [t] := by
    rw [← mine, Record.texts, Record.texts, unnamed, own]
    simp [ownedText]
  refine @Tidy.change F m _ tidy item (textsAt m.items item ++ [t]) (fun b => ?_) (fun t' => ?_) ?_
    (fun t' member b other inside => ?_)
  · rw [textsAt_insert, more]
  · rw [allocated_insert (m := m) name t' rfl, List.mem_append, List.mem_singleton]
    constructor
    · rintro (here | before)
      · exact .inl (.inr here)
      · by_cases own : t' ∈ textsAt m.items item
        · exact .inl (.inl own)
        · exact .inr ⟨before, own⟩
    · rintro ((own | here) | ⟨before, -⟩)
      · exact .inr (tidy.allocated own)
      · exact .inl here
      · exact .inr before
  · refine List.nodup_append'.mpr ⟨tidy.nodup item, List.nodup_singleton t, fun t' own here => ?_⟩
    exact unused (List.mem_singleton.mp here ▸ own)
  · rcases List.mem_append.mp member with own | here
    · exact other (tidy.unique inside own)
    · exact not_allocated vacant (tidy.allocated (List.mem_singleton.mp here ▸ inside))

/-- What is left of an item that is given another name. -/
structure Renamed (m m' : Memory F) (item : Nat) (cell : Cell F) : Prop where
  tidy : Tidy m'
  left : ∃ record : Record F,
    record.owns = cell.data.owns
    ∧ m'.items = m.items.insert item { cell with data := record }

section Names

variable (tidy : Tidy m) (stands : m.items.lookup item = some cell)

include tidy stands

/-- The name of an item is freed, if it is no text of the caller's. -/
theorem exists_freed
    : ∃ m₁,
        m.freeIf (!cell.data.stringIsConst) cell.data.string = .ok m₁
        ∧ Freed m m₁ [] (ownedText (!cell.data.stringIsConst) cell.data.string)
        ∧ m₁.items = m.items := by
  obtain ⟨m₁, written, freed⟩ :=
    @freeIf_eq _ m (!cell.data.stringIsConst) cell.data.string fun t member => by
      refine tidy.allocated (show t ∈ textsAt m.items item from ?_)
      rw [textsAt_eq stands]
      exact List.mem_append_right _ member
  refine ⟨m₁, written, freed, Finmap.ext_lookup fun b => ?_⟩
  rw [freed.items, if_neg List.not_mem_nil]

/-- An item whose name is no text of the caller's is given another one, which stands elsewhere. -/
theorem exists_renamed (own : cell.data.stringIsConst = false) {string : Nat} {name : TextBlock}
    (readable : m.texts.lookup string = some name) (elsewhere : cell.data.string ≠ some string)
    : ∃ m₁ m₂,
        m.freeIf true cell.data.string = .ok m₁
        ∧ m₁.texts.read (some string) = .ok name
        ∧ m₁.rename malloc (some item) name.text = .ok m₂
        ∧ Renamed m m₂ item cell := by
  obtain ⟨m₁, written, freed, same⟩ := exists_freed tidy stands
  have unnamed := @Tidy.unname F m m₁ cell item tidy stands freed
    { cell.data with string := none } (by simp [Record.texts, ownedText])
  have stands' := Heap.lookup_insert m₁.items item item
    { cell with data := { cell.data with string := none } }
  rw [if_pos rfl] at stands'
  have named := unnamed.name stands' rfl own (Heap.lookup_place malloc m₁.texts) name.text
  rw [Finmap.insert_insert] at named
  rw [own] at written freed
  have stands₁ : m₁.items.lookup item = some cell := same.symm ▸ stands
  have readable₁ : m₁.texts.lookup string = some name := by
    rw [freed.texts, if_neg, readable]
    exact fun member => elsewhere (Option.mem_toList.mp member)
  refine ⟨m₁, _, written, Heap.read_eq readable₁,
    congrArg (Except.map _) (Heap.change_eq stands₁ _), named,
    { cell.data with string := some (malloc.place m₁.texts.keys) }, rfl, ?_⟩
  rw [← same]
  rfl

/-- An item is given a name of the caller's. -/
theorem exists_renamed_constant (string : Option Nat)
    : ∃ m₁ items₂,
        m.freeIf (!cell.data.stringIsConst) cell.data.string = .ok m₁
        ∧ (m₁.items.change (some item) fun cell =>
            { cell with data := { cell.data with string, stringIsConst := true } }) = .ok items₂
        ∧ Renamed m { m₁ with items := items₂ } item cell := by
  obtain ⟨m₁, written, freed, same⟩ := exists_freed tidy stands
  have named := @Tidy.unname F m m₁ cell item tidy stands freed
    { cell.data with string, stringIsConst := true } (by simp [Record.texts, ownedText])
  have stands₁ : m₁.items.lookup item = some cell := same.symm ▸ stands
  refine ⟨m₁, _, written, Heap.change_eq stands₁ _, named,
    { cell.data with string, stringIsConst := true }, rfl, ?_⟩
  rw [← same]

end Names

end Cvos.LibJson

import Cvos.Lib.Siblings
import Mathlib.Logic.Relation
import Mathlib.Order.WellFounded

/-! Trees that are built from loose blocks by listing them below one another. -/

namespace Cvos.Lib

/-- Which blocks are listed below which. No block is listed twice, and none below itself. -/
@[ext]
structure Forest where
  children : Nat → List Nat
  nodup : ∀ a, (children a).Nodup
  unique : ∀ {a b x}, x ∈ children a → x ∈ children b → a = b
  acyclic : WellFounded fun x a => x ∈ children a

namespace Forest

/-- No block is listed. -/
def empty : Forest where
  children _ := []
  nodup _ := List.nodup_nil
  unique member := absurd member List.not_mem_nil
  acyclic := ⟨fun _ => ⟨_, fun _ member => absurd member List.not_mem_nil⟩⟩

variable (forest : Forest)

/-- A block that is listed nowhere. -/
def Loose (x : Nat) : Prop := ∀ a, x ∉ forest.children a

/-- The block `y` is `x`, or is listed below it, at any depth. -/
def Below : Nat → Nat → Prop := Relation.ReflTransGen fun x y => y ∈ forest.children x

/-- The blocks `ys` are the blocks `xs`, each followed by those below it. -/
inductive Spans : List Nat → List Nat → Prop
  | nil : Spans [] []
  | cons {x xs ys zs} (below : Spans (forest.children x) ys) (rest : Spans xs zs)
    : Spans (x :: xs) (x :: (ys ++ zs))

variable {forest} {a b x y : Nat} {xs ys : List Nat}

/-- A block that is listed somewhere is not loose. -/
theorem Loose.ne (loose : forest.Loose x) (member : y ∈ forest.children a) : y ≠ x := by
  rintro rfl
  exact loose a member

/-- Nothing is below a block without a list but the block itself. -/
theorem Below.eq_of_nil (below : forest.Below x y) (nothing : forest.children x = []) : y = x := by
  rcases below.cases_head with same | ⟨z, listed, -⟩
  · exact same.symm
  · rw [nothing] at listed
    exact absurd listed List.not_mem_nil

/-- No block is listed below one that is below it. -/
theorem not_below (listed : x ∈ forest.children a) : ¬ forest.Below x a := by
  intro below
  have above : Relation.TransGen (fun x a => x ∈ forest.children a) a a := by
    have swapped : Relation.ReflTransGen (fun x a => x ∈ forest.children a) a x :=
      Relation.reflTransGen_swap.mp below
    exact .tail' swapped listed
  exact forest.acyclic.transGen.irrefl.irrefl a above

/-- What is below two blocks of one list is below one of them only. -/
theorem Below.sibling_eq (listed : x ∈ forest.children a) (below : forest.Below y x)
    (listed' : y ∈ forest.children a)
    : x = y := by
  rcases below.cases_tail with same | ⟨parent, between, last⟩
  · exact same
  · rw [forest.unique last listed] at between
    exact absurd between (not_below listed')

/-- Of two blocks with a common block below them, one is below the other. -/
theorem Below.comparable {z : Nat} (first : forest.Below x z) (second : forest.Below y z)
    : forest.Below x y ∨ forest.Below y x := by
  induction first with
  | refl => exact .inr second
  | @tail b c between last ih =>
      rcases second.cases_tail with same | ⟨parent, between', last'⟩
      · rw [← same]
        exact .inl (between.tail last)
      · rw [forest.unique last' last] at between'
        exact ih between'

/-- What is below a block depends on the lists of the blocks below it. -/
theorem below_congr {forest' : Forest}
    (same : ∀ a, forest.Below x a → forest'.children a = forest.children a)
    : forest'.Below x y ↔ forest.Below x y := by
  constructor
  · intro below
    induction below with
    | refl => exact .refl
    | @tail b c _ listed ih => exact ih.tail (same b ih ▸ listed)
  · intro below
    induction below with
    | refl => exact .refl
    | @tail b c between listed ih => exact ih.tail ((same b between).symm ▸ listed)

/-- The blocks below some blocks can be named one after another. -/
theorem exists_spans (forest : Forest) (xs : List Nat) : ∃ ys, forest.Spans xs ys := by
  have each (x : Nat) : ∃ ys, forest.Spans (forest.children x) ys := by
    induction x using forest.acyclic.induction with
    | h x ih =>
        have along (xs : List Nat) (listed : ∀ y ∈ xs, y ∈ forest.children x)
            : ∃ ys, forest.Spans xs ys := by
          induction xs with
          | nil => exact ⟨[], .nil⟩
          | cons y xs ih' =>
              obtain ⟨ys, below⟩ := ih y (listed y List.mem_cons_self)
              obtain ⟨zs, rest⟩ := ih' fun z member => listed z (List.mem_cons_of_mem _ member)
              exact ⟨y :: (ys ++ zs), .cons below rest⟩
        exact along (forest.children x) fun y member => member
  induction xs with
  | nil => exact ⟨[], .nil⟩
  | cons x xs ih =>
      obtain ⟨ys, below⟩ := each x
      obtain ⟨zs, rest⟩ := ih
      exact ⟨x :: (ys ++ zs), .cons below rest⟩

/-- A span names the blocks below some blocks, and no others. -/
theorem Spans.mem_iff (spans : forest.Spans xs ys)
    : y ∈ ys ↔ ∃ x ∈ xs, forest.Below x y := by
  induction spans with
  | nil => simp
  | @cons x xs ys zs below rest ih ih' =>
      rw [List.mem_cons, List.mem_append, ih, ih', List.exists_mem_cons_iff]
      constructor
      · rintro (rfl | ⟨z, listed, below⟩ | later)
        · exact .inl .refl
        · exact .inl (.head listed below)
        · exact .inr later
      · rintro (below | later)
        · rcases below.cases_head with same | ⟨z, listed, below⟩
          · exact .inl same.symm
          · exact .inr (.inl ⟨z, listed, below⟩)
        · exact .inr (.inr later)

/-- Blocks of which none is below another have no block below them twice. -/
theorem Spans.nodup (spans : forest.Spans xs ys) (unique : xs.Nodup)
    (apart : ∀ x ∈ xs, ∀ y ∈ xs, forest.Below x y → x = y)
    : ys.Nodup := by
  induction spans with
  | nil => exact List.nodup_nil
  | @cons x xs ys zs below rest ih ih' =>
      have own := ih (forest.nodup x) fun y listed z listed' under =>
        (under.sibling_eq listed' listed).symm
      have others := ih' (List.nodup_cons.mp unique).2 fun y member z member' =>
        apart y (List.mem_cons_of_mem _ member) z (List.mem_cons_of_mem _ member')
      have missing {y : Nat} (member : y ∈ xs) (under : forest.Below x y ∨ forest.Below y x)
          : False := by
        have same : x = y := under.elim
          (apart x List.mem_cons_self y (List.mem_cons_of_mem _ member))
          fun under =>
            (apart y (List.mem_cons_of_mem _ member) x List.mem_cons_self under).symm
        exact (List.nodup_cons.mp unique).1 (same ▸ member)
      rw [List.nodup_cons, List.mem_append, below.mem_iff, rest.mem_iff]
      refine ⟨?_, List.nodup_append'.mpr ⟨own, others, ?_⟩⟩
      · rintro (⟨y, listed, under⟩ | ⟨y, member, under⟩)
        · exact not_below listed under
        · exact missing member (.inr under)
      · intro z inside outside
        obtain ⟨y, listed, under⟩ := below.mem_iff.mp inside
        obtain ⟨y', member, under'⟩ := rest.mem_iff.mp outside
        exact missing member (Below.comparable (.head listed under) under')

/-- The blocks below one block are named once each. -/
theorem Spans.nodup_singleton (spans : forest.Spans [x] ys) : ys.Nodup := by
  refine spans.nodup (List.nodup_singleton x) fun y member z member' _ => ?_
  rw [List.mem_singleton.mp member, List.mem_singleton.mp member']

section Changes

/-- Fewer blocks are listed. -/
def restrict (forest : Forest) (children : Nat → List Nat)
    (fewer : ∀ a, (children a).Sublist (forest.children a))
    : Forest where
  children := children
  nodup a := (forest.nodup a).sublist (fewer a)
  unique member member' := forest.unique ((fewer _).subset member) ((fewer _).subset member')
  acyclic := Subrelation.wf (fun member => (fewer _).subset member) forest.acyclic

/-- The block at a place of a list is listed no more. -/
def eraseAt (forest : Forest) (a which : Nat) : Forest :=
  forest.restrict (Function.update forest.children a ((forest.children a).eraseIdx which))
    fun b => by
      by_cases same : b = a
      · rw [same, Function.update_self]
        exact List.eraseIdx_sublist _ _
      · rw [Function.update_of_ne same]

/-- Some blocks list nothing any more. -/
def prune (forest : Forest) (gone : List Nat) : Forest :=
  forest.restrict (fun a => if a ∈ gone then [] else forest.children a) fun a => by
    split
    · exact List.nil_sublist _
    · exact .refl _

/-- A list with one more block keeps all lists from being below themselves, if its owner is not
below that block.
-/
theorem acyclic_update (forest : Forest) (apart : ¬ forest.Below x a) {list : List Nat}
    (listed : ∀ y ∈ list, y = x ∨ y ∈ forest.children a)
    : WellFounded fun y b => y ∈ Function.update forest.children a list b := by
  -- What is below the new block is as before, and all else has at most that block more below it.
  have under (y : Nat) (below : forest.Below x y)
      : Acc (fun y b => y ∈ Function.update forest.children a list b) y := by
    induction y using forest.acyclic.induction with
    | h y ih =>
        refine ⟨y, fun z member => ?_⟩
        have other : y ≠ a := by
          rintro rfl
          exact apart below
        rw [Function.update_of_ne other] at member
        exact ih z member (below.tail member)
  refine ⟨fun y => ?_⟩
  induction y using forest.acyclic.induction with
  | h y ih =>
      refine ⟨y, fun z member => ?_⟩
      by_cases same : y = a
      · rw [same, Function.update_self] at member
        rcases listed z member with rfl | old
        · exact under z .refl
        · exact ih z (same ▸ old)
      · rw [Function.update_of_ne same] at member
        exact ih z member

/-- A loose block is listed at a place of a list, or at its end. -/
def insertAt (forest : Forest) (a which x : Nat) (loose : forest.Loose x)
    (apart : ¬ forest.Below x a)
    : Forest where
  children :=
    Function.update forest.children a
      ((forest.children a).take which ++ x :: (forest.children a).drop which)
  nodup b := by
    by_cases same : b = a
    · rw [same, Function.update_self, List.nodup_middle, List.take_append_drop]
      exact List.nodup_cons.mpr ⟨loose a, forest.nodup a⟩
    · rw [Function.update_of_ne same]
      exact forest.nodup b
  unique := by
    have either {b y : Nat}
        (member
          : y ∈ Function.update forest.children a
              ((forest.children a).take which ++ x :: (forest.children a).drop which) b)
        : (y = x ∧ b = a) ∨ y ∈ forest.children b := by
      by_cases same : b = a
      · rw [same, Function.update_self, List.perm_middle.mem_iff, List.take_append_drop,
          List.mem_cons] at member
        exact member.imp (⟨·, same⟩) fun listed => same ▸ listed
      · rw [Function.update_of_ne same] at member
        exact .inr member
    intro b c y member member'
    rcases either member with ⟨rfl, rfl⟩ | listed
    · rcases either member' with ⟨-, rfl⟩ | listed'
      · rfl
      · exact absurd listed' (loose c)
    · rcases either member' with ⟨rfl, rfl⟩ | listed'
      · exact absurd listed (loose b)
      · exact forest.unique listed listed'
  acyclic := forest.acyclic_update apart fun y member => by
    rwa [List.perm_middle.mem_iff, List.take_append_drop, List.mem_cons] at member

/-- The list that a block was taken out of. -/
theorem children_eraseAt {front back : List Nat} (list : forest.children a = front ++ x :: back)
    : (forest.eraseAt a front.length).children a = front ++ back := by
  have updated
      : (forest.eraseAt a front.length).children a
        = (forest.children a).eraseIdx front.length :=
    Function.update_self ..
  rw [updated, list, List.eraseIdx_append_of_length_le (Nat.le_refl _), Nat.sub_self,
    List.eraseIdx_cons_zero]

/-- A loose block may take the place of a listed one. -/
theorem exists_replaced (forest : Forest) {front back : List Nat} (loose : forest.Loose y)
    (apart : ¬ forest.Below y a) (list : forest.children a = front ++ x :: back)
    : ∃ forest' : Forest,
        forest'.children = Function.update forest.children a (front ++ y :: back) := by
  have fewer (b : Nat) : (forest.eraseAt a front.length).children b ⊆ forest.children b := by
    by_cases here : b = a
    · rw [here, children_eraseAt list, list]
      exact fun z member => List.perm_middle.mem_iff.mpr (List.mem_cons_of_mem x member)
    · have same : (forest.eraseAt a front.length).children b = forest.children b :=
        Function.update_of_ne here ..
      exact same ▸ fun z member => member
  have loose' : (forest.eraseAt a front.length).Loose y := fun b listed => loose b (fewer b listed)
  have apart' : ¬ (forest.eraseAt a front.length).Below y a := fun below =>
    apart (Relation.ReflTransGen.mono (fun b c listed => fewer b listed) _ _ below)
  refine ⟨(forest.eraseAt a front.length).insertAt a front.length y loose' apart', ?_⟩
  funext b
  by_cases here : b = a
  · have updated := Function.update_self a
      (((forest.eraseAt a front.length).children a).take front.length
        ++ y :: ((forest.eraseAt a front.length).children a).drop front.length)
      (forest.eraseAt a front.length).children
    rw [here, Function.update_self]
    refine updated.trans ?_
    rw [children_eraseAt list, List.take_left, List.drop_left]
  · rw [Function.update_of_ne here]
    exact (Function.update_of_ne here ..).trans (Function.update_of_ne here ..)

end Changes

end Forest

end Cvos.Lib

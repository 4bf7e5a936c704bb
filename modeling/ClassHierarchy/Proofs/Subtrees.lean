import ClassHierarchy.Proofs.Ancestry
import ClassHierarchy.Proofs.Descent

/-!
# Subtrees

The walk over the subtypes of a type remembers nothing of what it has listed. It is right all the
same, because parents make a tree of whatever lies below a type that is not on a cycle: what lies
below is not on a cycle either, and it is reached along one path only. Cycles elsewhere, also above
the type, do no harm.

* `mapM_allSubclasses`: walks from several types, one after the other.
* `preorder?_eq_none`: a walk that comes to a cycle is never done, so that `Fault.endless` is reported
  just where it should be (`allSubclasses_eq_endless_iff`).
* `ListsSubtypes`: what the walk lists. It is the type, followed by what the walks from its subclasses
  list.
-/

namespace ClassHierarchy

namespace Hierarchy

variable {h : Hierarchy} {p : Program} {t : TypeName} {ts l : List TypeName} {n : Nat}

/-- A walk lists no more types than it may. -/
theorem length_le_of_preorder? (hl : h.preorder? n ts = some l) : l.length ≤ n := by
  fun_induction preorder? h n ts generalizing l with
  | case1 =>
    obtain rfl := Option.some.inj hl
    exact Nat.zero_le _
  | case2 => cases hl
  | case3 n t stack ih =>
    rcases Option.map_eq_some_iff.mp hl with ⟨rest, hrest, rfl⟩
    have hlength := ih hrest
    rw [List.length_cons]
    omega

section Represents

variable (hr : h.Represents p)
include hr

/-- The walks from several types list the pre-order below them. -/
theorem mapM_allSubclasses (hoff : ∀ t ∈ ts, ¬ OnCycle p.parent? t) :
    ∃ trees, ts.mapM h.allSubclasses = .ok trees ∧ PreOrder p ts trees.flatten := by
  induction ts with
  | nil => exact ⟨[], rfl, .nil⟩
  | cons t ts ih =>
    rcases allSubclasses_eq hr (hoff t List.mem_cons_self) with ⟨tree, htree, horder⟩
    rcases ih fun u hu => hoff u (List.mem_cons_of_mem t hu) with ⟨trees, htrees, horders⟩
    refine ⟨tree :: trees, ?_, horder.append horders⟩
    rw [List.mapM_cons, htree, htrees]
    rfl

/-- The walk from a type goes on with the walks from its subclasses. -/
theorem allSubclasses_eq_bind (hoff : ¬ OnCycle p.parent? t) : h.allSubclasses t = do
    let below ← (h.subclasses t).mapM h.allSubclasses
    return t :: below.flatten := by
  have hbelow : ∀ c ∈ h.subclasses t, ¬ OnCycle p.parent? c := by
    intro c hc hcycle
    rw [hr.subclasses, Program.mem_children] at hc
    exact hoff (hcycle.forward hc)
  rcases mapM_allSubclasses hr hbelow with ⟨trees, htrees, horder⟩
  rw [hr.subclasses] at horder
  have hl : PreOrder p [t] (t :: trees.flatten) := by
    have hcons := PreOrder.cons horder .nil
    rwa [List.append_nil] at hcons
  rw [allSubclasses_of_preOrder hr hl hoff, htrees]
  rfl

/-! ## Walks that never end -/

/-- A walk over a type on a cycle is never done: the cycle comes back to the type through one of its
subclasses, which so is on the cycle too and goes on the stack. -/
theorem preorder?_eq_none (ht : t ∈ ts) (hcycle : OnCycle p.parent? t) (n : Nat) :
    h.preorder? n ts = none := by
  induction n generalizing t ts with
  | zero =>
    rcases List.exists_cons_of_ne_nil (List.ne_nil_of_mem ht) with ⟨u, rest, rfl⟩
    rw [preorder?]
  | succ n ih =>
    rcases List.exists_cons_of_ne_nil (List.ne_nil_of_mem ht) with ⟨u, rest, rfl⟩
    suffices hnext : ∃ v ∈ h.subclasses u ++ rest, OnCycle p.parent? v by
      rcases hnext with ⟨v, hv, hcycle⟩
      rw [preorder?, ih hv hcycle, Option.map_none]
    rcases List.mem_cons.mp ht with rfl | hrest
    · rcases Relation.TransGen.tail'_iff.mp hcycle with ⟨c, htc, hct⟩
      have hc : c ∈ h.subclasses t := by
        rw [hr.subclasses]
        exact Program.mem_children.mpr hct
      exact ⟨c, List.mem_append_left rest hc, hcycle.of_reaches htc⟩
    · exact ⟨t, List.mem_append_right _ hrest, hcycle⟩

/-- Just the walks that never end are reported. -/
theorem allSubclasses_eq_endless_iff :
    h.allSubclasses t = .error (.endless t) ↔ OnCycle p.parent? t := by
  constructor
  · intro hendless
    by_contra hoff
    rcases allSubclasses_eq hr hoff with ⟨l, hl, -⟩
    rw [hl] at hendless
    cases hendless
  · intro hcycle
    rw [allSubclasses, preorder?_eq_none hr (List.mem_singleton_self t) hcycle]

end Represents

/-! ## What a walk lists -/

/-- The walk from a type comes to an end with this list, which has each subtype once. -/
structure ListsSubtypes (h : Hierarchy) (p : Program) (t : TypeName) (types : List TypeName) :
    Prop where
  allSubclasses : h.allSubclasses t = .ok types
  /-- The stack is empty after as many steps as there are types in the list, and not before. -/
  steps : ∀ n, h.preorder? n [t] = some types ↔ types.length ≤ n
  /-- The type comes first, and then come the walks from its subclasses in declaration order. -/
  recursion : h.allSubclasses t = do
    let below ← (h.subclasses t).mapM h.allSubclasses
    return t :: below.flatten
  mem_iff : ∀ u, u ∈ types ↔ Reaches p.parent? u t
  nodup : types.Nodup
  head : types.head? = some t
  properSubclasses : h.properSubclasses t = .ok types.tail
  not_mem_tail : t ∉ types.tail
  /-- The walks from all these types come to an end. -/
  off_cycle : ∀ u ∈ types, ¬ OnCycle p.parent? u

/-- From a type that is not on a cycle the walk lists the tree below it in pre-order. -/
theorem subtypes_listed_in_preorder (p : Program) (options : Options) (t : TypeName)
    (hoff : ¬ OnCycle p.parent? t) : ∃ types, ListsSubtypes (build p options) p t types := by
  have hr := represents_build p options
  rcases allSubclasses_eq hr hoff with ⟨types, htypes, horder⟩
  have hnodup := horder.nodup hoff
  have hmem : ∀ u, u ∈ types ↔ Reaches p.parent? u t := fun u => horder.mem_singleton_iff
  rcases horder.of_cons with ⟨rest, rfl, -⟩
  exact ⟨t :: rest, {
    allSubclasses := htypes
    steps := fun n => ⟨length_le_of_preorder?, preorder?_eq hr horder⟩
    recursion := allSubclasses_eq_bind hr hoff
    mem_iff := hmem
    nodup := hnodup
    head := rfl
    properSubclasses := by
      rw [properSubclasses, htypes]
      rfl
    not_mem_tail := (List.nodup_cons.mp hnodup).1
    off_cycle := fun u hu hcycle => hoff (hcycle.of_reaches ((hmem u).mp hu)) }⟩

end Hierarchy

/-! ## An example -/

namespace Shapes

open Hierarchy

def square : TypeName := ⟨"Square"⟩

/-- A blob is its own parent, and shapes are blobs, so the chain above a shape never ends. -/
def hanging : Program where
  classes := [
    { name := ring, parent := some disk },
    { name := disk, parent := some shape },
    { name := shape, parent := some blob },
    { name := square, parent := some shape },
    { name := blob, parent := some blob }]

/-- The types hang below a blob that is its own ancestor. The walk down from the blob never ends,
and the one from a shape does not come to the cycle. -/
theorem subtypes_listed_in_preorder_hanging :
    OnCycle hanging.parent? blob ∧ Reaches hanging.parent? shape blob
    ∧ (build hanging).allSubclasses blob = .error (.endless blob)
    ∧ ¬ OnCycle hanging.parent? shape
    ∧ (build hanging).allSubclasses shape = .ok [shape, disk, ring, square]
    ∧ ∃ types, ListsSubtypes (build hanging) hanging shape types := by
  have honly : ∀ u, Reaches hanging.parent? blob u → u = blob := by
    intro u hu
    induction hu with
    | refl => rfl
    | tail _ hlink ih =>
      subst ih
      exact (Option.some.inj hlink).symm
  have hoff : ¬ OnCycle hanging.parent? shape := by
    intro hcycle
    rcases Relation.TransGen.head'_iff.mp hcycle with ⟨u, hu, hback⟩
    obtain rfl : blob = u := Option.some.inj hu
    exact absurd (honly shape hback) (by decide)
  exact ⟨.single rfl, .single rfl, rfl, hoff, rfl,
    subtypes_listed_in_preorder hanging {} shape hoff⟩

end Shapes

end ClassHierarchy

import ClassHierarchy.Hierarchy.Basic
import ClassHierarchy.Proofs.Construction
import Mathlib.Algebra.GroupWithZero.Nat

/-!
# How many definitions and links

A hierarchy keeps its links in maps, and its counts are the sizes of these. `Program.counts` tells
the same numbers from the definitions that count: a definition brings one link to its parent, if it
has one, and a link for every interface that it lists.

* `tallies_add`: what one more definition does to the sizes of the maps.
* `counts_build`: the counts of a hierarchy that was built.
-/

namespace ClassHierarchy

namespace Program

/-- How many interfaces are listed, repetitions included, by the definitions that pass a test. -/
def listings (p : Program) (test : ClassDef → Bool) : Nat :=
  ((p.firstDefinitions.filter test).map (·.interfaces.length)).sum

/-- The size of a program's hierarchy. -/
def counts (p : Program) (options : Options) : Counts where
  classes := p.firstDefinitions.length
  interfaces := p.firstDefinitions.countP ClassDef.isInterface
  roots := p.firstDefinitions.countP (·.parent.isNone)
  inheritance := p.firstDefinitions.countP (·.parent.isSome)
  implementation := p.listings fun c => !c.isExtending options
  extension := p.listings fun c => c.isExtending options

variable {cs : List ClassDef} {c : ClassDef}

/-- A new type brings the interfaces that it lists. -/
theorem listings_of_first (hnew : c.name ∉ cs.map ClassDef.name) (test : ClassDef → Bool) :
    listings ⟨cs ++ [c]⟩ test
      = listings ⟨cs⟩ test + if test c then c.interfaces.length else 0 := by
  rw [listings, firstDefinitions_of_first hnew, List.filter_append, List.map_append,
    List.sum_append, ← listings]
  cases htest : test c <;> simp [htest]

end Program

namespace Hierarchy

variable {h : Hierarchy} {cs : List ClassDef} {c : ClassDef}

/-! ## Reading one definition -/

section First

variable (hnew : h.definition? c.name = none)
include hnew

/-- A first definition adds a link to its parent; the type had none before. -/
theorem size_parents_add (horphan : h.superclass? c.name = none) :
    (h.add c).parents.size = h.parents.size + if c.parent.isSome then 1 else 0 := by
  have habsent : h.parents.contains c.name = false := by
    rw [Std.TreeMap.contains_eq_isSome_getElem?]
    have hnone : h.parents[c.name]? = none := horphan
    rw [hnone, Option.isSome_none]
  simp only [add, not_contains_of_new hnew, Bool.false_eq_true, if_false]
  cases c.parent with
  | none => simp
  | some parent => simp [Std.TreeMap.size_insert, habsent]

/-- A definition that does not extend is linked once for every interface that it lists. -/
theorem size_implementors_add :
    (h.add c).implementors.size
      = h.implementors.size + if !c.isExtending h.options then c.interfaces.length else 0 := by
  simp only [add, not_contains_of_new hnew, Bool.false_eq_true, if_false]
  cases c.isExtending h.options <;> simp [Links.size_addAll]

/-- A definition that extends is linked once for every interface that it lists. -/
theorem size_extensions_add :
    (h.add c).extensions.size
      = h.extensions.size + if c.isExtending h.options then c.interfaces.length else 0 := by
  simp only [add, not_contains_of_new hnew, Bool.false_eq_true, if_false]
  cases c.isExtending h.options <;> simp [Links.size_addAll]

end First

/-! ## Reading all definitions -/

/-- The sizes of the maps are the numbers of links that the definitions bring. -/
structure Tallies (h : Hierarchy) (p : Program) : Prop where
  parents : h.parents.size = p.firstDefinitions.countP (·.parent.isSome)
  implementors : h.implementors.size = p.listings fun c => !c.isExtending h.options
  extensions : h.extensions.size = p.listings fun c => c.isExtending h.options

theorem tallies_empty (options : Options) : Tallies { options } ⟨[]⟩ :=
  ⟨rfl, rfl, rfl⟩

/-- One more definition keeps the tallies: a first one adds its links to them, and a later one adds
nothing. -/
theorem tallies_add (hr : h.Represents ⟨cs⟩) (ht : h.Tallies ⟨cs⟩) (c : ClassDef) :
    (h.add c).Tallies ⟨cs ++ [c]⟩ := by
  by_cases hold : c.name ∈ cs.map ClassDef.name
  · -- a later definition brings no link
    have hfound : ((Program.mk cs).find? c.name).isSome := Program.find?_isSome_iff.mpr hold
    have hlistings : ∀ test, Program.listings ⟨cs ++ [c]⟩ test = Program.listings ⟨cs⟩ test := by
      intro test
      rw [Program.listings, Program.firstDefinitions_of_later hold, ← Program.listings]
    rw [add_of_defined (by rwa [hr.definition?])]
    constructor
    · rw [Program.firstDefinitions_of_later hold]
      exact ht.parents
    · rw [hlistings]
      exact ht.implementors
    · rw [hlistings]
      exact ht.extensions
  · have hmissing : Program.find? ⟨cs⟩ c.name = none := Program.find?_eq_none_iff.mpr hold
    have hnew : h.definition? c.name = none := by rw [hr.definition?, hmissing]
    have horphan : h.superclass? c.name = none := by
      rw [hr.superclass?, Program.parent?, hmissing]
      rfl
    constructor
    · rw [size_parents_add hnew horphan, ht.parents, Program.firstDefinitions_of_first hold,
        List.countP_append, List.countP_singleton]
    · rw [size_implementors_add hnew, ht.implementors, options_add hnew,
        Program.listings_of_first hold]
    · rw [size_extensions_add hnew, ht.extensions, options_add hnew,
        Program.listings_of_first hold]

theorem tallies_foldl (hr : h.Represents ⟨cs⟩) (ht : h.Tallies ⟨cs⟩) (ds : List ClassDef) :
    (ds.foldl add h).Tallies ⟨cs ++ ds⟩ := by
  induction ds generalizing h cs with
  | nil => simpa using ht
  | cons d ds ih =>
    have hrest := ih (represents_add hr d) (tallies_add hr ht d)
    rwa [List.append_assoc, List.singleton_append] at hrest

/-- The links of a built hierarchy tally with its program. -/
theorem tallies_build (p : Program) (options : Options) : (build p options).Tallies p :=
  tallies_foldl (represents_empty options) (tallies_empty options) p.classes

/-- The counts of a hierarchy are told by the first definitions of its program. -/
theorem counts_build (p : Program) (options : Options) :
    (build p options).counts = p.counts options := by
  have hr := represents_build p options
  have ht := tallies_build p options
  have himplementors := ht.implementors
  have hextensions := ht.extensions
  rw [options_build] at himplementors hextensions
  rw [counts, Program.counts, hr.size_eq, roots, hr.classes, ht.parents, himplementors, hextensions,
    ← List.countP_eq_length_filter]

end Hierarchy

end ClassHierarchy

import ClassHierarchy.Proofs.Inheritance
import ClassHierarchy.Proofs.OpenReceivers

/-!
# Targets seen from above and from below

The targets below a type are collected by one climb from each of its subtypes, and a climb may leave
the subtypes at their top. Seen from above there are no climbs: a method is a target because some
subtype declares it, or because the type has it from its parent.

* `lookupAbove_eq_some_iff`: what a type has from its parent.
* `mem_meanings_iff`: the two views have the same methods. What a climb finds is declared at or below
  the type, or the type has it too; so at most one method comes from outside, and it comes only where
  the type declares none itself.
* `dispatch_views_agree`: the same for the queries, whatever an honest memo remembers. A super call
  has the targets below the parent.
-/

namespace ClassHierarchy.Hierarchy

variable {h : Hierarchy} {p : Program} {s : Signature} {m : Method} {t : TypeName}

/-- A method that a subtype declares, or that the type has from its parent and does not declare
itself. -/
def Contributes (h : Hierarchy) (s : Signature) (t : TypeName) (types : List TypeName)
    (above : Option Method) (m : Method) : Prop :=
  (∃ u ∈ types, h.declared u s = .ok (some m)) ∨ (h.declared t s = .ok none ∧ above = some m)

section Acyclic

variable (hr : h.Represents p) (hacyclic : p.Acyclic) (hreceivers : p.HasReceivers)
include hr hacyclic hreceivers

/-- What a type has from its parent is what the parent inherits or declares. -/
theorem lookupAbove_eq_some_iff : h.lookupAbove t s = .ok (some m)
    ↔ ∃ u, p.parent? t = some u ∧ ∃ a, p.Inherits s m u a := by
  rw [lookupAbove, hr.superclass?]
  cases p.parent? t with
  | none => simp
  | some u => simp [lookup_eq_some_iff hr hacyclic hreceivers]

/-- What the climbs from the subtypes find is what they declare, and what the type has from its
parent. -/
theorem mem_meanings_iff {types : List TypeName} {runs : TypeName → Option Method}
    (hbelow : PreOrder p [t] types) (hruns : ∀ u, h.lookup u s = .ok (runs u)) :
    m ∈ types.filterMap runs ↔ (∃ u ∈ types, p.declared? u s = some m)
      ∨ (p.declared? t s = none ∧ h.lookupAbove t s = .ok (some m)) := by
  have hruns_iff : ∀ u, runs u = some m ↔ ∃ a, p.Inherits s m u a := by
    intro u
    rw [← lookup_eq_some_iff hr hacyclic hreceivers, hruns, Except.ok.injEq]
  rw [List.mem_filterMap, lookupAbove_eq_some_iff hr hacyclic hreceivers]
  simp only [hruns_iff, hbelow.mem_singleton_iff, Program.exists_inherits_below_iff hacyclic]
  cases hown : p.declared? t s with
  | none => simp [Program.inherits_iff_of_not_declared hown]
  | some n =>
    -- what the top declares is declared below it, so nothing comes from outside
    rw [Program.inherits_iff_of_declared hown]
    refine ⟨?_, fun hright => hright.imp_right fun houtside => nomatch houtside.1⟩
    rintro (hbelow | rfl)
    · exact .inl hbelow
    · exact .inl ⟨t, .refl, hown⟩

omit hreceivers in
/-- The climbs from the subtypes are made one after the other, and none disturbs the next. -/
theorem anyTarget_means_ofList {kind : InvokeKind} {types : List TypeName}
    {runs : TypeName → Option Method} (hruns : ∀ u, h.lookup u s = .ok (runs u))
    (htypes : h.allSubclasses (h.enumerationStart kind t) = .ok types) :
    h.Means (h.anyTarget kind s t) (.ok (.ofList (types.filterMap runs))) := by
  rw [← targetsBelow_eq hruns htypes]
  exact anyTarget_means hr hacyclic kind s t

end Acyclic

/-! ## Queries -/

/-- The targets below a type are told by what its subtypes declare and by what it has from its
parent. -/
structure SeenFromAbove (h : Hierarchy) (s : Signature) (t : TypeName) (targets : Targets)
    (types : List TypeName) (above : Option Method) : Prop where
  anyTarget : h.Means (h.anyTarget .virtual s t) (.ok targets)
  allSubclasses : h.allSubclasses t = .ok types
  resolveSuper : h.Means (h.resolveSuper t s) (.ok above)
  /-- A method is a member, whatever its modifiers, if it is one of these. -/
  contains_iff : ∀ m, targets.contains m ↔ ∃ n, h.Contributes s t types above n ∧ n.id = m.id
  /-- What is listed is one of these with its modifiers. -/
  listed : ∀ m ∈ targets.toList, h.Contributes s t types above m
  /-- And each of these is listed, up to its modifiers. -/
  complete : ∀ n, h.Contributes s t types above n → ∃ m ∈ targets.toList, m.id = n.id

/-- Whatever the climbs from its subtypes come to, the targets below a type are what the subtypes
declare, and one inherited method at most. A super call has the targets below the parent, in the same
order. -/
theorem dispatch_views_agree (p : Program) (options : Options) (hacyclic : p.Acyclic)
    (hreceivers : p.HasReceivers) (t : TypeName) (s : Signature) :
    let h := build p options
    (∃ targets types above, h.SeenFromAbove s t targets types above)
    ∧ ∃ targets, h.Means (h.anyTarget .super s t) (.ok targets)
      ∧ h.Means (h.anyTarget .virtual s ((h.superclass? t).getD t)) (.ok targets) := by
  intro h
  have hr : h.Represents p := represents_build p options
  rcases exists_lookup hr hacyclic hreceivers s with ⟨runs, hruns⟩
  constructor
  · rcases allSubclasses_eq hr (hacyclic t) with ⟨types, htypes, horder⟩
    have habove : ∃ above, h.lookupAbove t s = .ok above := by
      rw [lookupAbove]
      cases h.superclass? t with
      | none => exact ⟨none, rfl⟩
      | some u => exact ⟨runs u, hruns u⟩
    rcases habove with ⟨above, habove⟩
    have hsuper : h.Means (h.resolveSuper t s) (.ok above) := by
      rw [← habove]
      exact resolveSuper_means hr hacyclic t s
    have hmem : ∀ m, m ∈ types.filterMap runs ↔ h.Contributes s t types above m := by
      intro m
      rw [mem_meanings_iff hr hacyclic hreceivers horder hruns, habove]
      simp [Contributes, declared_eq hr hreceivers]
    refine ⟨.ofList (types.filterMap runs), types, above,
      anyTarget_means_ofList hr hacyclic hruns htypes, htypes, hsuper, ?_, ?_, ?_⟩
    · intro m
      rw [Targets.contains_ofList, List.mem_map]
      simp only [hmem]
    · -- the targets are the first of these methods by identity
      intro m hm
      rw [Targets.toList_ofList] at hm
      exact (hmem m).mp ((firstsBy_sublist _ _).subset hm)
    · intro n hn
      rw [Targets.toList_ofList, ← List.mem_map, mem_map_firstsBy]
      exact List.mem_map_of_mem ((hmem n).mpr hn)
  · rcases allSubclasses_eq hr (hacyclic (h.enumerationStart .super t)) with ⟨types, htypes, -⟩
    exact ⟨_, anyTarget_means_ofList hr hacyclic hruns htypes,
      anyTarget_means_ofList hr hacyclic hruns htypes⟩

section Example

open Shapes

/-- Below a disk there is the area of a ring, and the area that a disk has from a shape. -/
theorem dispatch_views_agree_shapes :
    program.Acyclic ∧ program.HasReceivers
    ∧ (((build program).anyTarget .virtual area disk).outcome ∅).1.map Targets.toList
        = .ok [.declaredBy shape area, .declaredBy ring area]
    ∧ (((build program).anyTarget .super area disk).outcome ∅).1.map Targets.toList
        = .ok [.declaredBy shape area, .declaredBy ring area, .declaredBy blob area]
    ∧ (∃ targets types above, (build program).SeenFromAbove area disk targets types above)
    ∧ ∃ targets, (build program).Means ((build program).anyTarget .super area disk) (.ok targets)
      ∧ (build program).Means ((build program).anyTarget .virtual area shape) (.ok targets) := by
  have hacyclic : program.Acyclic := acyclic_programWith _
  have hreceivers : program.HasReceivers := by decide
  exact ⟨hacyclic, hreceivers, rfl, rfl,
    dispatch_views_agree program {} hacyclic hreceivers disk area⟩

end Example

end ClassHierarchy.Hierarchy

import ClassHierarchy.CallTarget
import ClassHierarchy.Hierarchy.Implementors
import ClassHierarchy.Proofs.Ancestry
import ClassHierarchy.Proofs.Computations
import ClassHierarchy.Proofs.Descent

/-!
# The faults of a hierarchy without cycles

A query meets a fault where it reads the explicit parameters of a method without a receiver, and
where its walk never ends. In a hierarchy without cycles every walk ends, so the first kind is all
that is left, and the fault names a method that some class of the program lists.

* `climb_failsOnly`: what is known beforehand, right or wrong, brings no other fault.
* `dispatch_safe`, `callTarget_safe`: nor does what the memo of a query holds.
* `implementationsOf_failsOnly`: the search for implementors ends even where parents form a cycle.
-/

namespace ClassHierarchy

/-- The fault is for a listed method that has no receiver. -/
def Program.IsReceiverFault (p : Program) (fault : Fault) : Prop :=
  ∃ c ∈ p.classes, ∃ m ∈ c.methods, m.params = [] ∧ fault = .noReceiver m.owner m.name

variable {p : Program} {c : ClassDef} {s : Signature}

/-- Where all methods have receivers there is no fault for the lack of one. -/
theorem Program.HasReceivers.not_fault (hreceivers : p.HasReceivers) (fault : Fault) :
    ¬ p.IsReceiverFault fault := by
  rintro ⟨c, hc, m, hm, hparams, -⟩
  exact hreceivers c hc m hm hparams

/-! ## Definitions -/

/-- A method fails to answer only for the lack of a receiver. -/
theorem answers_failsOnly {m : Method} (hc : c ∈ p.classes) (hm : m ∈ c.methods) :
    FailsOnly p.IsReceiverFault (m.answers s) := by
  unfold Method.answers Method.explicitParams
  split
  · cases hparams : m.params with
    | nil => exact failsOnly_error ⟨c, hc, m, hm, hparams, rfl⟩
    | cons receiver explicit => exact failsOnly_ok _
  · exact failsOnly_ok _

theorem findMethod_failsOnly (hc : c ∈ p.classes) :
    FailsOnly p.IsReceiverFault (c.findMethod s) := by
  suffices hall : ∀ ms ⊆ c.methods, FailsOnly p.IsReceiverFault (ms.findM? (·.answers s)) from
    hall c.methods (List.Subset.refl _)
  intro ms hms
  induction ms with
  | nil => exact failsOnly_ok none
  | cons m ms ih =>
    obtain ⟨hm, hms⟩ := List.cons_subset.mp hms
    refine failsOnly_bind (answers_failsOnly hc hm) fun answers => ?_
    cases answers with
    | true => exact failsOnly_ok (some m)
    | false => exact ih hms

theorem methodsAnswering_failsOnly (hc : c ∈ p.classes) :
    FailsOnly p.IsReceiverFault (c.methodsAnswering s) := by
  suffices hall : ∀ ms ⊆ c.methods, ∀ found,
      FailsOnly p.IsReceiverFault (ms.filterAuxM (·.answers s) found) from
    failsOnly_bind (hall c.methods (List.Subset.refl _) []) fun ms => failsOnly_ok ms.reverse
  intro ms hms
  induction ms with
  | nil => exact fun found => failsOnly_ok found
  | cons m ms ih =>
    intro found
    obtain ⟨hm, hms⟩ := List.cons_subset.mp hms
    exact failsOnly_bind (answers_failsOnly hc hm) fun answers => ih hms _

namespace Hierarchy

variable {h : Hierarchy} {t : TypeName}

section Represents

variable (hr : h.Represents p)
include hr

/-- What the hierarchy has as a definition is one of the program. -/
theorem Represents.mem_classes (hdefined : h.definition? t = some c) : c ∈ p.classes := by
  rw [hr.definition?, Program.find?_eq_some_iff] at hdefined
  exact Program.mem_classes_of_mem_firstDefinitions hdefined.1

/-- A type is scanned without a fault but for the lack of a receiver. -/
theorem declared_failsOnly (t : TypeName) (s : Signature) :
    FailsOnly p.IsReceiverFault (h.declared t s) := by
  unfold declared
  cases hdefined : h.definition? t with
  | some c => exact findMethod_failsOnly (hr.mem_classes hdefined)
  | none => exact failsOnly_ok none

/-- A search through implementors fails only for the lack of a receiver. -/
theorem implementationsOf_failsOnly (t : TypeName) (s : Signature) :
    FailsOnly p.IsReceiverFault (h.implementationsOf t s) := by
  refine failsOnly_map (failsOnly_mapM fun u _ => ?_) List.flatten
  unfold declaredAll
  cases hdefined : h.definition? u with
  | some c => exact methodsAnswering_failsOnly (hr.mem_classes hdefined)
  | none => exact failsOnly_ok []

end Represents

/-! ## Queries -/

/-- Whatever the memo, the query answers or meets a fault for a method without a receiver. -/
abbrev Safe {α : Type} (p : Program) (q : Query α) : Prop :=
  Ensures (fun _ => True) (FailsOnly p.IsReceiverFault) q

theorem safe_ofExcept {α : Type} {e : Except Fault α} (he : FailsOnly p.IsReceiverFault e) :
    Safe p (.ofExcept e) := by
  intro memo _
  exact ⟨he, trivial⟩

section Acyclic

variable (hr : h.Represents p) (hacyclic : p.Acyclic)
include hr hacyclic

/-- Whatever is known already, a climb fails only for the lack of a receiver: it never climbs for
ever. -/
theorem climb_failsOnly (s : Signature) (known : TypeName → Option (Option Method))
    (t : TypeName) : FailsOnly p.IsReceiverFault (h.climb s known t).outcome := by
  apply climb_induction (motive := fun _ c => FailsOnly p.IsReceiverFault c.outcome) hr
    (hr.ends hacyclic t)
  case recalled =>
    intro u answer _
    exact failsOnly_ok answer
  case fault =>
    intro u fault _ hdeclared
    exact hdeclared ▸ declared_failsOnly hr u s
  case found =>
    intro u m _ _
    exact failsOnly_ok (some m)
  case root =>
    intro u _ _ _
    exact failsOnly_ok none
  case parent =>
    intro u v _ _ _ _ ih
    exact ih

/-- Without cycles a walk down comes to its end. -/
theorem allSubclasses_failsOnly (t : TypeName) :
    FailsOnly p.IsReceiverFault (h.allSubclasses t) := by
  obtain ⟨types, htypes, -⟩ := allSubclasses_eq hr (hacyclic t)
  rw [htypes]
  exact failsOnly_ok types

/-- Whatever its memo holds, a resolution fails only for the lack of a receiver. -/
theorem resolve_safe (t : TypeName) (s : Signature) : Safe p (h.resolve t s) := by
  refine Query.ensures_iff.mpr fun memo _ => ⟨?_, trivial⟩
  cases hmemoize : h.options.memoize with
  | true =>
    rw [outcome_resolve hmemoize]
    exact climb_failsOnly hr hacyclic s _ t
  | false =>
    rw [outcome_resolve_unmemoized hmemoize]
    exact climb_failsOnly hr hacyclic s _ t

theorem resolveSuper_safe (t : TypeName) (s : Signature) : Safe p (h.resolveSuper t s) := by
  unfold resolveSuper
  cases h.superclass? t with
  | some parent => exact resolve_safe hr hacyclic parent s
  | none => exact ensures_pure (failsOnly_ok none)

/-- An enumeration fails only where one of its resolutions does. -/
theorem anyTarget_safe (kind : InvokeKind) (s : Signature) (t : TypeName) :
    Safe p (h.anyTarget kind s t) := by
  have htypes := allSubclasses_failsOnly hr hacyclic (h.enumerationStart kind t)
  refine ensures_bind_failsOnly (safe_ofExcept htypes) fun types => ?_
  refine ensures_bind_failsOnly ?_ fun found => ensures_pure (failsOnly_ok _)
  exact ensures_mapM_failsOnly (fun u => resolve_safe hr hacyclic u s) types

/-- A dispatch fails only for the lack of a receiver, whatever its policy. -/
theorem dispatch_safe (site : CallSite) : Safe p (h.dispatch site) := by
  unfold dispatch
  cases site.policy with
  | above declaring => exact ensures_map_failsOnly (resolveSuper_safe hr hacyclic _ _)
  | exact receiver => exact ensures_map_failsOnly (resolve_safe hr hacyclic _ _)
  | below bound => exact anyTarget_safe hr hacyclic _ _ _

theorem isPolymorphic_safe (site : CallSite) : Safe p (h.isPolymorphic site) :=
  ensures_map_failsOnly (dispatch_safe hr hacyclic site)

theorem callTarget_safe (site : CallSite) : Safe p (h.callTarget site) :=
  ensures_map_failsOnly (dispatch_safe hr hacyclic site)

end Acyclic

end Hierarchy

end ClassHierarchy

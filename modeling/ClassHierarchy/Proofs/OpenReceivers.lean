import ClassHierarchy.Proofs.Faults
import ClassHierarchy.Proofs.Meaning
import Mathlib.Data.List.Induction

/-!
# Receivers of unknown type

A receiver that is a parameter or a caught exception is known by its static type only. At run time it
is an instance of some subtype, and what a call runs on such an instance is what dispatch says of a
fresh one. The targets of the call are these methods and no others.

* `toList_ofList`, `contains_ofList`: a target set lists the methods put into it, each where it
  occurs first.
* `dispatches_instance`: on an instance of a known type at most one method runs, wherever the call
  stands and whatever casts the receiver went through.
* `dispatches_unknown`: the targets of a call on a receiver of unknown type are what runs on
  instances of its subtypes, in pre-order. `CoversSubtypes` says this with dispatch on both sides.
-/

namespace ClassHierarchy

/-! ## Target sets -/

namespace Targets

theorem ofList_concat (ms : List Method) (m : Method) :
    ofList (ms ++ [m]) = (ofList ms).insert m := by
  rw [ofList, insertMany, List.foldl_append]
  rfl

/-- A set of targets contains what has the identity of a member. -/
theorem contains_ofList (ms : List Method) (m : Method) :
    (ofList ms).contains m ↔ m.id ∈ ms.map Method.id := by
  induction ms using List.reverseRecOn with
  | nil => simp [ofList]
  | append_singleton ms n ih =>
    rw [ofList_concat, contains_insert, Bool.or_eq_true, ih, beq_iff_eq, List.map_append,
      List.mem_append, List.map_singleton, List.mem_singleton, or_comm, eq_comm]

/-- Of several methods with one identity the first is kept. -/
theorem toList_ofList (ms : List Method) : (ofList ms).toList = firstsBy Method.id ms := by
  induction ms using List.reverseRecOn with
  | nil => rfl
  | append_singleton ms m ih =>
    rw [ofList_concat, toList_insert, firstsBy_concat, ih]
    simp only [contains_ofList]

theorem toList_ofOption (m? : Option Method) : (ofOption m?).toList = m?.toList := by
  rw [ofOption, toList_ofList]
  cases m? <;> rfl

end Targets

/-! ## Call sites -/

namespace CallSite

/-- The call is made on a fresh instance of a type, under any casts, and is no super call. -/
def OnInstance (site : CallSite) (t : TypeName) : Prop :=
  site.kind ≠ .super ∧ ∃ casts, site.receiver = (Value.allocated t).castTo casts

/-- The call is made on a parameter or a caught exception, under any casts, and is no super call. -/
def OnUnknown (site : CallSite) : Prop :=
  site.kind ≠ .super ∧ ∃ casts, (∃ i t, site.receiver = (Value.parameter i t).castTo casts)
    ∨ ∃ t, site.receiver = (Value.caught t).castTo casts

variable {site : CallSite} {t : TypeName}

/-- The type of a new instance is known, so nothing below it counts. -/
theorem OnInstance.policy_eq (hsite : site.OnInstance t) : site.policy = .exact t := by
  obtain ⟨hkind, casts, hreceiver⟩ := hsite
  simp [policy, Policy.classify, InvokeKind.isSuper, hkind, hreceiver, Value.hasUnknownType,
    Value.origin]

/-- Where the receiver is not known all subtypes of its type count. -/
theorem OnUnknown.policy_eq (hsite : site.OnUnknown) : site.policy = .below site.receiver.type := by
  obtain ⟨hkind, casts, hreceiver⟩ := hsite
  have hunknown : site.receiver.hasUnknownType = true := by
    rcases hreceiver with ⟨i, t, hreceiver⟩ | ⟨t, hreceiver⟩ <;>
      simp [hreceiver, Value.hasUnknownType, Value.origin]
  simp [policy, Policy.classify, InvokeKind.isSuper, hkind, hunknown]

end CallSite

namespace Hierarchy

/-! ## Dispatch -/

/-- The call has just these targets, in this order, whatever an honest memo remembers. -/
def Dispatches (h : Hierarchy) (site : CallSite) (ms : List Method) : Prop :=
  ∀ memo, h.Honest memo → ∃ targets, ((h.dispatch site).outcome memo).1 = .ok targets
    ∧ targets.toList = ms ∧ ∀ m, targets.contains m ↔ m.id ∈ ms.map Method.id

/-- A call site has one list of targets. -/
theorem Dispatches.unique {h : Hierarchy} {site : CallSite} {ms ns : List Method}
    (hms : h.Dispatches site ms) (hns : h.Dispatches site ns) : ms = ns := by
  obtain ⟨targets, houtcome, rfl, -⟩ := hms ∅ honest_empty
  obtain ⟨targets', houtcome', rfl, -⟩ := hns ∅ honest_empty
  rw [houtcome] at houtcome'
  cases houtcome'
  rfl

/-- The targets below a type are what lookups for its subtypes find. -/
theorem targetsBelow_eq {h : Hierarchy} {kind : InvokeKind} {s : Signature} {t : TypeName}
    {types : List TypeName} {runs : TypeName → Option Method}
    (hruns : ∀ t, h.lookup t s = .ok (runs t))
    (htypes : h.allSubclasses (h.enumerationStart kind t) = .ok types) :
    h.targetsBelow kind s t = .ok (.ofList (types.filterMap runs)) := by
  have hlookups : (fun t => h.lookup t s) = fun t => pure (runs t) := funext hruns
  have hfound : (types.map runs).filterMap id = types.filterMap runs := List.filterMap_map
  rw [← hfound]
  simp only [targetsBelow, htypes, hlookups, List.mapM_pure]
  rfl

section Acyclic

variable {h : Hierarchy} {p : Program} (hr : h.Represents p) (hacyclic : p.Acyclic)
include hr hacyclic

/-- A dispatch lists the first of its targets by identity. -/
theorem dispatches_of_targetsOf {site : CallSite} {ms : List Method}
    (htargets : h.targetsOf site = .ok (.ofList ms)) :
    h.Dispatches site (firstsBy Method.id ms) := by
  intro memo hhonest
  have hmeans := (Query.ensures_iff.mp (dispatch_means hr hacyclic site) memo hhonest).1
  refine ⟨.ofList ms, hmeans.trans htargets, Targets.toList_ofList ms, fun m => ?_⟩
  rw [Targets.contains_ofList, mem_map_firstsBy]

/-- Every signature has a meaning where all methods have a receiver. -/
theorem exists_lookup (hreceivers : p.HasReceivers) (s : Signature) :
    ∃ runs : TypeName → Option Method, ∀ t, h.lookup t s = .ok (runs t) := by
  have hlookup : ∀ t, ∃ m?, h.lookup t s = .ok m? := fun t =>
    (climb_failsOnly hr hacyclic s _ t).exists_ok hreceivers.not_fault
  exact ⟨_, fun t => (hlookup t).choose_spec⟩

variable {s : Signature} {runs : TypeName → Option Method}
  (hruns : ∀ t, h.lookup t s = .ok (runs t))
include hruns

/-- On an instance the method runs that the signature means for its type. -/
theorem dispatches_instance {site : CallSite} {t : TypeName} (hsite : site.OnInstance t)
    (hsignature : site.signature = s) : h.Dispatches site (runs t).toList := by
  have htargets : h.targetsOf site = .ok (.ofList (runs t).toList) := by
    rw [targetsOf, hsite.policy_eq, hsignature]
    simp only [hruns]
    rfl
  have hdispatches := dispatches_of_targetsOf hr hacyclic htargets
  rwa [← Targets.toList_ofList, ← Targets.ofOption, Targets.toList_ofOption] at hdispatches

/-- On a receiver of unknown type those methods may run that the signature means for a subtype. -/
theorem dispatches_unknown {site : CallSite} {types : List TypeName} (hsite : site.OnUnknown)
    (hsignature : site.signature = s) (htypes : h.allSubclasses site.receiver.type = .ok types) :
    h.Dispatches site (firstsBy Method.id (types.filterMap runs)) := by
  apply dispatches_of_targetsOf hr hacyclic
  have hstart : h.enumerationStart site.kind site.receiver.type = site.receiver.type := by
    simp [enumerationStart, InvokeKind.isSuper, hsite.1]
  rw [targetsOf, hsite.policy_eq, hsignature]
  exact targetsBelow_eq hruns (by rwa [hstart])

end Acyclic

/-! ## Exactness -/

/-- How the targets of a call on a receiver of unknown type come about: `types` are the subtypes of
the static type, and `runs` says what runs on an instance of a type. -/
structure CoversSubtypes (h : Hierarchy) (p : Program) (site : CallSite) (types : List TypeName)
    (runs : TypeName → Option Method) (targets : List Method) : Prop where
  /-- The subtypes are in pre-order, siblings as they are declared. -/
  order : PreOrder p [site.receiver.type] types
  /-- Each is the static type, or has it among its ancestors. -/
  mem_types : ∀ t, t ∈ types ↔ Reaches p.parent? t site.receiver.type
  nodup_types : types.Nodup
  /-- Calls of the same signature on an instance of a type all run one method, or none. -/
  instances : ∀ (t : TypeName) (call : CallSite), call.OnInstance t →
    call.signature = site.signature → h.Dispatches call (runs t).toList
  dispatches : h.Dispatches site targets
  /-- A target has the place of the first subtype on which it runs. -/
  targets_eq : targets = firstsBy Method.id (types.filterMap runs)
  nodup_targets : (targets.map Method.id).Nodup
  /-- The targets are what runs alone on an instance of some subtype. -/
  mem_targets : ∀ m : Method, m.id ∈ targets.map Method.id ↔
    ∃ (t : TypeName) (call : CallSite) (n : Method), Reaches p.parent? t site.receiver.type
      ∧ call.OnInstance t ∧ call.signature = site.signature ∧ h.Dispatches call [n] ∧ n.id = m.id

/-- A call on a receiver of unknown type may run just what it runs on instances of its subtypes. -/
theorem unknown_receiver_exact (p : Program) (options : Options) (hacyclic : p.Acyclic)
    (hreceivers : p.HasReceivers) (site : CallSite) (hsite : site.OnUnknown) :
    ∃ types runs targets, CoversSubtypes (build p options) p site types runs targets := by
  have hr := represents_build p options
  obtain ⟨runs, hruns⟩ := exists_lookup hr hacyclic hreceivers site.signature
  obtain ⟨types, htypes, horder⟩ := allSubclasses_eq hr (hacyclic site.receiver.type)
  have hinstances : ∀ t (call : CallSite), call.OnInstance t → call.signature = site.signature →
      (build p options).Dispatches call (runs t).toList :=
    fun t call => dispatches_instance hr hacyclic hruns
  refine ⟨types, runs, firstsBy Method.id (types.filterMap runs), {
    order := horder
    mem_types := fun t => horder.mem_singleton_iff
    nodup_types := horder.nodup (hacyclic _)
    instances := hinstances
    dispatches := dispatches_unknown hr hacyclic hruns hsite rfl htypes
    targets_eq := rfl
    nodup_targets := nodup_map_firstsBy _ _
    mem_targets := fun m => ?_ }⟩
  rw [mem_map_firstsBy, List.mem_map]
  constructor
  · rintro ⟨n, hn, hid⟩
    obtain ⟨t, ht, hrun⟩ := List.mem_filterMap.mp hn
    -- the same call, made on a fresh instance of the subtype
    let call : CallSite := { site with receiver := .allocated t }
    have hcall : call.OnInstance t := ⟨hsite.1, [], rfl⟩
    have hdispatches := hinstances t call hcall rfl
    rw [hrun] at hdispatches
    exact ⟨t, call, n, horder.mem_singleton_iff.mp ht, hcall, rfl, hdispatches, hid⟩
  · -- dispatch has one outcome, so what the call runs is what runs on the subtype
    rintro ⟨t, call, n, ht, hcall, hsignature, hdispatches, hid⟩
    have hrun : (runs t).toList = [n] := (hinstances t call hcall hsignature).unique hdispatches
    exact ⟨n, List.mem_filterMap.mpr ⟨t, horder.mem_singleton_iff.mpr ht,
      Option.toList_eq_singleton_iff.mp hrun⟩, hid⟩

section Example

open Shapes

/-- The area of a parameter that was declared to be a disk and cast to a shape. -/
def areaOfParameter : CallSite where
  location := { caller := .declaredBy shape { name := "print", result := ⟨"void"⟩, params := [] } }
  signature := area
  receiver := (Value.parameter 0 disk).cast shape

/-- Any shape may be cast to a shape, so the areas of all of them are targets. -/
theorem unknown_receiver_exact_shapes :
    program.Acyclic ∧ program.HasReceivers ∧ areaOfParameter.OnUnknown
    ∧ (((build program).dispatch areaOfParameter).outcome ∅).1.map Targets.toList
        = .ok [.declaredBy shape area, .declaredBy ring area, .declaredBy blob area]
    ∧ ∃ types runs targets,
        CoversSubtypes (build program) program areaOfParameter types runs targets := by
  have hacyclic : program.Acyclic := acyclic_programWith _
  have hreceivers : program.HasReceivers := by decide
  have hsite : areaOfParameter.OnUnknown := ⟨by decide, [shape], .inl ⟨0, disk, rfl⟩⟩
  exact ⟨hacyclic, hreceivers, hsite, rfl,
    unknown_receiver_exact program {} hacyclic hreceivers areaOfParameter hsite⟩

end Example

end Hierarchy

end ClassHierarchy

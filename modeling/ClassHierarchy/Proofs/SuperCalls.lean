import ClassHierarchy.Proofs.DispatchViews
import ClassHierarchy.Proofs.Interfaces
import ClassHierarchy.Proofs.NearestAncestor
import ClassHierarchy.Proofs.Transparency

/-!
# Super calls

A super call is bound where it stands. Its receiver, with all the casts it went through, has no say in
what runs, and what runs is declared above the class of the calling method: by the nearest proper
ancestor that lists a method with the signature.

* `policy_of_super`, `dispatch_means_super`: a super call looks above the class it stands in.
* `lookupAbove_eq_some_iff_owner`, `lookupAbove_eq_none_iff`: what a class has from above, and when it
  has nothing. What it has is declared by a proper ancestor (`above_of_lookupAbove`), the nearest that
  declares one (`nearest_of_lookupAbove`).
* `exists_anyTarget_super`: the enumeration for super calls goes down from the parent, so it comes to
  what the parent has.
* `DispatchesAbove`: all of it for the queries, with the memo that any requests have left.
-/

namespace ClassHierarchy

open Relation (TransGen)

/-! ## Where a super call looks -/

/-- A super call looks above the type that declares the caller, whatever its receiver. -/
theorem CallSite.policy_of_super {site : CallSite} (hkind : site.kind = .super) :
    site.policy = .above site.location.declaring := by
  simp [policy, Policy.classify, InvokeKind.isSuper, hkind]

namespace Targets

variable {m? : Option Method} {m : Method}

/-- A set made of one method has what has its identity. -/
theorem contains_ofOption : (ofOption m?).contains m ↔ ∃ n, m? = some n ∧ n.id = m.id := by
  rw [ofOption, contains_ofList, List.mem_map]
  simp only [Option.mem_toList]

theorem isEmpty_ofOption : (ofOption m?).isEmpty ↔ m? = none := by
  rw [isEmpty_eq, List.isEmpty_iff, toList_ofOption, Option.toList_eq_nil_iff]

theorem size_ofOption_le (m? : Option Method) : (ofOption m?).size ≤ 1 := by
  rw [size_eq_length, toList_ofOption]
  cases m? <;> simp

end Targets

namespace Hierarchy

variable {h : Hierarchy} {p : Program} {s : Signature} {m : Method} {d : TypeName}

section Acyclic

variable (hr : h.Represents p) (hacyclic : p.Acyclic)
include hr hacyclic

/-- Two super calls of one signature from one class have the same targets. -/
theorem dispatch_means_super {site : CallSite} {above : Option Method} (hkind : site.kind = .super)
    (habove : h.lookupAbove site.location.declaring site.signature = .ok above) :
    h.Means (h.dispatch site) (.ok (.ofOption above)) := by
  have hmeans := dispatch_means hr hacyclic site
  rw [targetsOf, site.policy_of_super hkind] at hmeans
  simp only [habove] at hmeans
  exact hmeans

/-- With receivers a lookup above a type has an outcome. -/
theorem exists_lookupAbove (hreceivers : p.HasReceivers) (d : TypeName) (s : Signature) :
    ∃ above, h.lookupAbove d s = .ok above := by
  rcases exists_lookup hr hacyclic hreceivers s with ⟨runs, hruns⟩
  rw [lookupAbove]
  cases h.superclass? d with
  | none => exact ⟨none, rfl⟩
  | some u => exact ⟨runs u, hruns u⟩

end Acyclic

section WellFormed

variable (hr : h.Represents p) (hwell : p.WellFormed)
include hr hwell

/-- What a class has from above, its parent has from the class that owns it. -/
theorem lookupAbove_eq_some_iff_owner : h.lookupAbove d s = .ok (some m)
    ↔ ∃ u, p.parent? d = some u ∧ p.Inherits s m u m.owner := by
  rw [lookupAbove_eq_some_iff hr hwell.parents_acyclic hwell.receivers]
  refine exists_congr fun u => and_congr_right fun _ => ?_
  rw [← lookup_eq_some_iff hr hwell.parents_acyclic hwell.receivers,
    lookup_eq_some_iff_owner hr hwell]

/-- A class has nothing from above if no proper ancestor lists a method with the signature. -/
theorem lookupAbove_eq_none_iff : h.lookupAbove d s = .ok none
    ↔ ∀ a, TransGen (Linked p.parent?) d a → ¬ h.ListsMethod a s := by
  rcases hr.ends hwell.parents_acyclic d with ⟨chain, hchain⟩
  rw [hr.superclass?_eq] at hchain
  simp only [TransGen.head'_iff, ← declared?_eq_none_iff hr]
  rw [lookupAbove, hr.superclass?]
  cases hchain with
  | last hnone => simp [Linked, hnone]
  | @link _ u rest hsome hrest =>
    simp only [Linked, hsome, lookup_eq_findSome? hr hwell.receivers hrest, Except.ok.injEq,
      List.findSome?_eq_none_iff, hrest.mem_iff]
    constructor
    · rintro hmissing a ⟨v, ⟨⟩, hreaches⟩
      exact hmissing a hreaches
    · intro hmissing a hreaches
      exact hmissing a ⟨u, rfl, hreaches⟩

/-- It is declared by a proper ancestor. -/
theorem above_of_lookupAbove (hm : h.lookupAbove d s = .ok (some m)) :
    TransGen (Linked p.parent?) d m.owner := by
  rcases (lookupAbove_eq_some_iff_owner hr hwell).mp hm with ⟨u, hparent, hinherits⟩
  exact TransGen.head' hparent hinherits.reaches

/-- No class on the way there lists a method with the signature. -/
theorem nearest_of_lookupAbove (hm : h.lookupAbove d s = .ok (some m)) {a : TypeName}
    (hda : TransGen (Linked p.parent?) d a) (ham : TransGen (Linked p.parent?) a m.owner) :
    ¬ h.ListsMethod a s := by
  rcases (lookupAbove_eq_some_iff_owner hr hwell).mp hm with ⟨u, hparent, hinherits⟩
  rcases TransGen.head'_iff.mp hda with ⟨v, hdv, hva⟩
  obtain rfl := linked_unique hparent hdv
  exact (declared?_eq_none_iff hr).mp (hinherits.not_declared_below hwell.parents_acyclic hva ham)

/-- The enumeration for super calls comes to what the class has from above. -/
theorem exists_anyTarget_super (d : TypeName) (s : Signature) :
    ∃ all, h.Means (h.anyTarget .super s d) (.ok all)
      ∧ ∀ m, h.lookupAbove d s = .ok (some m) → m ∈ all.toList ∧ all.contains m := by
  have hacyclic := hwell.parents_acyclic
  rcases exists_lookup hr hacyclic hwell.receivers s with ⟨runs, hruns⟩
  rcases allSubclasses_eq hr (hacyclic (h.enumerationStart .super d)) with ⟨types, htypes, horder⟩
  refine ⟨_, anyTarget_means_ofList hr hacyclic hruns htypes, fun m hm => ?_⟩
  rcases (lookupAbove_eq_some_iff_owner hr hwell).mp hm with ⟨u, hparent, hinherits⟩
  have hlookup : h.lookup u s = .ok (some m) := (lookup_eq_some_iff_owner hr hwell).mpr hinherits
  have hstart : h.enumerationStart .super d = u := by
    simp [enumerationStart, InvokeKind.isSuper, hr.superclass?, hparent]
  have hfound : m ∈ types.filterMap runs := by
    refine List.mem_filterMap.mpr ⟨u, ?_, Except.ok.inj ((hruns u).symm.trans hlookup)⟩
    rw [horder.mem_singleton_iff, hstart]
  have hid : m.id ∈ (types.filterMap runs).map Method.id := List.mem_map_of_mem hfound
  refine ⟨?_, (Targets.contains_ofList _ m).mpr hid⟩
  -- among what types mean by the signature, the identity tells a method
  rw [Targets.toList_ofList, ← id_mem_map_iff hr hwell hlookup ?_, mem_map_firstsBy]
  · exact hid
  · intro n hn
    rcases List.mem_filterMap.mp ((firstsBy_sublist Method.id _).subset hn) with ⟨v, -, hrun⟩
    exact ⟨v, (hruns v).trans (congrArg _ hrun)⟩

end WellFormed

/-! ## What a super call runs -/

/-- The targets of super calls of a signature from the methods of class `d`, with this memo. -/
structure DispatchesAbove (h : Hierarchy) (s : Signature) (d : TypeName) (memo : Memo)
    (targets : Targets) : Prop where
  /-- Whatever the receiver, these are the targets. -/
  dispatch : ∀ site : CallSite, site.kind = .super → site.location.declaring = d →
    site.signature = s → ((h.dispatch site).outcome memo).1 = .ok targets
  size_le_one : targets.size ≤ 1
  /-- A target is declared by a proper ancestor of the class. -/
  above : ∀ m, targets.contains m → TransGen (Linked h.superclass?) d m.owner
  /-- So it is not declared by the class or by a subclass. -/
  outside : ∃ below, h.allSubclasses d = .ok below
    ∧ ∀ m, targets.contains m → m.owner ∉ below
  /-- No class between the two lists a method with the signature. -/
  nearest : ∀ m, targets.contains m → ∀ a, TransGen (Linked h.superclass?) d a →
    TransGen (Linked h.superclass?) a m.owner → ¬ h.ListsMethod a s
  /-- The targets are among those that are enumerated for super calls. -/
  enumerated : ∃ all, ((h.anyTarget .super s d).outcome memo).1 = .ok all
    ∧ (∀ m ∈ targets.toList, m ∈ all.toList) ∧ ∀ m, targets.contains m → all.contains m
  /-- There is no target just if no proper ancestor lists a method with the signature. -/
  isEmpty_iff : targets.isEmpty
    ↔ ∀ a, TransGen (Linked h.superclass?) d a → ¬ h.ListsMethod a s
  isEmpty_of_root : h.superclass? d = none → targets.isEmpty

/-- A super call runs what the nearest proper ancestor of its class lists for the signature, and nothing
else: the receiver, and whatever was asked before, make no difference. -/
theorem super_call_runs_above (p : Program) (options : Options) (hvalid : p.validate = .ok ())
    (d : TypeName) (s : Signature) :
    ∃ targets, ∀ before : List Request, (∀ request ∈ before, request.isInquiry) →
      DispatchesAbove (build p options) s d ((Session.start p options).after before).memo targets := by
  have hwell := Program.validate_eq_ok_iff.mp hvalid
  have hacyclic := hwell.parents_acyclic
  have hr := represents_build p options
  rcases exists_lookupAbove hr hacyclic hwell.receivers d s with ⟨above, habove⟩
  rcases exists_anyTarget_super hr hwell d s with ⟨all, hall, hlisted⟩
  rcases allSubclasses_eq hr (hacyclic d) with ⟨below, hbelow, horder⟩
  -- a member is told by its identity, and with it by its owner
  have hmember : ∀ m, (Targets.ofOption above).contains m →
      ∃ n, (build p options).lookupAbove d s = .ok (some n) ∧ n.id = m.id := by
    intro m hm
    rcases Targets.contains_ofOption.mp hm with ⟨n, rfl, hid⟩
    exact ⟨n, habove, hid⟩
  have hempty : (Targets.ofOption above).isEmpty
      ↔ ∀ a, TransGen (Linked p.parent?) d a → ¬ (build p options).ListsMethod a s := by
    rw [Targets.isEmpty_ofOption, ← lookupAbove_eq_none_iff hr hwell, habove, Except.ok.injEq]
  refine ⟨.ofOption above, fun before hbefore => ?_⟩
  have hhonest := (Session.after_sound hr hacyclic (Session.sound_start p options) hbefore).2
  constructor
  case dispatch =>
    rintro site hkind rfl rfl
    exact (dispatch_means_super hr hacyclic hkind habove _ hhonest).1
  case size_le_one => exact Targets.size_ofOption_le above
  case above =>
    intro m hm
    rcases hmember m hm with ⟨n, hn, hid⟩
    rw [hr.superclass?_eq, ← hid]
    exact above_of_lookupAbove hr hwell hn
  case outside =>
    refine ⟨below, hbelow, fun m hm hmem => ?_⟩
    rcases hmember m hm with ⟨n, hn, hid⟩
    rw [← hid, horder.mem_singleton_iff] at hmem
    exact hacyclic d ((above_of_lookupAbove hr hwell hn).trans_left hmem)
  case nearest =>
    intro m hm a hda ham
    rcases hmember m hm with ⟨n, hn, hid⟩
    rw [hr.superclass?_eq] at hda ham
    exact nearest_of_lookupAbove hr hwell hn hda (hid ▸ ham)
  case enumerated =>
    refine ⟨all, (hall _ hhonest).1, fun m hm => (hlisted m ?_).1, fun m hm => ?_⟩
    · rw [Targets.toList_ofOption, Option.mem_toList] at hm
      rw [habove, hm]
    · rcases hmember m hm with ⟨n, hn, hid⟩
      have hcontains := (hlisted n hn).2
      rwa [Targets.contains, hid] at hcontains
  case isEmpty_iff =>
    rw [hr.superclass?_eq]
    exact hempty
  case isEmpty_of_root =>
    intro hroot
    rw [hempty]
    intro a hda
    rcases TransGen.head'_iff.mp hda with ⟨u, hparent, -⟩
    rw [Linked, ← hr.superclass?, hroot] at hparent
    cases hparent

section Example

open Shapes

/-- The area of a ring is computed from that of the disk it is. -/
def superArea (receiver : Value) : CallSite where
  location := { caller := .declaredBy ring area }
  kind := .super
  signature := area
  receiver := receiver

/-- A disk has its area from a shape. The call comes to it, even on a blob that was cast to a ring. -/
theorem super_call_runs_above_ring :
    let before := [.resolve ring area, .resolveSuper ring area, .consult disk area]
    let memo := ((Session.start program).after before).memo
    program.validate = .ok () ∧ (∀ request ∈ before, request.isInquiry)
    ∧ (((build program).dispatch (superArea ((Value.allocated blob).cast ring))).outcome memo).1.map
        Targets.toList = .ok [.declaredBy shape area]
    ∧ ∃ targets, DispatchesAbove (build program) area ring memo targets := by
  intro before memo
  have hvalid : program.validate = .ok () := Program.validate_of_isOk (by decide +kernel)
  have hbefore : ∀ request ∈ before, request.isInquiry := by decide
  rcases super_call_runs_above program {} hvalid ring area with ⟨targets, htargets⟩
  exact ⟨hvalid, hbefore, rfl, targets, htargets before hbefore⟩

end Example

end Hierarchy

end ClassHierarchy

import ClassHierarchy.Proofs.Counts
import ClassHierarchy.Proofs.Inheritance
import ClassHierarchy.Proofs.OpenReceivers
import ClassHierarchy.Proofs.Searches

/-!
# Declaration order

The order of the definitions decides in which order subclasses and implementors are listed, and with
it the order of every walk. In a valid program it decides nothing else. Two programs with the same
definitions in different orders have the same definition and the same parent for every type, so a
walk comes to the same types, and a signature means the same.

* `Program.wellFormed_of_perm`, `Program.find?_of_perm`: what the programs have in common.
* `Targets.same_ofList`, `CallTarget.same_ofTargets`: target sets are compared by their members, and
  so are the calls that are made of them.
* `Reordered`: two hierarchies of the same definitions. A walk lists each type once, so two walks that
  come to the same types list them in different orders at most (`Reordered.allSubclasses_perm`,
  `Reordered.allImplementations_perm`, `Reordered.implementorTypes_perm`).
* `SameContent`: what such hierarchies agree on.
-/

namespace ClassHierarchy

variable {p p' : Program} {s : Signature} {m : Method} {t u a : TypeName}

/-! ## Programs -/

namespace Program

/-- Whether a program is well formed does not depend on the order of its classes. -/
theorem wellFormed_of_perm (hperm : p.classes.Perm p'.classes) (hwell : p.WellFormed) :
    p'.WellFormed := by
  have hextends : p'.Extends = p.Extends := by
    funext t u
    simp only [Extends, hperm.mem_iff]
  constructor
  · exact (hperm.map ClassDef.name).nodup hwell.distinct
  · intro c hc
    exact hwell.receivers c (hperm.mem_iff.mpr hc)
  · intro c hc
    exact hwell.owners c (hperm.mem_iff.mpr hc)
  · rw [hextends]
    exact hwell.acyclic

section Perm

variable (hperm : p.firstDefinitions.Perm p'.firstDefinitions)
include hperm

/-- Each type has one definition, so there is no first one among several. -/
theorem find?_of_perm : p.find? = p'.find? := by
  funext t
  apply Option.ext
  intro c
  rw [find?_eq_some_iff, find?_eq_some_iff, hperm.mem_iff]

/-- So the parents are the same in both orders. -/
theorem parent?_of_perm : p.parent? = p'.parent? := by
  funext t
  rw [parent?, parent?, find?_of_perm hperm]

/-- The children of a type are the same, in the order of their definitions. -/
theorem children_of_perm (t : TypeName) : (p.children t).Perm (p'.children t) :=
  (hperm.filter _).map ClassDef.name

theorem declared?_of_perm : p.declared? = p'.declared? := by
  funext t s
  rw [declared?, declared?, find?_of_perm hperm]

theorem declaredAll_of_perm : p.declaredAll = p'.declaredAll := by
  funext t s
  rw [declaredAll, declaredAll, find?_of_perm hperm]

/-- A type inherits the same method from the same ancestor in both orders. -/
theorem Inherits.of_perm (hinherits : p.Inherits s m t a) : p'.Inherits s m t a := by
  have hdeclared := declared?_of_perm hperm
  have hparent := parent?_of_perm hperm
  induction hinherits with
  | own hfound => exact .own (hdeclared ▸ hfound)
  | above hfound hlink _ ih => exact .above (hdeclared ▸ hfound) (hparent ▸ hlink) ih

/-- The counts do not depend on the order of the classes. -/
theorem counts_of_perm (options : Options) : p.counts options = p'.counts options := by
  have hlistings : ∀ test, p.listings test = p'.listings test :=
    fun test => ((hperm.filter test).map _).sum_nat
  simp only [counts, hlistings, hperm.length_eq, hperm.countP_eq]

end Perm

end Program

/-! ## Target sets -/

namespace Targets

/-- Sets with the same identities are the same. -/
theorem same_ofList {ms ns : List Method} (hperm : ms.Perm ns) : (ofList ms).same (ofList ns) := by
  rw [same_iff]
  intro m
  rw [contains_ofList, contains_ofList]
  exact (hperm.map Method.id).mem_iff

/-- In different orders another method may be the first of its identity, but the identities stay. -/
theorem map_id_perm {ms ns : List Method} (hperm : ms.Perm ns) :
    ((ofList ms).toList.map Method.id).Perm ((ofList ns).toList.map Method.id) := by
  rw [toList_ofList, toList_ofList]
  refine (List.perm_ext_iff_of_nodup (nodup_map_firstsBy _ _) (nodup_map_firstsBy _ _)).mpr ?_
  intro i
  rw [mem_map_firstsBy, mem_map_firstsBy]
  exact (hperm.map Method.id).mem_iff

end Targets

namespace CallTarget

/-- What becomes of a call depends on the number of its targets and on their identities. -/
theorem same_ofTargets (declared : Signature) {ms ns : List Method} (hperm : ms.Perm ns) :
    (ofTargets declared (.ofList ms)).same (ofTargets declared (.ofList ns)) := by
  have hids := Targets.map_id_perm hperm
  have hsame := Targets.same_ofList hperm
  have hlength := hids.length_eq
  rw [List.length_map, List.length_map] at hlength
  unfold ofTargets Targets.single?
  rw [Targets.isEmpty_eq, Targets.isEmpty_eq]
  cases hms : (Targets.ofList ms).toList with
  | nil =>
    rw [hms] at hlength
    rw [List.length_eq_zero_iff.mp hlength.symm]
    simp [same]
  | cons m rest =>
    cases hns : (Targets.ofList ns).toList with
    | nil => simp [hms, hns] at hlength
    | cons n rest' =>
      rw [hms, hns] at hlength hids
      rw [List.length_cons, List.length_cons] at hlength
      cases rest with
      | nil =>
        -- one target on either side, and the identities agree
        obtain rfl := List.length_eq_zero_iff.mp (show rest'.length = 0 by simpa using hlength.symm)
        have hid : m.id = n.id := by simpa using hids
        simp [same, Method.same, hid]
      | cons m' rest =>
        cases rest' with
        | nil => simp at hlength
        | cons n' rest' => simpa [same] using hsame

end CallTarget

/-! ## Hierarchies -/

namespace Hierarchy

variable {h h' : Hierarchy}

/-- Two hierarchies, built under the same options, of well-formed programs that have the same
definitions in some order. -/
structure Reordered (h h' : Hierarchy) (p p' : Program) : Prop where
  represents : h.Represents p
  represents' : h'.Represents p'
  options : h.options = h'.options
  perm : p.firstDefinitions.Perm p'.firstDefinitions
  wellFormed : p.WellFormed
  wellFormed' : p'.WellFormed

/-- Hierarchies that are built from both orders are reorderings of each other. -/
theorem reordered_build (options : Options) (hwell : p.WellFormed)
    (hperm : p.classes.Perm p'.classes) : Reordered (build p options) (build p' options) p p' := by
  have hwell' := Program.wellFormed_of_perm hperm hwell
  refine ⟨represents_build p options, represents_build p' options, ?_, ?_, hwell, hwell'⟩
  · rw [options_build, options_build]
  · -- no definition is repeated, so all of them count
    rwa [Program.firstDefinitions_eq hwell.distinct, Program.firstDefinitions_eq hwell'.distinct]

/-- Both have a result, and the results are related. -/
def BothGive {α β : Type} (rel : α → β → Prop) (e : Except Fault α) (e' : Except Fault β) : Prop :=
  ∃ x y, e = .ok x ∧ e' = .ok y ∧ rel x y

namespace Reordered

variable (hre : Reordered h h' p p')
include hre

/-! ### Views -/

theorem definition?_eq (t : TypeName) : h.definition? t = h'.definition? t := by
  rw [hre.represents.definition?, hre.represents'.definition?, Program.find?_of_perm hre.perm]

theorem superclass?_eq (t : TypeName) : h.superclass? t = h'.superclass? t := by
  rw [hre.represents.superclass?, hre.represents'.superclass?, Program.parent?_of_perm hre.perm]

theorem isClass_eq (t : TypeName) : h.isClass t = h'.isClass t := by
  rw [isClass, isClass, hre.definition?_eq]

/-- The subtypes of a type stand in the order of their definitions. -/
theorem subclasses_perm (t : TypeName) : (h.subclasses t).Perm (h'.subclasses t) := by
  rw [hre.represents.subclasses, hre.represents'.subclasses]
  exact Program.children_of_perm hre.perm t

/-- The implementors of an interface stand in the order of their definitions. -/
theorem implementations_perm (t : TypeName) : (h.implementations t).Perm (h'.implementations t) := by
  rw [hre.represents.implementations, hre.represents'.implementations, hre.options]
  exact hre.perm.flatMap_right _

theorem subinterfaces_perm (t : TypeName) : (h.subinterfaces t).Perm (h'.subinterfaces t) := by
  rw [hre.represents.subinterfaces, hre.represents'.subinterfaces, hre.options]
  exact hre.perm.flatMap_right _

/-! ### Walks -/

/-- Both walks list the type itself first, and then the same types. -/
theorem exists_subclasses_perm (t : TypeName) : ∃ rest rest',
    h.allSubclasses t = .ok (t :: rest) ∧ h'.allSubclasses t = .ok (t :: rest')
      ∧ (t :: rest).Perm (t :: rest') := by
  have hoff := hre.wellFormed.parents_acyclic t
  have hoff' := hre.wellFormed'.parents_acyclic t
  rcases allSubclasses_eq hre.represents hoff with ⟨l, hl, horder⟩
  rcases allSubclasses_eq hre.represents' hoff' with ⟨l', hl', horder'⟩
  have hperm : l.Perm l' := by
    refine (List.perm_ext_iff_of_nodup (horder.nodup hoff) (horder'.nodup hoff')).mpr ?_
    intro u
    rw [horder.mem_singleton_iff, horder'.mem_singleton_iff, Program.parent?_of_perm hre.perm]
  rcases horder.of_cons with ⟨rest, rfl, -⟩
  rcases horder'.of_cons with ⟨rest', rfl, -⟩
  exact ⟨rest, rest', hl, hl', hperm⟩

/-- Both orders have the same subtypes of a type, in their own order. -/
theorem allSubclasses_perm (t : TypeName) :
    BothGive List.Perm (h.allSubclasses t) (h'.allSubclasses t) := by
  rcases hre.exists_subclasses_perm t with ⟨rest, rest', hl, hl', hperm⟩
  exact ⟨_, _, hl, hl', hperm⟩

theorem properSubclasses_perm (t : TypeName) :
    BothGive List.Perm (h.properSubclasses t) (h'.properSubclasses t) := by
  rcases hre.exists_subclasses_perm t with ⟨rest, rest', hl, hl', hperm⟩
  refine ⟨rest, rest', ?_, ?_, (List.perm_cons t).mp hperm⟩
  · rw [properSubclasses, hl]
    rfl
  · rw [properSubclasses, hl']
    rfl

/-- Who lists an interface does not depend on the order of the classes. -/
theorem lists_eq : h.Lists = h'.Lists := by
  funext t u
  have hlisters : (h.listers t).Perm (h'.listers t) :=
    (hre.implementations_perm t).append (hre.subinterfaces_perm t)
  exact propext hlisters.mem_iff

/-- Who implements an interface, directly or not, is told by the listings. -/
theorem mem_allImplementations_iff :
    u ∈ h.allImplementations t ↔ u ∈ h'.allImplementations t := by
  simp only [mem_allImplementations, hre.lists_eq, (hre.implementations_perm _).mem_iff]

/-- Both orders have the same implementors of an interface, in their own order. -/
theorem allImplementations_perm (t : TypeName) :
    (h.allImplementations t).Perm (h'.allImplementations t) :=
  (List.perm_ext_iff_of_nodup (TypeName.nodup_distinct _) (TypeName.nodup_distinct _)).mpr
    fun _ => hre.mem_allImplementations_iff

/-- Implementors and their subtypes are the same in both orders. -/
theorem mem_implementorTypes_iff : u ∈ h.implementorTypes t ↔ u ∈ h'.implementorTypes t := by
  have hroots : ∀ root, root ∈ h.implementorRoots t ↔ root ∈ h'.implementorRoots t := by
    intro root
    rw [mem_implementorRoots hre.represents, mem_implementorRoots hre.represents', hre.options,
      hre.isClass_eq, (hre.implementations_perm t).mem_iff, hre.mem_allImplementations_iff]
  rw [mem_implementorTypes hre.represents, mem_implementorTypes hre.represents',
    Program.parent?_of_perm hre.perm]
  simp only [hroots]

theorem implementorTypes_perm (t : TypeName) :
    (h.implementorTypes t).Perm (h'.implementorTypes t) :=
  (List.perm_ext_iff_of_nodup (nodup_descend _ _ _) (nodup_descend _ _ _)).mpr
    fun _ => hre.mem_implementorTypes_iff

/-- Both orders find the same methods for an interface, in their own order. -/
theorem implementationsOf_perm (t : TypeName) (s : Signature) :
    BothGive List.Perm (h.implementationsOf t s) (h'.implementationsOf t s) := by
  have hfound := implementationsOf_eq hre.represents hre.wellFormed.receivers t s
  have hfound' := implementationsOf_eq hre.represents' hre.wellFormed'.receivers t s
  rw [← Program.declaredAll_of_perm hre.perm] at hfound'
  exact ⟨_, _, hfound, hfound', (hre.implementorTypes_perm t).flatMap_right _⟩

/-! ### Meanings -/

/-- A type has the same method from the same ancestor in both orders. -/
theorem lookup_eq_some_iff : h.lookup t s = .ok (some m) ↔ h'.lookup t s = .ok (some m) := by
  rw [lookup_eq_some_iff_owner hre.represents hre.wellFormed,
    lookup_eq_some_iff_owner hre.represents' hre.wellFormed']
  exact ⟨.of_perm hre.perm, .of_perm hre.perm.symm⟩

/-- A climb finds the same in both orders: the chains of parents are the same. -/
theorem exists_lookup (s : Signature) : ∃ runs : TypeName → Option Method,
    (∀ t, h.lookup t s = .ok (runs t)) ∧ ∀ t, h'.lookup t s = .ok (runs t) := by
  have hwell := hre.wellFormed
  have hwell' := hre.wellFormed'
  rcases Hierarchy.exists_lookup hre.represents hwell.parents_acyclic hwell.receivers s
    with ⟨runs, hruns⟩
  rcases Hierarchy.exists_lookup hre.represents' hwell'.parents_acyclic hwell'.receivers s
    with ⟨runs', hruns'⟩
  refine ⟨runs, hruns, ?_⟩
  intro t
  have hsame : runs' t = runs t := by
    apply Option.ext
    intro m
    have hm := hre.lookup_eq_some_iff (t := t) (s := s) (m := m)
    rw [hruns, hruns', Except.ok.injEq, Except.ok.injEq] at hm
    exact hm.symm
  rw [hruns', hsame]

/-- The order of the classes makes no difference to a lookup. -/
theorem lookup_eq (t : TypeName) (s : Signature) :
    BothGive (· = ·) (h.lookup t s) (h'.lookup t s) := by
  rcases hre.exists_lookup s with ⟨runs, hruns, hruns'⟩
  exact ⟨_, _, hruns t, hruns' t, rfl⟩

/-- The order of the classes makes no difference to a lookup above a type. -/
theorem lookupAbove_eq (t : TypeName) (s : Signature) :
    BothGive (· = ·) (h.lookupAbove t s) (h'.lookupAbove t s) := by
  rw [lookupAbove, lookupAbove, hre.superclass?_eq]
  cases h'.superclass? t with
  | none => exact ⟨none, none, rfl, rfl, rfl⟩
  | some parent => exact hre.lookup_eq parent s

/-! ### Targets -/

/-- Both orders have the same targets below a type, in their own order. -/
theorem targetsBelow_perm (kind : InvokeKind) (s : Signature) (t : TypeName) :
    ∃ ms ns, h.targetsBelow kind s t = .ok (.ofList ms) ∧ h'.targetsBelow kind s t = .ok (.ofList ns)
      ∧ ms.Perm ns := by
  have hstart : h.enumerationStart kind t = h'.enumerationStart kind t := by
    rw [enumerationStart, enumerationStart, hre.superclass?_eq]
  rcases hre.exists_lookup s with ⟨runs, hruns, hruns'⟩
  rcases hre.allSubclasses_perm (h.enumerationStart kind t)
    with ⟨types, types', htypes, htypes', hperm⟩
  rw [hstart] at htypes'
  exact ⟨_, _, targetsBelow_eq hruns htypes, targetsBelow_eq hruns' htypes', hperm.filterMap runs⟩

/-- Both orders have the same targets of a call site, in their own order. -/
theorem targetsOf_perm (site : CallSite) :
    ∃ ms ns, h.targetsOf site = .ok (.ofList ms) ∧ h'.targetsOf site = .ok (.ofList ns)
      ∧ ms.Perm ns := by
  -- at most one target, and the same one
  have hone : ∀ e e' : Except Fault (Option Method), BothGive (· = ·) e e' →
      ∃ ms ns, Targets.ofOption <$> e = .ok (.ofList ms) ∧ Targets.ofOption <$> e' = .ok (.ofList ns)
        ∧ ms.Perm ns := by
    rintro _ _ ⟨m?, _, rfl, rfl, rfl⟩
    exact ⟨m?.toList, m?.toList, rfl, rfl, .refl _⟩
  rw [targetsOf, targetsOf]
  cases site.policy with
  | above declaring => exact hone _ _ (hre.lookupAbove_eq declaring site.signature)
  | exact receiver => exact hone _ _ (hre.lookup_eq receiver site.signature)
  | below bound => exact hre.targetsBelow_perm site.kind site.signature bound

theorem targetsBelow_same (kind : InvokeKind) (s : Signature) (t : TypeName) :
    BothGive (fun ts us => ts.same us) (h.targetsBelow kind s t) (h'.targetsBelow kind s t) := by
  rcases hre.targetsBelow_perm kind s t with ⟨ms, ns, hms, hns, hperm⟩
  exact ⟨_, _, hms, hns, Targets.same_ofList hperm⟩

/-- As sets the targets of a call site are the same. -/
theorem targetsOf_same (site : CallSite) :
    BothGive (fun ts us => ts.same us) (h.targetsOf site) (h'.targetsOf site) := by
  rcases hre.targetsOf_perm site with ⟨ms, ns, hms, hns, hperm⟩
  exact ⟨_, _, hms, hns, Targets.same_ofList hperm⟩

/-- A call is the same in both orders, its targets taken as a set. -/
theorem callOf_same (site : CallSite) :
    BothGive (fun a b => a.same b) (h.callOf site) (h'.callOf site) := by
  rcases hre.targetsOf_perm site with ⟨ms, ns, hms, hns, hperm⟩
  refine ⟨_, _, ?_, ?_, CallTarget.same_ofTargets site.signature hperm⟩
  · rw [callOf, hms]
    rfl
  · rw [callOf, hns]
    rfl

end Reordered

/-! ## Content -/

/-- Whatever honest memos the queries ask, both have an answer, and the answers are related. -/
def AgreeOn {α β : Type} (h h' : Hierarchy) (rel : α → β → Prop) (q : Query α) (q' : Query β) :
    Prop :=
  ∀ memo memo', h.Honest memo → h'.Honest memo' →
    BothGive rel (q.outcome memo).1 (q'.outcome memo').1

/-- Queries agree, whatever honest memos remember, if what they mean does. -/
theorem agreeOn_of_means {α β : Type} {rel : α → β → Prop} {q : Query α} {q' : Query β}
    {e : Except Fault α} {e' : Except Fault β} (hq : h.Means q e) (hq' : h'.Means q' e')
    (hgive : BothGive rel e e') : AgreeOn h h' rel q q' := by
  intro memo memo' hhonest hhonest'
  have hq := (Query.ensures_iff.mp hq memo hhonest).1
  have hq' := (Query.ensures_iff.mp hq' memo' hhonest').1
  rwa [hq, hq']

/-- Two hierarchies say the same, up to the order in which they list it. -/
structure SameContent (h h' : Hierarchy) : Prop where
  superclass? : ∀ t, h.superclass? t = h'.superclass? t
  definition? : ∀ t, h.definition? t = h'.definition? t
  resolve : ∀ t s, AgreeOn h h' (· = ·) (h.resolve t s) (h'.resolve t s)
  resolveSuper : ∀ t s, AgreeOn h h' (· = ·) (h.resolveSuper t s) (h'.resolveSuper t s)
  subclasses : ∀ t, (h.subclasses t).Perm (h'.subclasses t)
  implementations : ∀ t, (h.implementations t).Perm (h'.implementations t)
  subinterfaces : ∀ t, (h.subinterfaces t).Perm (h'.subinterfaces t)
  allSubclasses : ∀ t, BothGive List.Perm (h.allSubclasses t) (h'.allSubclasses t)
  properSubclasses : ∀ t, BothGive List.Perm (h.properSubclasses t) (h'.properSubclasses t)
  allImplementations : ∀ t, (h.allImplementations t).Perm (h'.allImplementations t)
  implementationsOf : ∀ t s, BothGive List.Perm (h.implementationsOf t s) (h'.implementationsOf t s)
  /-- Target sets have the same members. -/
  anyTarget : ∀ kind s t, AgreeOn h h' (fun ts us => ts.same us) (h.anyTarget kind s t)
    (h'.anyTarget kind s t)
  dispatch : ∀ site, AgreeOn h h' (fun ts us => ts.same us) (h.dispatch site) (h'.dispatch site)
  /-- A call is resolved, virtual or unresolved in both. -/
  callTarget : ∀ site, AgreeOn h h' (fun a b => a.same b) (h.callTarget site) (h'.callTarget site)
  counts : h.counts = h'.counts

/-- In a valid program the order of the definitions does not matter. -/
theorem declaration_order_irrelevant (p p' : Program) (options : Options)
    (hvalid : p.validate = .ok ()) (hperm : p.classes.Perm p'.classes) :
    SameContent (build p options) (build p' options) := by
  have hre := reordered_build options (Program.validate_eq_ok_iff.mp hvalid) hperm
  have hr := hre.represents
  have hr' := hre.represents'
  have hacyclic := hre.wellFormed.parents_acyclic
  have hacyclic' := hre.wellFormed'.parents_acyclic
  exact {
    superclass? := hre.superclass?_eq
    definition? := hre.definition?_eq
    resolve := fun t s => agreeOn_of_means (resolve_means hr hacyclic t s)
      (resolve_means hr' hacyclic' t s) (hre.lookup_eq t s)
    resolveSuper := fun t s => agreeOn_of_means (resolveSuper_means hr hacyclic t s)
      (resolveSuper_means hr' hacyclic' t s) (hre.lookupAbove_eq t s)
    subclasses := hre.subclasses_perm
    implementations := hre.implementations_perm
    subinterfaces := hre.subinterfaces_perm
    allSubclasses := hre.allSubclasses_perm
    properSubclasses := hre.properSubclasses_perm
    allImplementations := hre.allImplementations_perm
    implementationsOf := hre.implementationsOf_perm
    anyTarget := fun kind s t => agreeOn_of_means (anyTarget_means hr hacyclic kind s t)
      (anyTarget_means hr' hacyclic' kind s t) (hre.targetsBelow_same kind s t)
    dispatch := fun site => agreeOn_of_means (dispatch_means hr hacyclic site)
      (dispatch_means hr' hacyclic' site) (hre.targetsOf_same site)
    callTarget := fun site => agreeOn_of_means (callTarget_means hr hacyclic site)
      (callTarget_means hr' hacyclic' site) (hre.callOf_same site)
    counts := by
      rw [counts_build, counts_build]
      exact Program.counts_of_perm hre.perm options }

/-- The shapes in the opposite order, in which children come before their parents and siblings change
places. -/
theorem declaration_order_irrelevant_shapes :
    Shapes.program.validate = .ok ()
    ∧ Shapes.program.classes.Perm Shapes.program.classes.reverse
    ∧ (build Shapes.program).subclasses Shapes.shape = [Shapes.disk, Shapes.blob]
    ∧ (build ⟨Shapes.program.classes.reverse⟩).subclasses Shapes.shape = [Shapes.blob, Shapes.disk]
    ∧ SameContent (build Shapes.program) (build ⟨Shapes.program.classes.reverse⟩) := by
  have hvalid : Shapes.program.validate = .ok () := Program.validate_of_isOk (by decide +kernel)
  have hperm : Shapes.program.classes.Perm Shapes.program.classes.reverse :=
    (List.reverse_perm _).symm
  exact ⟨hvalid, hperm, rfl, rfl,
    declaration_order_irrelevant Shapes.program ⟨Shapes.program.classes.reverse⟩ {} hvalid hperm⟩

end Hierarchy

end ClassHierarchy

import ClassHierarchy.Proofs.Counts
import ClassHierarchy.Proofs.Interfaces
import ClassHierarchy.Proofs.Transparency

/-!
# Options that no answer shows

The options of a hierarchy say whether answers are remembered, how a scan is shared, and what it means
that an interface lists another one. Where interfaces list nothing and only interfaces are listed,
the last question does not come up, and then no option can be told from any answer.

* `implementations_of_flat`, `subinterfaces_of_flat`: all links are implementations.
* `allImplementations_of_flat`: nothing lists an implementor, so the search through interfaces ends
  after its first level and finds what the scan over all definitions finds too.
* `implementorRoots_of_flat`: with it the two ways to collect roots come to the same list.
* `question_agrees`: two hierarchies of one program answer every question about types, methods and
  calls alike.
-/

namespace ClassHierarchy

/-- Interfaces list no interface, and no class is listed as one. -/
structure Program.HasFlatInterfaces (p : Program) : Prop where
  interfaces_list_none : ∀ c ∈ p.firstDefinitions, c.isInterface → c.interfaces = []
  classes_not_listed : ∀ c ∈ p.firstDefinitions, ∀ i ∈ c.interfaces, ∀ d ∈ p.firstDefinitions,
    d.name = i → d.isInterface

/-- The request asks about the types, methods and calls of the hierarchy, and not about the program,
the memo or the options. -/
def Request.isQuestion : Request → Bool
  | .validate | .classNamed _ | .programTypes | .stats | .options | .consult _ _ | .remember _ _ _
  | .forget | .rebuild _ => false
  | _ => true

/-! ## Counts -/

/-- A definition that lists nothing does not count, whatever the test says of it. -/
theorem Program.listings_congr {p : Program} {test test' : ClassDef → Bool}
    (htest : ∀ c ∈ p.firstDefinitions, c.interfaces ≠ [] → test c = test' c) :
    p.listings test = p.listings test' := by
  suffices hall : ∀ cs ⊆ p.firstDefinitions,
      ((cs.filter test).map (·.interfaces.length)).sum
        = ((cs.filter test').map (·.interfaces.length)).sum from
    hall p.firstDefinitions (List.Subset.refl _)
  intro cs hcs
  induction cs with
  | nil => rfl
  | cons c cs ih =>
    obtain ⟨hc, hcs⟩ := List.cons_subset.mp hcs
    have hrest := ih hcs
    by_cases hlists : c.interfaces = []
    · cases htest : test c <;> cases htest' : test' c <;> simp [htest, htest', hlists, hrest]
    · have hsame := htest c hc hlists
      cases htest' : test' c <;> simp [hsame, htest', hrest]

namespace Hierarchy

variable {h h' : Hierarchy} {p : Program} {t u : TypeName}

/-! ## One hierarchy -/

section Flat

variable (hr : h.Represents p) (hflat : p.HasFlatInterfaces)
include hflat

omit hr in
/-- No definition that lists an interface extends it. -/
theorem isExtending_of_lists {c : ClassDef} (hc : c ∈ p.firstDefinitions) (hlists : c.interfaces ≠ [])
    (options : Options) : c.isExtending options = false := by
  cases hinterface : c.isInterface with
  | true => exact absurd (hflat.interfaces_list_none c hc hinterface) hlists
  | false => rw [ClassDef.isExtending, hinterface, Bool.false_and]

omit hr in
/-- Where no interface extends another, the option to model extension changes no count. -/
theorem counts_of_flat (options options' : Options) : p.counts options = p.counts options' := by
  have hextending : ∀ c ∈ p.firstDefinitions, c.interfaces ≠ [] →
      c.isExtending options = c.isExtending options' := by
    intro c hc hlists
    rw [isExtending_of_lists hflat hc hlists, isExtending_of_lists hflat hc hlists]
  have himplementing := fun c hc hlists => congrArg Bool.not (hextending c hc hlists)
  rw [Program.counts, Program.counts, Program.listings_congr hextending,
    Program.listings_congr himplementing]

include hr

/-- Where nothing extends, what lists an interface implements it, as often as it lists it. -/
theorem implementations_of_flat (t : TypeName) : h.implementations t
    = p.firstDefinitions.flatMap fun c => List.replicate (c.interfaces.count t) c.name := by
  rw [hr.implementations]
  refine List.flatMap_congr fun c hc => ?_
  by_cases hlists : c.interfaces = []
  · simp [hlists]
  · rw [isExtending_of_lists hflat hc hlists]
    rfl

/-- Where nothing extends, no interface is below another. -/
theorem subinterfaces_of_flat (t : TypeName) : h.subinterfaces t = [] := by
  rw [hr.subinterfaces, List.flatMap_eq_nil_iff]
  intro c hc
  by_cases hlists : c.interfaces = []
  · simp [hlists]
  · rw [isExtending_of_lists hflat hc hlists]
    rfl

theorem mem_implementations_of_flat : u ∈ h.implementations t
    ↔ ∃ c ∈ p.firstDefinitions, c.name = u ∧ t ∈ c.interfaces := by
  rw [hr.mem_implementations_iff]
  refine exists_congr fun c => and_congr_right fun hc => and_congr_right fun _ => ?_
  exact and_iff_left_of_imp fun ht => isExtending_of_lists hflat hc (List.ne_nil_of_mem ht) h.options

/-- An implementor is a class, and no class is listed as an interface. -/
theorem listers_of_implementor (hu : u ∈ h.implementations t) : h.listers u = [] := by
  rw [listers, subinterfaces_of_flat hr hflat, List.append_nil, List.eq_nil_iff_forall_not_mem]
  intro v hv
  rcases (mem_implementations_of_flat hr hflat).mp hu with ⟨c, hc, rfl, ht⟩
  rcases (mem_implementations_of_flat hr hflat).mp hv with ⟨d, hd, -, hlisted⟩
  have hinterface := hflat.classes_not_listed d hd c.name hlisted c hc rfl
  rw [hflat.interfaces_list_none c hc hinterface] at ht
  cases ht

/-- The search through interfaces ends where it has found the direct implementors. -/
theorem allImplementations_of_flat (t : TypeName) :
    h.allImplementations t = TypeName.distinct (h.implementations t) := by
  rw [allImplementations, levels, List.flatten_cons, List.flatMap_append, List.flatMap_singleton]
  have hrest : ∀ visited, ((h.levels visited
      (TypeName.fresh (.ofList [t]) ([t].flatMap h.listers))).flatten.flatMap h.implementations)
        = [] := by
    intro visited
    rw [List.flatMap_eq_nil_iff]
    intro v hv
    -- whatever comes after the first level lists something, and so is a class
    rcases mem_levels.mp hv with ⟨w, hw, hpath⟩
    have hlists : ∃ i, v ∈ h.listers i := by
      rcases hpath.cases_tail with rfl | ⟨x, -, hlists, -⟩
      · rw [TypeName.mem_fresh, List.flatMap_singleton] at hw
        exact ⟨t, hw.1⟩
      · exact ⟨x, hlists⟩
    rcases hlists with ⟨i, hi⟩
    rw [listers, subinterfaces_of_flat hr hflat, List.append_nil] at hi
    exact (List.append_eq_nil_iff.mp (listers_of_implementor hr hflat hi)).1
  rw [hrest, List.append_nil]

/-- The search through interfaces adds no root. -/
theorem implementorRoots_of_flat (t : TypeName) : h.implementorRoots t
    = TypeName.distinct (h.scanImplementors t ++ if h.isClass t then [t] else []) := by
  rw [implementorRoots]
  cases h.options.interfaceExtension with
  | false => rw [if_neg Bool.false_ne_true, List.append_nil]
  | true =>
    rw [if_pos rfl]
    apply TypeName.distinct_append_of_subset
    intro u hu
    rw [allImplementations_of_flat hr hflat, TypeName.mem_distinct] at hu
    exact (mem_scanImplementors hr).mpr hu

/-- Where nothing extends, the scan has all that list the interface. -/
theorem scanImplementors_of_flat (t : TypeName) : h.scanImplementors t
    = (p.firstDefinitions.filter (·.interfaces.contains t)).map ClassDef.name := by
  rw [scanImplementors_eq hr]
  congr 1
  refine List.filter_congr fun c hc => ?_
  by_cases hlists : c.interfaces = []
  · simp [hlists]
  · rw [isExtending_of_lists hflat hc hlists]
    rfl

end Flat

/-! ## Two hierarchies of one program -/

section SameProgram

variable (hr : h.Represents p) (hr' : h'.Represents p)
include hr hr'

theorem definition?_congr : h.definition? = h'.definition? := by
  funext t
  rw [hr.definition?, hr'.definition?]

theorem classes_congr : h.classes = h'.classes := by
  rw [hr.classes, hr'.classes]

/-- Walks down hierarchies of one program visit the same types. -/
theorem descend_congr (visited : TypeSet) (stack : List TypeName) :
    h.descend visited stack = h'.descend visited stack := by
  induction visited, stack using descend.induct h with
  | case1 visited => rw [descend, descend]
  | case2 visited t stack hold ih => rw [descend, dif_pos hold, ih, descend, dif_pos hold]
  | case3 visited t stack hnew ih =>
    rw [descend, dif_neg hnew, ih, descend, dif_neg hnew, subclasses_congr hr hr']

variable (hflat : p.HasFlatInterfaces)
include hflat

theorem implementations_congr (t : TypeName) : h.implementations t = h'.implementations t := by
  rw [implementations_of_flat hr hflat, implementations_of_flat hr' hflat]

/-- Where nothing extends, hierarchies of one program have the same implementors. -/
theorem allImplementations_congr (t : TypeName) :
    h.allImplementations t = h'.allImplementations t := by
  rw [allImplementations_of_flat hr hflat, allImplementations_of_flat hr' hflat,
    implementations_congr hr hr' hflat]

/-- The roots of the search are the same, however the two options make them out. -/
theorem implementorRoots_congr (t : TypeName) : h.implementorRoots t = h'.implementorRoots t := by
  rw [implementorRoots_of_flat hr hflat, implementorRoots_of_flat hr' hflat,
    scanImplementors_of_flat hr hflat, scanImplementors_of_flat hr' hflat, isClass, isClass,
    definition?_congr hr hr']

/-- The search through implementors finds the same with either options. -/
theorem implementationsOf_congr (t : TypeName) (s : Signature) :
    h.implementationsOf t s = h'.implementationsOf t s := by
  have hdeclared : (h.declaredAll · s) = (h'.declaredAll · s) := by
    funext u
    rw [declaredAll, declaredAll, definition?_congr hr hr']
  rw [implementationsOf, implementationsOf, implementorTypes, implementorTypes,
    implementorRoots_congr hr hr' hflat, descend_congr hr hr', hdeclared]

end SameProgram

end Hierarchy

/-! ## Sessions -/

namespace Session

variable {h h' : Hierarchy} {p : Program} {α : Type}

namespace Action

/-- An action may depend on the hierarchy of the session, if both hierarchies make it the same. -/
theorem agrees_on_hierarchy (f : Hierarchy → Action α) (hsame : f h = f h')
    (hf : Agrees p h h' (f h)) : Agrees p h h' (get >>= fun session => f session.hierarchy) := by
  rcases hf with ⟨e, hleft, hright, hfails⟩
  refine ⟨e, ensures_get_bind fun session hsound => ?_, ensures_get_bind fun session hsound => ?_,
    hfails⟩
  · rw [hsound.1]
    exact hleft
  · rw [hsound.1, ← hsame]
    exact hright

/-- A view of the hierarchy is an answer at once. -/
theorem agrees_view (view : Hierarchy → α) (hview : view h = view h') :
    Agrees p h h' (get >>= fun session => pure (view session.hierarchy)) :=
  agrees_on_hierarchy (fun h => pure (view h)) (congrArg pure hview) (agrees_pure _)

/-- What fails only for the lack of a receiver fails alike. -/
theorem agrees_ofFault {e : Except Fault α} (he : FailsOnly p.IsReceiverFault e) :
    Agrees p h h' (ofFault e) := by
  cases e with
  | ok x => exact agrees_pure x
  | error fault =>
    exact ⟨.error (.fault fault), ensures_throw rfl, ensures_throw rfl,
      failsOnly_error ⟨fault, rfl, he fault rfl⟩⟩

/-- A walk through the hierarchy has an answer, or meets a method without a receiver. -/
theorem agrees_walk (walk : Hierarchy → Except Fault α) (answer : α → Answer)
    (hwalk : walk h = walk h') (hfails : FailsOnly p.IsReceiverFault (walk h)) :
    Agrees p h h' (get >>= fun session =>
      ofFault (walk session.hierarchy) >>= fun x => pure (answer x)) :=
  agrees_on_hierarchy (fun h => ofFault (walk h) >>= fun x => pure (answer x)) (by simp only [hwalk])
    ((agrees_ofFault hfails).bind fun x => agrees_pure (answer x))

end Action

section SameProgram

variable (hr : h.Represents p) (hr' : h'.Represents p) (hacyclic : p.Acyclic)
  (hflat : p.HasFlatInterfaces)
include hr hr' hacyclic hflat

open Session.Action Hierarchy

omit hacyclic in
/-- The search for implementors comes to the same methods from as many roots. -/
theorem searchImplementors_agrees (t : TypeName) (s : Signature) :
    Agrees p h h' (searchImplementors t s) := by
  refine agrees_on_hierarchy (fun h => do
    let methods ← ofFault (h.implementationsOf t s)
    report (.searched t s (h.implementorRoots t).length methods.length)
    return methods) ?_ ?_
  · simp only [implementationsOf_congr hr hr' hflat, implementorRoots_congr hr hr' hflat]
  · refine (agrees_ofFault (implementationsOf_failsOnly hr t s)).bind fun methods => ?_
    exact (agrees_report _).bind fun _ => agrees_pure methods

/-- Two hierarchies of one program answer every question alike. -/
theorem question_agrees {request : Request} (hrequest : request.isQuestion) :
    Agrees p h h' (answer request) := by
  have hdefinition : ∀ t, h.definition? t = h'.definition? t := congrFun (definition?_congr hr hr')
  have hsuperclass : ∀ t, h.superclass? t = h'.superclass? t := congrFun (superclass?_congr hr hr')
  have hwalks : ∀ t, h.allSubclasses t = h'.allSubclasses t := congrFun (allSubclasses_congr hr hr')
  have hclasses := classes_congr hr hr'
  by_cases hres : request.isResolution
  · exact answer_agrees hr hr' hacyclic hres
  cases request with
  | superclass t =>
    exact agrees_view (fun h => Answer.type? (h.superclass? t)) (by simp only [hsuperclass])
  | subclasses t =>
    exact agrees_view (fun h => Answer.types (h.subclasses t)) (by simp only [subclasses_congr hr hr'])
  | allSubclasses t =>
    exact agrees_walk (fun h => h.allSubclasses t) .types (hwalks t)
      (allSubclasses_failsOnly hr hacyclic t)
  | properSubclasses t =>
    exact agrees_walk (fun h => h.properSubclasses t) .types (by simp only [properSubclasses, hwalks])
      (failsOnly_map (allSubclasses_failsOnly hr hacyclic t) _)
  | implementations t =>
    exact agrees_view (fun h => Answer.types (h.implementations t))
      (by simp only [implementations_congr hr hr' hflat])
  | subinterfaces t =>
    exact agrees_view (fun h => Answer.types (h.subinterfaces t))
      (by simp only [subinterfaces_of_flat hr hflat, subinterfaces_of_flat hr' hflat])
  | allImplementations t =>
    exact agrees_view (fun h => Answer.types (h.allImplementations t))
      (by simp only [allImplementations_congr hr hr' hflat])
  | definition t =>
    exact agrees_view (fun h => Answer.definition? (h.definition? t)) (by simp only [hdefinition])
  | superclassDefinition t =>
    exact agrees_view (fun h => Answer.definition? (h.superclassDefinition? t))
      (by simp only [superclassDefinition?, hsuperclass, definition?_congr hr hr'])
  | isInterface t =>
    exact agrees_view (fun h => Answer.flag (h.isInterface t))
      (by simp only [Hierarchy.isInterface, hdefinition])
  | isFinal t =>
    exact agrees_view (fun h => Answer.flag (h.isFinal t))
      (by simp only [Hierarchy.isFinal, hdefinition])
  | roots =>
    exact agrees_view (fun h => Answer.types (h.roots.map ClassDef.name))
      (by simp only [Hierarchy.roots, hclasses])
  | types =>
    exact agrees_view (fun h => Answer.types (h.classes.map ClassDef.name))
      (by simp only [hclasses])
  | declared t s =>
    exact agrees_walk (fun h => h.declared t s) .method? (declared_congr hr hr' t s)
      (declared_failsOnly hr t s)
  | implementationsOf t s =>
    have hsearch := searchImplementors_agrees hr hr' hflat t s
    exact .after_get (hsearch.bind fun _ => agrees_pure _)
  | resolve | resolveSuper | anyTarget | dispatch | isPolymorphic | callTarget | sameTarget
  | callTargets => exact absurd rfl hres
  | _ => cases hrequest

end SameProgram

/-- Where no interface extends another and no class is listed as an interface, the options make no
difference: after any requests but ones that tell the memo an answer, every question has an answer,
and it is the same under all options, lists in the same order. Nor do the sizes differ. -/
theorem options_neutral (p : Program) (options options' : Options) (hacyclic : p.Acyclic)
    (hreceivers : p.HasReceivers) (hflat : p.HasFlatInterfaces) (before before' : List Request)
    (hbefore : ∀ request ∈ before, request.isInquiry)
    (hbefore' : ∀ request ∈ before', request.isInquiry) :
    let session := (start p options).after before
    let session' := (start p options').after before'
    session.hierarchy.counts = session'.hierarchy.counts
    ∧ ∀ request, request.isQuestion → ∃ answer, (session.step request).1.result = .ok answer
        ∧ (session'.step request).1.result = .ok answer := by
  intro session session'
  have hr := Hierarchy.represents_build p options
  have hr' := Hierarchy.represents_build p options'
  have hsound : Sound (.build p options) session :=
    after_sound hr hacyclic (sound_start p options) hbefore
  have hsound' : Sound (.build p options') session' :=
    after_sound hr' hacyclic (sound_start p options') hbefore'
  constructor
  · rw [hsound.1, hsound'.1, Hierarchy.counts_build, Hierarchy.counts_build]
    exact Hierarchy.counts_of_flat hflat options options'
  · intro request hrequest
    rcases question_agrees hr hr' hacyclic hflat hrequest with ⟨e, hleft, hright, hfails⟩
    -- only a method without a receiver could be in the way
    have hnone : ∀ failure, ¬ p.IsReceiverFailure failure := by
      rintro _ ⟨fault, rfl, hfault⟩
      exact hreceivers.not_fault fault hfault
    rcases hfails.exists_ok hnone with ⟨answer, rfl⟩
    exact ⟨answer, (step_ensures hleft hsound).1, (step_ensures hright hsound').1⟩

section Example

open Drawings

/-- All options different, and a memo that was used. -/
theorem options_neutral_drawings :
    let options : Options := ⟨false, false, 0⟩
    let before := [.resolve ring draw, .resolveSuper ring draw]
    let session := (start Drawings.program).after before
    let session' := start Drawings.program options
    Drawings.program.Acyclic ∧ Drawings.program.HasReceivers ∧ Drawings.program.HasFlatInterfaces
    ∧ (∀ request ∈ before, request.isInquiry)
    ∧ session.memo.find? draw disk = some (some (.declaredBy shape draw))
    ∧ session.hierarchy.counts = session'.hierarchy.counts
    ∧ ∃ answer, (session.step (.implementationsOf drawable draw)).1.result = .ok answer
        ∧ (session'.step (.implementationsOf drawable draw)).1.result = .ok answer := by
  intro options before session session'
  have hwell := Program.validate_eq_ok_iff.mp validate_program
  have hflat : Drawings.program.HasFlatInterfaces := ⟨by decide, by decide⟩
  have hbefore : ∀ request ∈ before, request.isInquiry := by decide
  have hneutral := options_neutral Drawings.program {} options hwell.parents_acyclic
    hwell.receivers hflat before [] hbefore (by simp)
  exact ⟨hwell.parents_acyclic, hwell.receivers, hflat, hbefore, by decide +kernel, hneutral.1,
    hneutral.2 (.implementationsOf drawable draw) rfl⟩

end Example

end Session

end ClassHierarchy

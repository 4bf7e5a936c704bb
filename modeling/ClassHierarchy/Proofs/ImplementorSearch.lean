import ClassHierarchy.Proofs.Interfaces
import ClassHierarchy.Proofs.Subtrees
import ClassHierarchy.Proofs.Totality

/-!
# The search for implementors

The search goes down from its roots and passes over what it has visited. A root may lie below another
one, before it or after it, so whole subtrees are passed over. Nothing is lost: without cycles, the
search has visited all that lies below a type by the time it meets the type again (`Settled`). On a
cycle it meets the type earlier, and ends there.

* `descend_append`: below the types on top of its stack, the search lists what the walks without memory
  list, less what was visited.
* `descend_eq_distinct`: from the roots on, it lists the walks one after the other, each type where it
  occurs first.
* `CollectsSubtrees`: the methods found are those that the definitions at and below the roots list.
* `count_found`: in a well-formed program a method is found as often as its owner lists it. Types are
  visited once, but nothing keeps a class from listing a method twice.
-/

namespace ClassHierarchy

variable {p : Program} {s : Signature} {t u : TypeName} {ts us l : List TypeName} {visited : TypeSet}

/-! ## Examples -/

namespace Drawings

/-- A disk and a ring are each other's parent, and both can be drawn. -/
def tangled : Program where
  classes := [
    { name := drawable, modifiers := ⟨0x200⟩ },
    { name := disk, parent := some ring, interfaces := [drawable],
      methods := [.declaredBy disk draw] },
    { name := ring, parent := some disk, interfaces := [drawable],
      methods := [.declaredBy ring draw] }]

/-- A shape lists its only method twice. -/
def repeated : Program where
  classes := [{ name := shape, methods := [.declaredBy shape draw, .declaredBy shape draw] }]

theorem validate_repeated : repeated.validate = .ok () :=
  Program.validate_of_isOk (by decide +kernel)

end Drawings

/-! ## What was visited -/

/-- What was visited at or below `t` was visited together with all its children. -/
def Settled (p : Program) (visited : TypeSet) (t : TypeName) : Prop :=
  ∀ v ∈ visited, Reaches p.parent? v t → ∀ c ∈ p.children v, c ∈ visited

/-- If the type itself was visited, so was all that lies below it. -/
theorem Settled.mem_of_reaches (hsettled : Settled p visited t) (ht : t ∈ visited)
    (hut : Reaches p.parent? u t) : u ∈ visited := by
  induction hut using Relation.ReflTransGen.head_induction_on with
  | refl => exact ht
  | head hlink hrest ih => exact hsettled _ ih hrest _ (Program.mem_children.mpr hlink)

/-- To visit a type does not unsettle its children: it does not lie below them. -/
theorem Settled.insert_child {c : TypeName} (hacyclic : p.Acyclic) (hsettled : Settled p visited t)
    (hc : c ∈ p.children t) : Settled p (visited.insert t) c := by
  have hct := Program.mem_children.mp hc
  intro v hv hvc d hd
  rcases TypeName.mem_insert.mp hv with rfl | hv
  · exact absurd (Relation.TransGen.tail'_iff.mpr ⟨c, hvc, hct⟩) (hacyclic v)
  · exact TypeName.mem_insert.mpr (.inr (hsettled v hv (hvc.tail hct) d hd))

/-- Nor does it unsettle any type to visit a whole subtree. -/
theorem Settled.of_subtree {visited' : TypeSet} (hsettled : Settled p visited u)
    (hvisited' : ∀ v, v ∈ visited' ↔ v ∈ visited ∨ Reaches p.parent? v t) : Settled p visited' u := by
  intro v hv hvu c hc
  rw [hvisited'] at hv ⊢
  rcases hv with hv | hv
  · exact .inl (hsettled v hv hvu c hc)
  · exact .inr (.head (Program.mem_children.mp hc) hv)

namespace Hierarchy

variable {h : Hierarchy}

/-- The search lists what lies below the types on top of its stack, less what was visited, and goes on
with the rest of the stack when all of it has been visited. The induction is on the order in which a
walk without memory lists these types. -/
theorem descend_append (hr : h.Represents p) (hacyclic : p.Acyclic) (hl : PreOrder p ts l)
    (hsettled : ∀ t ∈ ts, Settled p visited t) (us : List TypeName) :
    ∃ visited' : TypeSet, (∀ u, u ∈ visited' ↔ u ∈ visited ∨ u ∈ l)
      ∧ h.descend visited (ts ++ us) = TypeName.fresh visited l ++ h.descend visited' us := by
  induction hl generalizing visited us with
  | nil => exact ⟨visited, by simp, rfl⟩
  | @cons t ts below rest hbelow hrest ihbelow ihrest =>
    have hsettledt := hsettled t List.mem_cons_self
    have hsettledts := fun u hu => hsettled u (List.mem_cons_of_mem t hu)
    have hmem : ∀ u, u ∈ t :: below ↔ Reaches p.parent? u t := by
      intro u
      rw [List.mem_cons, hbelow.mem_iff, reaches_iff_child]
    by_cases ht : t ∈ visited
    · -- the whole subtree is passed over
      have hold : ∀ u ∈ t :: below, u ∈ visited :=
        fun u hu => hsettledt.mem_of_reaches ht ((hmem u).mp hu)
      rcases ihrest hsettledts us with ⟨visited', hvisited', heq⟩
      refine ⟨visited', ?_, ?_⟩
      · intro u
        rw [hvisited', ← List.cons_append, List.mem_append]
        have := hold u
        grind
      · rw [List.cons_append, descend, dif_pos (Std.TreeSet.contains_iff_mem.mpr ht), heq,
          ← List.cons_append, TypeName.fresh_append_of_mem hold]
    · have hnew : ¬ visited.contains t := fun hcontains => ht (Std.TreeSet.contains_iff_mem.mp hcontains)
      rcases ihbelow (fun c hc => hsettledt.insert_child hacyclic hc) (ts ++ us)
        with ⟨visited₁, hvisited₁, heq₁⟩
      have hmem₁ : ∀ u, u ∈ visited₁ ↔ u ∈ visited ∨ Reaches p.parent? u t := by
        intro u
        rw [hvisited₁, TypeName.mem_insert, ← hmem, List.mem_cons]
        tauto
      rcases ihrest (fun u hu => (hsettledts u hu).of_subtree hmem₁) us
        with ⟨visited₂, hvisited₂, heq₂⟩
      refine ⟨visited₂, ?_, ?_⟩
      · intro u
        rw [hvisited₂, hmem₁, ← List.cons_append, List.mem_append, hmem, or_assoc]
      · rw [List.cons_append, descend, dif_neg hnew, hr.subclasses, heq₁, heq₂, TypeName.fresh,
          if_neg hnew, TypeName.fresh_append hvisited₁, List.cons_append, List.append_assoc]

/-- Without cycles, the search lists what the walks from its starts list, each type once. -/
theorem descend_eq_distinct (hr : h.Represents p) (hacyclic : p.Acyclic) (hl : PreOrder p ts l) :
    h.descend ∅ ts = TypeName.distinct l := by
  have hsettled : ∀ t ∈ ts, Settled p ∅ t := by
    intro t _ v hv
    simp at hv
  rcases descend_append hr hacyclic hl hsettled [] with ⟨visited', -, heq⟩
  rw [List.append_nil] at heq
  rw [heq, descend, List.append_nil, TypeName.distinct]

/-! ## Definitions and their methods -/

section Represents

variable (hr : h.Represents p)
include hr

/-- The roots are defined, and so is what lies below them. -/
theorem isSome_definition?_of_mem_implementorTypes (hu : u ∈ h.implementorTypes t) :
    (h.definition? u).isSome := by
  rw [hr.definition?, Program.find?_isSome_iff]
  rcases (mem_implementorTypes hr).mp hu with ⟨root, hroot, hreaches⟩
  rcases reaches_iff_head.mp hreaches with rfl | ⟨v, hparent, -⟩
  · rcases (mem_implementorRoots hr).mp hroot with hdirect | ⟨-, hindirect⟩ | ⟨hclass, rfl⟩
    · exact hr.mem_types_of_implementations hdirect
    · exact (allImplementations_bounded hr t).2 hindirect
    · rw [isClass, hr.definition?] at hclass
      rw [← Program.find?_isSome_iff]
      exact Option.isSome_of_any hclass
  · rcases Program.parent?_eq_some_iff.mp hparent with ⟨c, hc, rfl, -⟩
    exact List.mem_map_of_mem (Program.mem_classes_of_mem_firstDefinitions hc)

/-- Defined types are found under their names. -/
theorem map_name_filterMap_definition? (hdefined : ∀ u ∈ ts, (h.definition? u).isSome) :
    (ts.filterMap h.definition?).map ClassDef.name = ts := by
  rw [List.map_filterMap]
  refine (List.filterMap_congr fun u hu => ?_).trans (List.filterMap_some)
  rcases Option.isSome_iff_exists.mp (hdefined u hu) with ⟨c, hc⟩
  rw [hr.definition?] at hc ⊢
  rw [hc, Option.map_some, (Program.find?_eq_some_iff.mp hc).2]

/-- What types declare is what their definitions list. -/
theorem flatMap_declaredAll (ts : List TypeName) (s : Signature) : ts.flatMap (p.declaredAll · s)
    = (ts.filterMap h.definition?).flatMap fun c => c.methods.filter (·.Matches s) := by
  induction ts with
  | nil => rfl
  | cons t ts ih =>
    rw [List.flatMap_cons, ih, Program.declaredAll, List.filterMap_cons, hr.definition?]
    cases p.find? t with
    | none => rfl
    | some c => rfl

end Represents

/-- The search for implementors of a type comes to these definitions and finds these methods. -/
structure CollectsSubtrees (h : Hierarchy) (p : Program) (t : TypeName) (s : Signature)
    (definitions : List ClassDef) (found : List Method) : Prop where
  implementationsOf : h.implementationsOf t s = .ok found
  /-- Each definition adds all its methods with the signature, as it lists them. -/
  found_eq : found = definitions.flatMap fun c => c.methods.filter (·.Matches s)
  /-- The definitions are those at and below the roots. -/
  mem_definitions : ∀ c, c ∈ definitions ↔ h.definition? c.name = some c
    ∧ ∃ root ∈ h.implementorRoots t, Relation.ReflTransGen h.HasChild root c.name
  nodup : (definitions.map ClassDef.name).Nodup
  /-- Without cycles they come in the order of the walks from the roots. -/
  ordered : p.Acyclic → ∃ trees, (h.implementorRoots t).mapM h.allSubclasses = .ok trees
    ∧ definitions.map ClassDef.name = TypeName.distinct trees.flatten

/-- The search finds what is listed at and below its roots. It ends on cycles too, and without cycles
it leaves out nothing but the repetitions of the walks from the roots. -/
theorem implementors_collect_subtrees (p : Program) (options : Options)
    (hreceivers : p.HasReceivers) (t : TypeName) (s : Signature) :
    ∃ definitions found, CollectsSubtrees (build p options) p t s definitions found := by
  have hr := represents_build p options
  have hnames := map_name_filterMap_definition? hr fun u hu =>
    isSome_definition?_of_mem_implementorTypes (t := t) hr hu
  refine ⟨_, _, implementationsOf_eq hr hreceivers t s, flatMap_declaredAll hr _ s, ?_, ?_, ?_⟩
  · intro c
    rw [List.mem_filterMap, ← mem_implementorTypes_iff_hasChild]
    constructor
    · rintro ⟨u, hu, hc⟩
      obtain rfl : c.name = u := (Program.find?_eq_some_iff.mp (hr.definition? u ▸ hc)).2
      exact ⟨hc, hu⟩
    · rintro ⟨hc, hu⟩
      exact ⟨c.name, hu, hc⟩
  · rw [hnames]
    exact nodup_descend _ _ _
  · intro hacyclic
    have hroots : ∀ root ∈ (build p options).implementorRoots t, ¬ OnCycle p.parent? root :=
      fun root _ => hacyclic root
    rcases mapM_allSubclasses hr hroots with ⟨trees, htrees, horder⟩
    exact ⟨trees, htrees, hnames.trans (descend_eq_distinct hr hacyclic horder)⟩

section Example

open Drawings

/-- A search that goes round a cycle, on which each of two roots lies below the other. -/
theorem implementors_collect_subtrees_tangled :
    tangled.HasReceivers
    ∧ (build tangled .literal).allSubclasses disk = .error (.endless disk)
    ∧ (build tangled .literal).implementorRoots drawable = [disk, ring]
    ∧ (build tangled .literal).implementationsOf drawable draw
        = .ok [.declaredBy disk draw, .declaredBy ring draw]
    ∧ ∃ definitions found,
      CollectsSubtrees (build tangled .literal) tangled drawable draw definitions found := by
  have hreceivers : tangled.HasReceivers := by decide
  have hroots : (build tangled .literal).implementorRoots drawable = [disk, ring] := rfl
  have hdisk : (build tangled .literal).subclasses disk = [ring] := rfl
  have hring : (build tangled .literal).subclasses ring = [disk] := rfl
  have htypes : (build tangled .literal).implementorTypes drawable = [disk, ring] := by
    rw [implementorTypes, hroots, descend, dif_neg (by decide), hdisk, List.singleton_append, descend,
      dif_neg (by decide), hring, List.singleton_append, descend, dif_pos (by decide), descend,
      dif_pos (by decide), descend]
  refine ⟨hreceivers, rfl, hroots, ?_,
    implementors_collect_subtrees tangled .literal hreceivers drawable draw⟩
  rw [implementationsOf, htypes]
  rfl

end Example

/-! ## How often a method is found -/

section WellFormed

variable (hwell : p.WellFormed)
include hwell

/-- What other types list does not count. -/
theorem count_declaredAll_of_ne {i : MethodId} (hne : i.owner ≠ t) :
    ((p.declaredAll t s).map Method.id).count i = 0 := by
  rw [List.count_eq_zero, List.mem_map]
  rintro ⟨m, hm, rfl⟩
  exact hne (Program.owner_of_mem_declaredAll hwell hm)

/-- Among the methods of several types, a method is there as often as its owner lists it. -/
theorem count_found (hnodup : ts.Nodup) (i : MethodId) :
    ((ts.flatMap (p.declaredAll · s)).map Method.id).count i
      = if i.owner ∈ ts then ((p.declaredAll i.owner s).map Method.id).count i else 0 := by
  induction ts with
  | nil => rfl
  | cons t ts ih =>
    rcases List.nodup_cons.mp hnodup with ⟨hnew, hnodup⟩
    rw [List.flatMap_cons, List.map_append, List.count_append, ih hnodup]
    by_cases howner : i.owner = t
    · subst howner
      simp [hnew]
    · rw [count_declaredAll_of_ne hwell howner]
      simp [howner]

/-- Different types declare different methods, so a repetition is one within a type. -/
theorem nodup_found_iff (hnodup : ts.Nodup) :
    ((ts.flatMap (p.declaredAll · s)).map Method.id).Nodup
      ↔ ∀ t ∈ ts, ((p.declaredAll t s).map Method.id).Nodup := by
  simp only [List.nodup_iff_count_le_one, count_found hwell hnodup]
  constructor
  · intro honce t ht i
    by_cases howner : i.owner = t
    · subst howner
      have hi := honce i
      rwa [if_pos ht] at hi
    · rw [count_declaredAll_of_ne hwell howner]
      exact Nat.zero_le 1
  · intro honce i
    split
    · rename_i howner
      exact honce i.owner howner i
    · exact Nat.zero_le 1

end WellFormed

/-- In a valid program the search finds a method as often as its owner lists it, if it comes to the
owner. So it finds each method once just if no class that it comes to lists a method with the signature
twice. -/
theorem found_as_often_as_listed (p : Program) (options : Options) (hvalid : p.validate = .ok ())
    (t : TypeName) (s : Signature) :
    ∃ found, (build p options).implementationsOf t s = .ok found
      ∧ (∀ i : MethodId, (found.map Method.id).count i
        = if i.owner ∈ (build p options).implementorTypes t then
            ((p.declaredAll i.owner s).map Method.id).count i
          else 0)
      ∧ ((found.map Method.id).Nodup ↔ ∀ u ∈ (build p options).implementorTypes t,
        ((p.declaredAll u s).map Method.id).Nodup) := by
  have hwell := Program.validate_eq_ok_iff.mp hvalid
  have hnodup : ((build p options).implementorTypes t).Nodup := nodup_descend _ _ _
  exact ⟨_, implementationsOf_eq (represents_build p options) hwell.receivers t s,
    count_found hwell hnodup, nodup_found_iff hwell hnodup⟩

section Example

open Drawings

/-- A shape lists the method twice, and it is found as often. -/
theorem found_as_often_as_listed_repeated :
    repeated.validate = .ok ()
    ∧ ∃ found, (build repeated).implementationsOf shape draw = .ok found
      ∧ (∀ i : MethodId, (found.map Method.id).count i
        = if i.owner ∈ (build repeated).implementorTypes shape then
            ((repeated.declaredAll i.owner draw).map Method.id).count i
          else 0)
      ∧ ((found.map Method.id).Nodup ↔ ∀ u ∈ (build repeated).implementorTypes shape,
        ((repeated.declaredAll u draw).map Method.id).Nodup) :=
  ⟨validate_repeated, found_as_often_as_listed repeated {} validate_repeated shape draw⟩

/-- A method that its class lists twice is found twice. -/
theorem repeated_method_found_twice :
    repeated.validate = .ok ()
    ∧ (build repeated).implementationsOf shape draw
        = .ok [.declaredBy shape draw, .declaredBy shape draw]
    ∧ ¬ ([Method.declaredBy shape draw, .declaredBy shape draw].map Method.id).Nodup := by
  have hlisters : TypeName.fresh (.ofList [shape]) ([shape].flatMap (build repeated).listers) = [] :=
    rfl
  have hroots : (build repeated).implementorRoots shape = [shape] := by
    rw [implementorRoots, allImplementations, levels, hlisters, levels]
    rfl
  have hshape : (build repeated).subclasses shape = [] := rfl
  have htypes : (build repeated).implementorTypes shape = [shape] := by
    rw [implementorTypes, hroots, descend, dif_neg (by decide), hshape, List.append_nil, descend]
  refine ⟨validate_repeated, ?_, by decide⟩
  rw [implementationsOf, htypes]
  rfl

end Example

end Hierarchy

end ClassHierarchy

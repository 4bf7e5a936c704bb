import ClassHierarchy.Hierarchy.Construction
import ClassHierarchy.Proofs.Chain
import ClassHierarchy.Proofs.Firsts

/-!
# What a hierarchy says of its program

`Hierarchy.build` fills several maps while it reads the definitions. Each of them can be told from
the program alone, as a function of the definitions that count. `Represents` says so for all views at
once; reading a definition keeps it (`represents_add`), so it holds of every hierarchy that was built
(`represents_build`).

* `Program.mem_children`: the children of a type are just the types whose parent it is.
* `Program.mem_of_parent?`: only defined types have a parent, so there are no more links than
  definitions.
* `IsIndexOf`: the views of a hierarchy in terms of the program and of the options it was built with.
-/

namespace ClassHierarchy

namespace Program

/-- The definitions that count: those of a type that has none before. -/
def firstDefinitions (p : Program) : List ClassDef :=
  firstsBy ClassDef.name p.classes

/-- The parent that a program gives to a type. -/
def parent? (p : Program) (t : TypeName) : Option TypeName :=
  (p.find? t).bind ClassDef.parent

/-- The types whose parent is this one, in the order of the definitions that count. -/
def children (p : Program) (t : TypeName) : List TypeName :=
  (p.firstDefinitions.filter (·.parent = some t)).map ClassDef.name

/-- No type is among its own proper ancestors. -/
def Acyclic (p : Program) : Prop :=
  ∀ t, ¬ OnCycle p.parent? t

/-- Every listed method has a receiver. -/
def HasReceivers (p : Program) : Prop :=
  ∀ c ∈ p.classes, ∀ m ∈ c.methods, m.params ≠ []

instance (p : Program) : Decidable p.HasReceivers :=
  inferInstanceAs (Decidable (∀ c ∈ p.classes, ∀ m ∈ c.methods, m.params ≠ []))

/-- The definition of a type is the first one with its name. -/
theorem find?_eq_some_iff {p : Program} {t : TypeName} {c : ClassDef} :
    p.find? t = some c ↔ c ∈ p.firstDefinitions ∧ c.name = t :=
  find?_firstsBy_eq_some

/-- A type has one definition that counts. -/
theorem eq_of_name_eq {p : Program} {c d : ClassDef} (hc : c ∈ p.firstDefinitions)
    (hd : d ∈ p.firstDefinitions) (hname : c.name = d.name) : c = d :=
  List.inj_on_of_nodup_map (nodup_map_firstsBy ClassDef.name p.classes) hc hd hname

/-- The parent of a type is the one that its first definition names. -/
theorem parent?_eq_some_iff {p : Program} {t u : TypeName} :
    p.parent? t = some u ↔ ∃ c ∈ p.firstDefinitions, c.name = t ∧ c.parent = some u := by
  simp only [parent?, Option.bind_eq_some_iff, find?_eq_some_iff, and_assoc]

theorem mem_classes_of_mem_firstDefinitions {p : Program} {c : ClassDef}
    (hc : c ∈ p.firstDefinitions) : c ∈ p.classes :=
  (firstsBy_sublist _ _).subset hc

/-- The children of a type are those whose parent it is. -/
theorem mem_children {p : Program} {c t : TypeName} : c ∈ p.children t ↔ p.parent? c = some t := by
  rw [parent?_eq_some_iff]
  simp only [children, List.mem_map, List.mem_filter, decide_eq_true_eq]
  constructor
  · rintro ⟨d, ⟨hd, hparent⟩, hname⟩
    exact ⟨d, hd, hname, hparent⟩
  · rintro ⟨d, hd, hname, hparent⟩
    exact ⟨d, ⟨hd, hparent⟩, hname⟩

/-- A type has one first definition, so it is listed once as a child. -/
theorem nodup_children (p : Program) (t : TypeName) : (p.children t).Nodup :=
  (nodup_map_firstsBy ClassDef.name p.classes).sublist (List.filter_sublist.map _)

/-- Only defined types have a parent. -/
theorem mem_of_parent? {p : Program} {t u : TypeName} (hparent : p.parent? t = some u) :
    t ∈ p.firstDefinitions.map ClassDef.name := by
  obtain ⟨c, hc, hname, -⟩ := parent?_eq_some_iff.mp hparent
  exact List.mem_map.mpr ⟨c, hc, hname⟩

/-- Where a number grows with every link, no link leads back. -/
theorem acyclic_of_rank {p : Program} (rank : TypeName → Nat)
    (hrank : ∀ c ∈ p.classes, ∀ parent ∈ c.parent, rank c.name < rank parent) : p.Acyclic := by
  have hstep : ∀ t u, p.parent? t = some u → rank t < rank u := by
    intro t u hparent
    obtain ⟨c, hc, rfl, hlisted⟩ := parent?_eq_some_iff.mp hparent
    exact hrank c (mem_classes_of_mem_firstDefinitions hc) u hlisted
  have hup : ∀ t u, Relation.TransGen (Linked p.parent?) t u → rank t < rank u := by
    intro t u htu
    induction htu with
    | single hlink => exact hstep _ _ hlink
    | tail _ hlink ih => exact Nat.lt_trans ih (hstep _ _ hlink)
  intro t hcycle
  exact Nat.lt_irrefl _ (hup t t hcycle)

/-- A later definition counts only where there was none before. -/
theorem find?_concat (cs : List ClassDef) (c : ClassDef) (t : TypeName) :
    find? ⟨cs ++ [c]⟩ t = (find? ⟨cs⟩ t).or (if c.name = t then some c else none) := by
  by_cases ht : c.name = t <;> simp [find?, ht]

/-- A type is found just if it is defined. -/
theorem find?_isSome_iff {p : Program} {t : TypeName} : (p.find? t).isSome ↔ t ∈ p.types := by
  simp [find?, types]

theorem find?_eq_none_iff {p : Program} {t : TypeName} : p.find? t = none ↔ t ∉ p.types := by
  rw [← Option.not_isSome_iff_eq_none, find?_isSome_iff]

/-- A second definition of a type is not a first one. -/
theorem firstDefinitions_of_later {cs : List ClassDef} {c : ClassDef}
    (hold : c.name ∈ cs.map ClassDef.name) :
    firstDefinitions ⟨cs ++ [c]⟩ = firstDefinitions ⟨cs⟩ := by
  rw [firstDefinitions, firstsBy_concat, if_pos hold]
  rfl

/-- A new type brings a first definition, which comes last. -/
theorem firstDefinitions_of_first {cs : List ClassDef} {c : ClassDef}
    (hnew : c.name ∉ cs.map ClassDef.name) :
    firstDefinitions ⟨cs ++ [c]⟩ = firstDefinitions ⟨cs⟩ ++ [c] := by
  rw [firstDefinitions, firstsBy_concat, if_neg hnew]
  rfl

end Program

namespace Hierarchy

/-- Every view of the hierarchy is what the definitions that count say. -/
structure Represents (h : Hierarchy) (p : Program) : Prop where
  classes : h.classes = p.firstDefinitions
  definition? : ∀ t, h.definition? t = p.find? t
  superclass? : ∀ t, h.superclass? t = p.parent? t
  subclasses : ∀ t, h.subclasses t = p.children t
  implementations : ∀ t, h.implementations t = p.firstDefinitions.flatMap fun c =>
    if c.isExtending h.options then [] else List.replicate (c.interfaces.count t) c.name
  subinterfaces : ∀ t, h.subinterfaces t = p.firstDefinitions.flatMap fun c =>
    if c.isExtending h.options then List.replicate (c.interfaces.count t) c.name else []

/-! ## Construction -/

/-- The hierarchy without links represents the program without classes. -/
theorem represents_empty (options : Options) : Represents { options } ⟨[]⟩ where
  classes := rfl
  definition? t := by simp [Hierarchy.definition?, Program.find?]
  superclass? t := by simp [Hierarchy.superclass?, Program.parent?, Program.find?]
  subclasses t := Links.successors_empty t
  implementations t := Links.successors_empty t
  subinterfaces t := Links.successors_empty t

/-- A later definition of a type says nothing. -/
theorem represents_add_later {h : Hierarchy} {cs : List ClassDef} {c : ClassDef}
    (hr : h.Represents ⟨cs⟩) (hold : c.name ∈ cs.map ClassDef.name) :
    (h.add c).Represents ⟨cs ++ [c]⟩ := by
  have hfound : ((Program.mk cs).find? c.name).isSome := Program.find?_isSome_iff.mpr hold
  have hfirsts := Program.firstDefinitions_of_later hold
  have hfind : ∀ t, Program.find? ⟨cs ++ [c]⟩ t = Program.find? ⟨cs⟩ t := by
    intro t
    rw [Program.find?_concat]
    by_cases ht : c.name = t
    · -- the earlier definition of the type is found first
      subst ht
      obtain ⟨d, hd⟩ := Option.isSome_iff_exists.mp hfound
      rw [hd, Option.some_or]
    · rw [if_neg ht, Option.or_none]
  rw [add_of_defined (by rwa [hr.definition?])]
  exact {
    classes := by rw [hfirsts]; exact hr.classes
    definition? := fun t => by rw [hfind]; exact hr.definition? t
    superclass? := fun t => by rw [Program.parent?, hfind]; exact hr.superclass? t
    subclasses := fun t => by rw [Program.children, hfirsts]; exact hr.subclasses t
    implementations := fun t => by rw [hfirsts]; exact hr.implementations t
    subinterfaces := fun t => by rw [hfirsts]; exact hr.subinterfaces t }

/-- The first definition of a type comes after the others in every view. -/
theorem represents_add_first {h : Hierarchy} {cs : List ClassDef} {c : ClassDef}
    (hr : h.Represents ⟨cs⟩) (hnew : c.name ∉ cs.map ClassDef.name) :
    (h.add c).Represents ⟨cs ++ [c]⟩ := by
  have hmissing : Program.find? ⟨cs⟩ c.name = none := Program.find?_eq_none_iff.mpr hnew
  have hundefined : h.definition? c.name = none := by rw [hr.definition?, hmissing]
  have hfirsts := Program.firstDefinitions_of_first hnew
  have hfind : ∀ t, Program.find? ⟨cs ++ [c]⟩ t
      = if c.name = t then some c else Program.find? ⟨cs⟩ t := by
    intro t
    rw [Program.find?_concat]
    by_cases ht : c.name = t
    · subst ht
      rw [hmissing, if_pos rfl, Option.none_or]
    · rw [if_neg ht, if_neg ht, Option.or_none]
  -- in every view the new definition has its share at the end
  constructor
  · rw [classes_add hundefined, hr.classes, hfirsts]
  · intro t
    rw [definition?_add hundefined, hr.definition?, hfind]
  · intro t
    rw [superclass?_add hundefined, hr.superclass?, Program.parent?, Program.parent?, hfind]
    by_cases ht : c.name = t
    · subst ht
      simp [hmissing]
    · rw [if_neg ht, if_neg ht]
  · intro t
    rw [subclasses_add hundefined, hr.subclasses, Program.children, Program.children, hfirsts,
      List.filter_append, List.map_append]
    by_cases hparent : c.parent = some t <;> simp [hparent]
  · intro t
    rw [implementations_add hundefined, hr.implementations, options_add hundefined, hfirsts,
      List.flatMap_append, List.flatMap_singleton]
  · intro t
    rw [subinterfaces_add hundefined, hr.subinterfaces, options_add hundefined, hfirsts,
      List.flatMap_append, List.flatMap_singleton]

/-- With one more definition the hierarchy represents the program with it. -/
theorem represents_add {h : Hierarchy} {cs : List ClassDef} (hr : h.Represents ⟨cs⟩)
    (c : ClassDef) : (h.add c).Represents ⟨cs ++ [c]⟩ := by
  by_cases hold : c.name ∈ cs.map ClassDef.name
  · exact represents_add_later hr hold
  · exact represents_add_first hr hold

/-- So it is with any number of definitions. -/
theorem represents_foldl {h : Hierarchy} {cs : List ClassDef} (hr : h.Represents ⟨cs⟩)
    (ds : List ClassDef) : (ds.foldl add h).Represents ⟨cs ++ ds⟩ := by
  induction ds generalizing h cs with
  | nil => simpa using hr
  | cons d ds ih =>
    have hrest := ih (represents_add hr d)
    rwa [List.append_assoc, List.singleton_append] at hrest

/-- A hierarchy represents the program that it was built from. -/
theorem represents_build (p : Program) (options : Options) : (build p options).Represents p :=
  represents_foldl (represents_empty options) p.classes

/-! ## Links -/

namespace Represents

variable {h : Hierarchy} {p : Program} (hr : h.Represents p)
include hr

/-- The size of a hierarchy is the number of defined types. -/
theorem size_eq : h.size = p.firstDefinitions.length := by
  rw [← hr.classes]
  rfl

/-- The parents of a hierarchy are those of the program. -/
theorem superclass?_eq : h.superclass? = p.parent? :=
  funext hr.superclass?

/-- The implementors of an interface list it, and do not extend. -/
theorem mem_implementations_iff {t u : TypeName} : u ∈ h.implementations t ↔ ∃ c ∈ p.firstDefinitions,
    c.name = u ∧ t ∈ c.interfaces ∧ c.isExtending h.options = false := by
  rw [hr.implementations, List.mem_flatMap]
  refine exists_congr fun c => and_congr_right fun _ => ?_
  cases c.isExtending h.options with
  | true => simp
  | false => simp [List.mem_replicate, List.count_eq_zero, eq_comm, and_comm]

/-- The subinterfaces of an interface list it, and extend. -/
theorem mem_subinterfaces_iff {t u : TypeName} : u ∈ h.subinterfaces t ↔ ∃ c ∈ p.firstDefinitions,
    c.name = u ∧ t ∈ c.interfaces ∧ c.isExtending h.options = true := by
  rw [hr.subinterfaces, List.mem_flatMap]
  refine exists_congr fun c => and_congr_right fun _ => ?_
  cases c.isExtending h.options with
  | true => simp [List.mem_replicate, List.count_eq_zero, eq_comm, and_comm]
  | false => simp

end Represents

/-! ## The hierarchy that was built -/

theorem options_foldl (h : Hierarchy) (cs : List ClassDef) : (cs.foldl add h).options = h.options := by
  induction cs generalizing h with
  | nil => rfl
  | cons c cs ih =>
    have hadd : (h.add c).options = h.options := by
      unfold add
      split <;> rfl
    rw [List.foldl_cons, ih, hadd]

/-- A hierarchy keeps the options that it was built with. -/
theorem options_build (p : Program) (options : Options) : (build p options).options = options :=
  options_foldl _ _

/-- What a test leaves out of a list contributes nothing. -/
theorem flatMap_filter {α β : Type} (test : α → Bool) (f : α → List β) (xs : List α) :
    (xs.filter test).flatMap f = xs.flatMap fun x => if test x then f x else [] := by
  induction xs with
  | nil => rfl
  | cons x xs ih =>
    rw [List.flatMap_cons, List.filter_cons, ← ih]
    cases test x <;> simp

/-- The hierarchy is what the definitions that count say under the options, and nothing else. -/
structure IsIndexOf (h : Hierarchy) (p : Program) (options : Options) : Prop where
  classes : h.classes = p.firstDefinitions
  /-- The definition of a type is the one that a search through the program comes to first. -/
  defined : ∀ t c, h.definition? t = some c ↔ p.classNamed t = .ok c
  undefined : ∀ t, h.definition? t = none ↔ p.classNamed t = .error (.typeNotFound t)
  superclass? : ∀ t, h.superclass? t = (p.firstDefinitions.find? (·.name = t)).bind ClassDef.parent
  subclasses : ∀ t, h.subclasses t
    = (p.firstDefinitions.filter (·.parent = some t)).map ClassDef.name
  /-- An implementor is listed as often as it lists the interface. -/
  implementations : ∀ t, h.implementations t
    = (p.firstDefinitions.filter fun c => !(c.isInterface && options.interfaceExtension)).flatMap
        fun c => List.replicate (c.interfaces.count t) c.name
  subinterfaces : ∀ t, h.subinterfaces t
    = if options.interfaceExtension then
        (p.firstDefinitions.filter ClassDef.isInterface).flatMap
          fun c => List.replicate (c.interfaces.count t) c.name
      else []
  /-- Children and parents are the two ends of the same links. -/
  inverse : ∀ c t, c ∈ h.subclasses t ↔ h.superclass? c = some t

/-- Whatever the program, its hierarchy has the first definition of every type in all views, and no
later one in any. -/
theorem build_isIndexOf (p : Program) (options : Options) :
    (build p options).IsIndexOf p options := by
  have hr := represents_build p options
  have hoptions := options_build p options
  constructor
  case classes => exact hr.classes
  case defined =>
    intro t c
    rw [hr.definition?, Program.classNamed]
    cases p.find? t <;> simp
  case undefined =>
    intro t
    rw [hr.definition?, Program.classNamed]
    cases p.find? t <;> simp
  case superclass? =>
    intro t
    have hfind : p.firstDefinitions.find? (·.name = t) = p.find? t := find?_firstsBy
    rw [hr.superclass?, Program.parent?, hfind]
  case subclasses =>
    intro t
    rw [hr.subclasses, Program.children]
  case implementations =>
    intro t
    rw [hr.implementations, hoptions, flatMap_filter]
    refine List.flatMap_congr fun c _ => ?_
    rw [ClassDef.isExtending]
    cases c.isInterface && options.interfaceExtension <;> rfl
  case subinterfaces =>
    intro t
    rw [hr.subinterfaces, hoptions]
    cases hextension : options.interfaceExtension with
    | true => simp [ClassDef.isExtending, hextension, flatMap_filter]
    | false => simp [ClassDef.isExtending, hextension]
  case inverse =>
    intro c t
    rw [hr.subclasses, hr.superclass?]
    exact Program.mem_children

end Hierarchy

end ClassHierarchy

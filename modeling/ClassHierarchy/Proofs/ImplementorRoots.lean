import ClassHierarchy.Proofs.Searches

/-!
# The roots of the search for implementors

The roots are collected twice. A scan over all definitions tests which of them list the type, and the
links, which were made when the hierarchy was built, are followed from the type. Both ways put the same
types first and in the same order, so the second way alone gives the roots.

* `distinct_flatMap_replicate`: a type that lists an interface several times is linked as often. Without
  these repetitions the links are what a scan finds (`scanImplementors_eq_distinct`).
* `allImplementations_eq_append`: the search through interfaces starts with the direct implementors.
* `implementorRoots_of_literal`, `implementorRoots_of_extension`: the roots in terms of the links alone.
-/

namespace ClassHierarchy

variable {p : Program} {t u : TypeName} {ts : List TypeName}

/-! ## Repetitions -/

namespace TypeName

/-- A name that is repeated at the front is kept once. -/
theorem fresh_replicate_append {seen : TypeSet} (hnew : t ∉ seen) (n : Nat) (us : List TypeName) :
    fresh seen (List.replicate (n + 1) t ++ us) = t :: fresh (seen.insert t) us := by
  have hrepeated : ∀ u ∈ List.replicate n t, u ∈ seen.insert t := by
    intro u hu
    exact mem_insert.mpr (.inl (List.eq_of_mem_replicate hu))
  rw [List.replicate_succ, List.cons_append, fresh, if_neg (by simpa using hnew),
    fresh_append_of_mem hrepeated]

/-- Names that are repeated for each definition are kept once, for the definitions that repeat
theirs at all. -/
theorem fresh_flatMap_replicate {seen : TypeSet} {cs : List ClassDef} (times : ClassDef → Nat)
    (hnodup : (cs.map ClassDef.name).Nodup) (hnew : ∀ c ∈ cs, c.name ∉ seen) :
    fresh seen (cs.flatMap fun c => List.replicate (times c) c.name)
      = (cs.filter fun c => times c ≠ 0).map ClassDef.name := by
  induction cs generalizing seen with
  | nil => rfl
  | cons c cs ih =>
    rcases List.nodup_cons.mp hnodup with ⟨honce, hnodup⟩
    rcases List.forall_mem_cons.mp hnew with ⟨hc, hnew⟩
    rw [List.flatMap_cons]
    cases htimes : times c with
    | zero =>
      rw [List.filter_cons_of_neg (by simpa using htimes)]
      exact ih hnodup hnew
    | succ n =>
      -- no later definition has the name of this one
      have hrest : ∀ d ∈ cs, d.name ∉ seen.insert c.name := by
        intro d hd hmem
        rcases mem_insert.mp hmem with hname | hmem
        · exact honce (hname ▸ List.mem_map_of_mem hd)
        · exact hnew d hd hmem
      rw [fresh_replicate_append hc, ih hnodup hrest, List.filter_cons_of_pos (by simp [htimes]),
        List.map_cons]

theorem distinct_flatMap_replicate {cs : List ClassDef} (times : ClassDef → Nat)
    (hnodup : (cs.map ClassDef.name).Nodup) :
    distinct (cs.flatMap fun c => List.replicate (times c) c.name)
      = (cs.filter fun c => times c ≠ 0).map ClassDef.name :=
  fresh_flatMap_replicate times hnodup (by simp)

/-- What comes after a list is kept unless the list has it. -/
theorem distinct_append (ts us : List TypeName) :
    distinct (ts ++ us) = distinct ts ++ fresh (.ofList ts) us :=
  fresh_append (by simp) us

/-- At the end of a list without repetition, a name is kept if it is new. -/
theorem distinct_append_if (hnodup : ts.Nodup) (condition : Bool) (t : TypeName) :
    distinct (ts ++ if condition then [t] else []) = ts ++ if condition ∧ t ∉ ts then [t] else [] := by
  have hsame : distinct ts = ts := fresh_eq_self hnodup (by simp)
  rw [distinct_append, hsame]
  cases condition with
  | false => simp [fresh]
  | true =>
    by_cases ht : t ∈ ts
    · simp [fresh, ht]
    · simp [fresh, ht]

end TypeName

namespace Hierarchy

variable {h : Hierarchy}

/-! ## Scan and links -/

/-- The search through interfaces comes to the direct implementors first. -/
theorem allImplementations_eq_append (h : Hierarchy) (t : TypeName) :
    ∃ farther, h.allImplementations t = TypeName.distinct (h.implementations t) ++ farther := by
  rw [allImplementations, levels, List.flatten_cons, List.flatMap_append, List.flatMap_singleton,
    TypeName.distinct_append]
  exact ⟨_, rfl⟩

section Represents

variable (hr : h.Represents p)
include hr

/-- The scan finds what is linked, each type once. -/
theorem scanImplementors_eq_distinct (t : TypeName) :
    h.scanImplementors t = TypeName.distinct (h.implementations t) := by
  have hlinks : h.implementations t = p.firstDefinitions.flatMap fun c =>
      List.replicate (if c.isExtending h.options then 0 else c.interfaces.count t) c.name := by
    rw [hr.implementations]
    refine List.flatMap_congr fun c _ => ?_
    split <;> rfl
  have hnodup : (p.firstDefinitions.map ClassDef.name).Nodup := nodup_map_firstsBy _ p.classes
  rw [scanImplementors_eq hr, hlinks, TypeName.distinct_flatMap_replicate _ hnodup]
  congr 1
  refine List.filter_congr fun c _ => ?_
  cases c.isExtending h.options with
  | true => simp
  | false => simp [List.count_eq_zero]

/-- Taken literally, interfaces are implemented by what is linked to them, and by nothing else. -/
theorem implementorRoots_of_literal (hliteral : h.options.interfaceExtension = false) (t : TypeName) :
    let direct := TypeName.distinct (h.implementations t)
    h.implementorRoots t = direct ++ if h.isClass t ∧ t ∉ direct then [t] else [] := by
  intro direct
  rw [implementorRoots, scanImplementors_eq_distinct hr, hliteral, if_neg Bool.false_ne_true,
    List.append_nil]
  exact TypeName.distinct_append_if (TypeName.nodup_distinct _) _ t

/-- Where extension is modelled, the scan adds nothing to what the search through interfaces finds, and
does not change the order. -/
theorem implementorRoots_of_extension (hextension : h.options.interfaceExtension = true)
    (t : TypeName) : h.implementorRoots t
      = h.allImplementations t ++ if h.isClass t ∧ t ∉ h.allImplementations t then [t] else [] := by
  have hnodup : (h.allImplementations t).Nodup := TypeName.nodup_distinct _
  rcases allImplementations_eq_append h t with ⟨farther, happend⟩
  rw [← TypeName.distinct_append_if hnodup, implementorRoots, scanImplementors_eq_distinct hr,
    hextension, if_pos rfl]
  -- the direct implementors come twice, and both times before all others
  rw [happend, ← List.append_assoc, List.append_assoc (_ ++ _),
    TypeName.distinct_append_of_subset fun _ hu => hu, List.append_assoc]

/-- A root is defined, and where extension is modelled it is no interface. -/
theorem definition?_of_mem_implementorRoots (hu : u ∈ h.implementorRoots t) :
    ∃ c, h.definition? u = some c ∧ (h.options.interfaceExtension → ¬ c.isInterface) := by
  have himplements : ∀ v, u ∈ h.implementations v →
      ∃ c, h.definition? u = some c ∧ (h.options.interfaceExtension → ¬ c.isInterface) := by
    intro v hu
    rcases hr.mem_implementations_iff.mp hu with ⟨c, hc, hname, -, hextending⟩
    refine ⟨c, ?_, ?_⟩
    · rw [hr.definition?]
      exact Program.find?_eq_some_iff.mpr ⟨hc, hname⟩
    · intro hextension
      simpa [ClassDef.isExtending, hextension] using hextending
  rcases (mem_implementorRoots hr).mp hu with hdirect | ⟨-, hindirect⟩ | ⟨hclass, rfl⟩
  · exact himplements t hdirect
  · rcases mem_allImplementations.mp hindirect with ⟨v, -, hu⟩
    exact himplements v hu
  · rcases (Option.any_eq_true _ _).mp hclass with ⟨c, hc, hinterface⟩
    exact ⟨c, hc, fun _ => by simpa using hinterface⟩

end Represents

/-- Whether the scan is shared or not, it finds the direct implementors, each once. The roots are these,
or all implementors where extension is modelled, and after them the type itself if it is a class and
not among them. -/
theorem roots_agree_with_links (p : Program) (options : Options) (t : TypeName) :
    let h := build p options
    let direct := (h.implementations t).eraseDups
    let implementors := if options.interfaceExtension then h.allImplementations t else direct
    h.scanImplementors t = direct
    ∧ h.implementorRoots t
      = implementors ++ (if h.isClass t ∧ t ∉ implementors then [t] else [])
    ∧ (h.implementorRoots t).Nodup
    ∧ ∀ u ∈ h.implementorRoots t, ∃ c ∈ h.classes, c.name = u ∧ h.definition? u = some c
      ∧ (options.interfaceExtension → ¬ c.isInterface) := by
  intro h direct implementors
  have hr : h.Represents p := represents_build p options
  have hoptions : h.options = options := options_build p options
  have hdirect : TypeName.distinct (h.implementations t) = direct :=
    TypeName.distinct_eq_eraseDups _
  refine ⟨?_, ?_, TypeName.nodup_distinct _, ?_⟩
  · rw [scanImplementors_eq_distinct hr, hdirect]
  · cases hextension : options.interfaceExtension with
    | false =>
      have himplementors : implementors = direct := by simp [implementors, hextension]
      rw [implementorRoots_of_literal hr (hoptions ▸ hextension), hdirect, himplementors]
    | true =>
      have himplementors : implementors = h.allImplementations t := by
        simp [implementors, hextension]
      rw [implementorRoots_of_extension hr (hoptions ▸ hextension), himplementors]
  · intro u hu
    rcases definition?_of_mem_implementorRoots hr hu with ⟨c, hc, hclass⟩
    have hfirst := hc
    rw [hr.definition?, Program.find?_eq_some_iff, ← hr.classes] at hfirst
    exact ⟨c, hfirst.1, hfirst.2, hc, hoptions ▸ hclass⟩

end Hierarchy

end ClassHierarchy

import ClassHierarchy.Hierarchy.Walks

/-!
# Implementors

A type implements an interface if it lists the interface, or if it lists a type that implements or
extends it. The search for all of them goes level by level: the types of one level are those linked to a
type of the level before and to no earlier one, so a type stands at its distance from the start. Cycles
do no harm, as no type is visited twice.

The search for all methods that answer a signature in the implementors of a type starts at the
roots: the types that list the name as an interface, those that implement it indirectly when
interface extension is modelled, and the named type itself if it is a class. From each root it goes
down through all subclasses; types reached from several roots, or more than once on a cycle of
parents, are visited once.
-/

namespace ClassHierarchy

/-! ## Transitive implementations -/

namespace Hierarchy

/-- The types that list a type as an interface, implementations before extensions. -/
def listers (h : Hierarchy) (t : TypeName) : List TypeName :=
  h.implementations t ++ h.subinterfaces t

/-- The types that list some type as an interface. -/
def allListers (h : Hierarchy) : List TypeName :=
  h.implementors.targets ++ h.extensions.targets

/-- Who lists some interface is among all that list one. -/
theorem mem_allListers {h : Hierarchy} {t u : TypeName} (hlisted : u ∈ h.listers t) :
    u ∈ h.allListers := by
  simp only [listers, implementations, subinterfaces, List.mem_append] at hlisted
  exact List.mem_append.mpr (hlisted.imp Links.mem_targets Links.mem_targets)

/-- The levels of the search: `level` and what is linked to it, directly and indirectly, outside
`visited`. The search ends because every level but the last visits a lister for the first time. -/
def levels (h : Hierarchy) (visited : TypeSet) : List TypeName → List (List TypeName)
  | [] => []
  | t :: ts =>
    let next := TypeName.fresh visited ((t :: ts).flatMap h.listers)
    (t :: ts) :: h.levels (visited.insertMany next) next
termination_by level => (TypeName.countOutside visited h.allListers, level.length)
decreasing_by
  cases hfound : TypeName.fresh visited ((t :: ts).flatMap h.listers) with
  | nil => exact Prod.Lex.right _ (by simp)
  | cons u us =>
    have hfresh : u ∈ (t :: ts).flatMap h.listers ∧ u ∉ visited := by
      rw [← TypeName.mem_fresh, hfound]
      simp
    obtain ⟨v, -, hlists⟩ := List.mem_flatMap.mp hfresh.1
    apply Prod.Lex.left
    apply TypeName.countOutside_lt (t := u)
    · intro w hw
      exact Std.TreeSet.mem_insertMany_list.mpr (.inl hw)
    · exact mem_allListers hlists
    · exact hfresh.2
    · simp

/-- Every type that implements an interface directly or through the types that list it, each once, in
the order of discovery. Interfaces that only extend it are passed through and left out. Subclasses
are left out too: see `allSubclasses`. -/
def allImplementations (h : Hierarchy) (t : TypeName) : List TypeName :=
  TypeName.distinct ((h.levels (.ofList [t]) [t]).flatten.flatMap h.implementations)

end Hierarchy

/-! ## Scans -/

/-- The members of a list that pass a test, both halves tested at the same time. -/
def filterShared {α : Type} (test : α → Bool) (xs : List α) : List α :=
  let rest := Task.spawn fun _ => (xs.drop (xs.length / 2)).filter test
  (xs.take (xs.length / 2)).filter test ++ rest.get

/-- Sharing the work does not change the result. -/
@[simp] theorem filterShared_eq_filter {α : Type} (test : α → Bool) (xs : List α) :
    filterShared test xs = xs.filter test := by
  show (xs.take _).filter test ++ (xs.drop _).filter test = xs.filter test
  rw [← List.filter_append, List.take_append_drop]

namespace Hierarchy

/-! ## Roots -/

/-- The types that list an interface and implement it, found by a scan over all definitions. -/
def scanImplementors (h : Hierarchy) (t : TypeName) : List TypeName :=
  let test := fun c : ClassDef => !c.isExtending h.options && c.interfaces.contains t
  let found :=
    if h.options.scanThreshold ≤ h.size then filterShared test h.classes
    else h.classes.filter test
  found.map ClassDef.name

/-- The type is defined and is not an interface. -/
def isClass (h : Hierarchy) (t : TypeName) : Bool :=
  (h.definition? t).any (!·.isInterface)

/-- The types from which the search for implementors of a type goes down, each once. -/
def implementorRoots (h : Hierarchy) (t : TypeName) : List TypeName :=
  let indirect := if h.options.interfaceExtension then h.allImplementations t else []
  let itself := if h.isClass t then [t] else []
  TypeName.distinct (h.scanImplementors t ++ indirect ++ itself)

/-! ## Descent -/

/-- The types of the stack, top first, each followed by its transitive subclasses, without those in
`visited` and without repetition. The descent ends because a type puts its subclasses on the stack
at its first visit only. -/
def descend (h : Hierarchy) (visited : TypeSet) : List TypeName → List TypeName
  | [] => []
  | t :: stack =>
    if _ : visited.contains t then
      h.descend visited stack
    else
      t :: h.descend (visited.insert t) (h.subclasses t ++ stack)
termination_by stack => (TypeName.countOutside visited h.children.sources, stack.length)
decreasing_by
  · exact Prod.Lex.right _ (by simp)
  · have hunseen : ¬visited.contains t = true := by assumption
    have hnew : t ∉ visited := by simpa using hunseen
    have hgrows : ∀ u ∈ visited, u ∈ visited.insert t := by
      intro u hu
      exact Std.TreeSet.mem_insert.mpr (.inr hu)
    by_cases hsource : t ∈ h.children.sources
    · exact Prod.Lex.left _ _ (TypeName.countOutside_lt hgrows hsource hnew (by simp))
    · -- a type without subclasses leaves a shorter stack and the same types to visit
      rw [TypeName.countOutside_insert hsource, subclasses, Links.successors_eq_nil hsource]
      exact Prod.Lex.right _ (by simp)

/-- The types of the search for implementors, in the order of visit. -/
def implementorTypes (h : Hierarchy) (t : TypeName) : List TypeName :=
  h.descend ∅ (h.implementorRoots t)

/-- All methods that a type itself lists for a signature. -/
def declaredAll (h : Hierarchy) (t : TypeName) (s : Signature) : Except Fault (List Method) :=
  match h.definition? t with
  | some c => c.methodsAnswering s
  | none => .ok []

/-- All methods that answer a signature in the implementors of a type. -/
def implementationsOf (h : Hierarchy) (t : TypeName) (s : Signature) :
    Except Fault (List Method) :=
  List.flatten <$> (h.implementorTypes t).mapM (h.declaredAll · s)

end Hierarchy

end ClassHierarchy

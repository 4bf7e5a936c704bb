import ClassHierarchy.Proofs.Counts
import ClassHierarchy.Session.Basic
import Mathlib.Algebra.BigOperators.Group.Finset.Basic

/-!
# The counts of a hierarchy balance

The counts of a hierarchy are the sizes of different structures: the list of the definitions that count,
a map from types to their parents, and the lists of links under each type. They fit together because
every definition is either skipped, with a warning, or brings just the links that it names.

* `size_add`, `size_build`: every definition counts or is skipped.
* `length_subclasses`, `length_implementations`, `length_subinterfaces`: there are as many links under a
  type as the definitions name it, repetitions included.
* `sum_count_eq_length`: summing these over the types that are named counts every name once.
* `balance_build`: the equations between the counts, of every hierarchy that was built.
-/

namespace ClassHierarchy

namespace Hierarchy

variable {h : Hierarchy} {p : Program}

/-! ## Definitions -/

/-- A definition that is read counts or is skipped. -/
theorem size_add (h : Hierarchy) (c : ClassDef) :
    (h.add c).size + (h.add c).skipped.size = h.size + h.skipped.size + 1 := by
  unfold add size
  split
  · simp only [Array.size_push]
    omega
  · simp only [Array.size_push]
    omega

/-- Every definition is entered or skipped. -/
theorem size_foldl (h : Hierarchy) (cs : List ClassDef) :
    (cs.foldl add h).size + (cs.foldl add h).skipped.size = h.size + h.skipped.size + cs.length := by
  induction cs generalizing h with
  | nil => rfl
  | cons c cs ih =>
    rw [List.foldl_cons, ih, size_add, List.length_cons]
    omega

/-- Entered and skipped definitions are all definitions of the program. -/
theorem size_build (p : Program) (options : Options) :
    (build p options).size + (build p options).skipped.size = p.classes.length := by
  rw [build, size_foldl]
  exact Nat.zero_add _

/-! ## Links -/

/-- The types that some definition names as its parent. -/
def parentTypes (h : Hierarchy) : Finset TypeName :=
  (h.classes.filterMap ClassDef.parent).toFinset

/-- The types that some definition lists as an interface. -/
def listedTypes (h : Hierarchy) : Finset TypeName :=
  (h.classes.flatMap ClassDef.interfaces).toFinset

/-- Members counted by what they are add up to the length. -/
theorem sum_count_eq_length {types : Finset TypeName} {ts : List TypeName}
    (hmem : ∀ t ∈ ts, t ∈ types) : ∑ t ∈ types, ts.count t = ts.length := by
  have hcard := Multiset.sum_count_eq_card (s := types) (m := (ts : Multiset TypeName)) hmem
  simpa using hcard

/-- The types listed by the definitions that pass a test are all counted at the types that are listed. -/
theorem sum_count_listed (hr : h.Represents p) (test : ClassDef → Bool) :
    ∑ t ∈ h.listedTypes, ((h.classes.filter test).flatMap ClassDef.interfaces).count t
      = p.listings test := by
  rw [sum_count_eq_length, List.length_flatMap, Program.listings, hr.classes]
  intro t ht
  obtain ⟨c, hc, hlisted⟩ := List.mem_flatMap.mp ht
  rw [listedTypes, List.mem_toFinset]
  exact List.mem_flatMap.mpr ⟨c, (List.mem_filter.mp hc).1, hlisted⟩

/-- A definition that passes the test has a link for every time that it lists the type. -/
theorem length_links (cs : List ClassDef) (test : ClassDef → Bool) (t : TypeName) :
    (cs.flatMap fun c => if test c then List.replicate (c.interfaces.count t) c.name else []).length
      = ((cs.filter test).flatMap ClassDef.interfaces).count t := by
  induction cs with
  | nil => rfl
  | cons c cs ih =>
    rw [List.flatMap_cons, List.length_append, ih]
    cases htest : test c <;> simp [htest]

section Represents

variable (hr : h.Represents p)
include hr

/-- A type has a subtype for every definition that names it as the parent. -/
theorem length_subclasses (t : TypeName) :
    (h.subclasses t).length = (h.classes.filterMap ClassDef.parent).count t := by
  rw [hr.subclasses, hr.classes, Program.children, List.length_map, ← List.countP_eq_length_filter,
    List.count_filterMap]
  simp only [beq_eq_decide]

/-- An interface has an implementor for every time that a definition which does not extend lists it.
-/
theorem length_implementations (t : TypeName) : (h.implementations t).length
    = ((h.classes.filter fun c => !c.isExtending h.options).flatMap ClassDef.interfaces).count t := by
  rw [hr.implementations, hr.classes, ← length_links]
  simp only [Bool.not_eq_true', ← Bool.not_eq_true, ite_not]

/-- An interface has a subinterface for every time that a definition which extends lists it. -/
theorem length_subinterfaces (t : TypeName) : (h.subinterfaces t).length
    = ((h.classes.filter fun c => c.isExtending h.options).flatMap ClassDef.interfaces).count t := by
  rw [hr.subinterfaces, hr.classes, ← length_links]

/-- All subtypes together are the definitions with a parent. -/
theorem sum_length_subclasses : ∑ t ∈ h.parentTypes, (h.subclasses t).length
    = p.firstDefinitions.countP (·.parent.isSome) := by
  have hnamed : ∀ t ∈ h.classes.filterMap ClassDef.parent, t ∈ h.parentTypes :=
    fun t ht => List.mem_toFinset.mpr ht
  simp only [length_subclasses hr]
  rw [sum_count_eq_length hnamed, List.length_filterMap_eq_countP, hr.classes]

/-- All implementors together are the listings by definitions that do not extend. -/
theorem sum_length_implementations : ∑ t ∈ h.listedTypes, (h.implementations t).length
    = p.listings fun c => !c.isExtending h.options := by
  simp only [length_implementations hr]
  exact sum_count_listed hr _

/-- All subinterfaces together are the listings by definitions that extend. -/
theorem sum_length_subinterfaces : ∑ t ∈ h.listedTypes, (h.subinterfaces t).length
    = p.listings fun c => c.isExtending h.options := by
  simp only [length_subinterfaces hr]
  exact sum_count_listed hr _

end Represents

end Hierarchy

/-! ## Counts -/

namespace Program

/-- A definition is a root or inherits. -/
theorem roots_add_inheritance (p : Program) (options : Options) :
    (p.counts options).classes = (p.counts options).roots + (p.counts options).inheritance := by
  have hsplit := List.length_eq_countP_add_countP (l := p.firstDefinitions) (·.parent.isNone)
  simpa only [counts, Bool.not_eq_true, Option.isNone_eq_false_iff, Bool.decide_eq_true] using hsplit

/-- A listed interface is implemented or extended. -/
theorem implementation_add_extension (p : Program) (options : Options) :
    (p.counts options).implementation + (p.counts options).extension
      = (p.firstDefinitions.map (·.interfaces.length)).sum := by
  have hperm := List.filter_append_perm (fun c => c.isExtending options) p.firstDefinitions
  rw [Nat.add_comm, counts, listings, listings, ← List.sum_append, ← List.map_append]
  exact (hperm.map _).sum_eq

/-- Only interfaces extend, and only if extension is modelled. -/
theorem extension_eq (p : Program) (options : Options) :
    (p.counts options).extension
      = if options.interfaceExtension then p.listings ClassDef.isInterface else 0 := by
  rw [counts]
  cases hextension : options.interfaceExtension <;> simp [listings, ClassDef.isExtending, hextension]

end Program

/-! ## Events -/

namespace Hierarchy

/-- Every skipped definition is reported. -/
theorem length_duplicates (p : Program) (h : Hierarchy) :
    ((h.buildEvents p).filter (·.message = "duplicate class definition skipped")).length
      = h.skipped.size := by
  have hskipped : (h.skipped.toList.map Event.skipped).filter
      (·.message = "duplicate class definition skipped") = h.skipped.toList.map Event.skipped :=
    List.filter_eq_self.mpr (by simp [Event.message])
  rw [buildEvents, List.filter_append, List.filter_cons, hskipped]
  simp [Event.message]

/-- That the hierarchy was built is reported once, with its counts. -/
theorem filter_built (p : Program) (h : Hierarchy) :
    (h.buildEvents p).filter (·.message = "built class hierarchy index") = [.built h.counts] := by
  simp [buildEvents, Event.message]

end Hierarchy

/-- How the numbers of a hierarchy hang together, with each other, with what the views of the hierarchy
list, and with the events of its construction. -/
structure Counts.Balance (counts : Counts) (h : Hierarchy) (p : Program) (events : List Event) :
    Prop where
  /-- Every definition of the program counts, or a warning was emitted for it. -/
  definitions : counts.classes
    + (events.filter (·.message = "duplicate class definition skipped")).length = p.classes.length
  parents : counts.classes = counts.roots + counts.inheritance
  subclasses : counts.inheritance = ∑ t ∈ h.parentTypes, (h.subclasses t).length
  interfaces : counts.implementation + counts.extension
    = (h.classes.map (·.interfaces.length)).sum
  extension : counts.extension = if h.options.interfaceExtension
    then ((h.classes.filter ClassDef.isInterface).map (·.interfaces.length)).sum else 0
  implementations : counts.implementation = ∑ t ∈ h.listedTypes, (h.implementations t).length
  subinterfaces : counts.extension = ∑ t ∈ h.listedTypes, (h.subinterfaces t).length
  /-- The counts are reported once, as they are. -/
  reported : events.filter (·.message = "built class hierarchy index") = [.built counts]

/-- The counts of a built hierarchy balance: against its links, against the definitions of the
program, and against what was reported. -/
theorem Hierarchy.balance_build (p : Program) (options : Options) :
    (build p options).counts.Balance (build p options) p ((build p options).buildEvents p) := by
  have hr := represents_build p options
  have hcounts := counts_build p options
  have hoptions := options_build p options
  constructor
  case definitions =>
    rw [length_duplicates]
    exact size_build p options
  case parents =>
    rw [hcounts]
    exact p.roots_add_inheritance options
  case subclasses =>
    rw [hcounts, sum_length_subclasses hr]
    rfl
  case interfaces =>
    rw [hcounts, hr.classes]
    exact p.implementation_add_extension options
  case extension =>
    rw [hcounts, hoptions, hr.classes]
    exact p.extension_eq options
  case implementations =>
    rw [hcounts, sum_length_implementations hr, hoptions]
    rfl
  case subinterfaces =>
    rw [hcounts, sum_length_subinterfaces hr, hoptions]
    rfl
  case reported => exact filter_built p _

namespace Session

/-- The statistics of a session balance from its start on, whatever has been remembered since. -/
theorem edge_counts_balance (p : Program) (options : Options) (memo : Memo) :
    let session := start p options
    ∃ stats : Stats, ({ session with memo }.step .stats).1.result = .ok (.stats stats)
      ∧ session.hierarchy.options = options
      ∧ stats.toCounts.Balance session.hierarchy p session.events.toList := by
  refine ⟨Stats.of (Hierarchy.build p options) memo, rfl, Hierarchy.options_build p options, ?_⟩
  exact Hierarchy.balance_build p options

end Session

end ClassHierarchy

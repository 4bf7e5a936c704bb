import ClassHierarchy.Hierarchy.Basic

/-!
# Reading one definition

What `Hierarchy.add` does to each view of a hierarchy. A definition of a type that has one already
is only noted as skipped (`add_of_defined`). Any other definition extends every view by what it says
itself:

* `definition?_add`, `superclass?_add`: the type gets its definition and, if it names one, its
  parent;
* `subclasses_add`: the type comes last among the subclasses of its parent;
* `implementations_add`, `subinterfaces_add`: it comes last, once for every time it lists the
  interface, among the implementations or among the subinterfaces.
-/

namespace ClassHierarchy.Hierarchy

variable {h : Hierarchy} {c : ClassDef}

/-- A later definition leaves all views as they are. -/
theorem add_of_defined (hdefined : (h.definition? c.name).isSome) :
    h.add c = { h with skipped := h.skipped.push c.name } := by
  have : h.definitions.contains c.name = true := by simpa [definition?] using hdefined
  simp [add, this]

section First

variable (hnew : h.definition? c.name = none)
include hnew

/-- The type of a first definition is not yet a key. -/
theorem not_contains_of_new : h.definitions.contains c.name = false := by
  have habsent : c.name ∉ h.definitions := by simpa [definition?] using hnew
  rw [← Bool.not_eq_true, Std.TreeMap.contains_iff_mem]
  exact habsent

theorem options_add : (h.add c).options = h.options := by
  simp [add, not_contains_of_new hnew]

theorem classes_add : (h.add c).classes = h.classes ++ [c] := by
  simp [add, not_contains_of_new hnew, classes]

theorem definition?_add (t : TypeName) :
    (h.add c).definition? t = if c.name = t then some c else h.definition? t := by
  simp [add, not_contains_of_new hnew, definition?, Std.TreeMap.getElem?_insert]

/-- A new definition gives its type a parent, if it names one. -/
theorem superclass?_add (t : TypeName) :
    (h.add c).superclass? t
      = if c.name = t then c.parent.or (h.superclass? t) else h.superclass? t := by
  simp only [add, not_contains_of_new hnew, Bool.false_eq_true, if_false, superclass?]
  cases c.parent with
  | none => simp
  | some parent => simp [Std.TreeMap.getElem?_insert]

/-- A new definition is added behind the subtypes that its parent had before. -/
theorem subclasses_add (t : TypeName) :
    (h.add c).subclasses t = h.subclasses t ++ if c.parent = some t then [c.name] else [] := by
  simp only [add, not_contains_of_new hnew, Bool.false_eq_true, if_false, subclasses]
  cases c.parent with
  | none => simp
  | some parent => simp

/-- A new definition is added once for every time that it lists the interface, unless it extends. -/
theorem implementations_add (t : TypeName) :
    (h.add c).implementations t
      = h.implementations t
        ++ if c.isExtending h.options then [] else List.replicate (c.interfaces.count t) c.name := by
  simp only [add, not_contains_of_new hnew, Bool.false_eq_true, if_false, implementations]
  split
  · simp
  · rw [Links.successors_addAll]

/-- A new definition that extends is added once for every time that it lists the interface. -/
theorem subinterfaces_add (t : TypeName) :
    (h.add c).subinterfaces t
      = h.subinterfaces t
        ++ if c.isExtending h.options then List.replicate (c.interfaces.count t) c.name else [] := by
  simp only [add, not_contains_of_new hnew, Bool.false_eq_true, if_false, subinterfaces]
  split
  · rw [Links.successors_addAll]
  · simp

end First

end ClassHierarchy.Hierarchy

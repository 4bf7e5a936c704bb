import ClassHierarchy.Hierarchy.Links
import ClassHierarchy.Program

/-!
# The hierarchy of a program

A hierarchy turns the definitions of a program upside down: it knows not only the parent and the
interfaces of a type but also, in declaration order, the types that name it as theirs.

* `Hierarchy.build` reads the definitions in order. The first definition of a type counts. A later
  one is skipped as a whole, its links included, so that `subclasses` stays the exact inverse of
  `superclass?`.
* An interface that lists other interfaces extends them, unless `Options.interfaceExtension` is off:
  then it implements them like a class.
-/

namespace ClassHierarchy

/-! ## Options

How a hierarchy is built and queried. Only `interfaceExtension` says what a program means. The two
other options say how the work is done: unless answers are planted in the memo, no answer depends on
them. -/

/-- Options of a hierarchy. -/
structure Options where
  /-- Remember the answer of every resolution. -/
  memoize : Bool := true
  /-- Let an interface that lists another interface extend it; otherwise it implements it, as a class
  would. -/
  interfaceExtension : Bool := true
  /-- The number of classes from which on a scan of all classes is shared among tasks. -/
  scanThreshold : Nat := 4096
  deriving DecidableEq, Repr

namespace Options

/-- Everything on. -/
def standard : Options := {}

/-- Every resolution climbs anew. -/
def unmemoized : Options := { memoize := false }

/-- Interfaces listed by an interface are taken literally. -/
def literal : Options := { interfaceExtension := false }

instance : Inhabited Options := ⟨standard⟩

end Options

/-! ## Hierarchies -/

/-- The definitions of a program with the links between them in both directions. -/
structure Hierarchy where
  options : Options := {}
  /-- The definitions that count, in declaration order. -/
  defined : Array ClassDef := #[]
  /-- The types of the definitions that were skipped, in declaration order. -/
  skipped : Array TypeName := #[]
  definitions : Std.TreeMap TypeName ClassDef := ∅
  /-- From a type to its parent. -/
  parents : Std.TreeMap TypeName TypeName := ∅
  /-- From a parent to its children. -/
  children : Links := ∅
  /-- From an interface to the types that implement it. -/
  implementors : Links := ∅
  /-- From an interface to the interfaces that extend it. -/
  extensions : Links := ∅

/-- With extension modelled, an interface extends what a class would implement. -/
def ClassDef.isExtending (c : ClassDef) (options : Options) : Bool :=
  c.isInterface && options.interfaceExtension

namespace Hierarchy

/-! ## Construction -/

/-- Reads one more definition. -/
def add (h : Hierarchy) (c : ClassDef) : Hierarchy :=
  if h.definitions.contains c.name then
    { h with skipped := h.skipped.push c.name }
  else
    { h with
      defined := h.defined.push c
      definitions := h.definitions.insert c.name c
      parents :=
        match c.parent with
        | some parent => h.parents.insert c.name parent
        | none => h.parents
      children :=
        match c.parent with
        | some parent => h.children.add parent c.name
        | none => h.children
      implementors :=
        if c.isExtending h.options then h.implementors
        else h.implementors.addAll c.interfaces c.name
      extensions :=
        if c.isExtending h.options then h.extensions.addAll c.interfaces c.name
        else h.extensions }

/-- The hierarchy of a program. -/
def build (p : Program) (options : Options := {}) : Hierarchy :=
  p.classes.foldl add { options }

/-! ## Direct questions -/

/-- The definitions that count, in declaration order. -/
def classes (h : Hierarchy) : List ClassDef :=
  h.defined.toList

/-- The number of definitions that count. -/
def size (h : Hierarchy) : Nat :=
  h.defined.size

/-- The definition of a type. -/
def definition? (h : Hierarchy) (t : TypeName) : Option ClassDef :=
  h.definitions[t]?

/-- The parent of a type; a type without a definition has none. -/
def superclass? (h : Hierarchy) (t : TypeName) : Option TypeName :=
  h.parents[t]?

/-- The definition of the parent of a type. -/
def superclassDefinition? (h : Hierarchy) (t : TypeName) : Option ClassDef :=
  (h.superclass? t).bind h.definition?

/-- The types whose parent is this one, in declaration order. -/
def subclasses (h : Hierarchy) (t : TypeName) : List TypeName :=
  h.children.successors t

/-- The types that list this one as an interface and implement it, in declaration order and once for
every time they list it. -/
def implementations (h : Hierarchy) (t : TypeName) : List TypeName :=
  h.implementors.successors t

/-- The interfaces that extend this one, in declaration order and once for every time they list
it. -/
def subinterfaces (h : Hierarchy) (t : TypeName) : List TypeName :=
  h.extensions.successors t

def isInterface (h : Hierarchy) (t : TypeName) : Bool :=
  (h.definition? t).any ClassDef.isInterface

def isFinal (h : Hierarchy) (t : TypeName) : Bool :=
  (h.definition? t).any ClassDef.isFinal

/-- The definitions without a parent, in declaration order. -/
def roots (h : Hierarchy) : List ClassDef :=
  h.classes.filter (·.parent.isNone)

end Hierarchy

/-! ## Counts -/

/-- The size of a hierarchy. -/
structure Counts where
  /-- The definitions that count. -/
  classes : Nat := 0
  /-- Those of them that are interfaces. -/
  interfaces : Nat := 0
  /-- Those of them that have no parent. -/
  roots : Nat := 0
  /-- The links from a type to its parent. -/
  inheritance : Nat := 0
  /-- The links from a type to an interface that it implements. -/
  implementation : Nat := 0
  /-- The links from an interface to one that it extends. -/
  extension : Nat := 0
  deriving DecidableEq, Repr

/-- The size of a hierarchy. -/
def Hierarchy.counts (h : Hierarchy) : Counts where
  classes := h.size
  interfaces := h.classes.countP (·.isInterface)
  roots := h.roots.length
  inheritance := h.parents.size
  implementation := h.implementors.size
  extension := h.extensions.size

end ClassHierarchy

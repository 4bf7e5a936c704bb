import ClassHierarchy.Method

/-!
# Programs

A class definition gives a type its parent, the interfaces that it lists, its virtual methods and its
modifiers. Lists are kept as written: an interface may be listed twice, and so may a method. A program is
the list of its class definitions in declaration order. Nothing is required of the list: a type may be
defined twice, a parent may be missing, parents may form a cycle. What is wrong with a program is told
by a `ProgramError`.

* `ClassDef.findMethod`: the first listed method that answers a signature.
* `ClassDef.methodsAnswering`: all of them, in listing order.
-/

namespace ClassHierarchy

/-! ## Class definitions -/

/-- The definition of a class or an interface. -/
structure ClassDef where
  name : TypeName
  parent : Option TypeName := none
  interfaces : List TypeName := []
  methods : List Method := []
  modifiers : Modifiers := {}
  deriving DecidableEq, Repr, Inhabited

namespace ClassDef

def isInterface (c : ClassDef) : Bool :=
  c.modifiers.has .interface

def isFinal (c : ClassDef) : Bool :=
  c.modifiers.has .final

/-- The first listed method that answers the signature; a method without a receiver that stands
before it and agrees in name and result is a fault. -/
def findMethod (c : ClassDef) (s : Signature) : Except Fault (Option Method) :=
  c.methods.findM? (·.answers s)

/-- Every listed method that answers the signature, in listing order. -/
def methodsAnswering (c : ClassDef) (s : Signature) : Except Fault (List Method) :=
  c.methods.filterM (·.answers s)

end ClassDef

/-! ## Programs -/

/-- All class definitions, in declaration order. -/
structure Program where
  classes : List ClassDef := []
  deriving DecidableEq, Repr, Inhabited

/-- What a program lacks, or which rule it breaks. -/
inductive ProgramError where
  /-- No definition has this type. -/
  | typeNotFound (type : TypeName)
  /-- Two definitions have this type. -/
  | duplicateType (type : TypeName)
  /-- A class lists a method that has no receiver. -/
  | missingReceiver (listing : TypeName) (method : String)
  /-- A class lists a method that another class owns. -/
  | foreignMethod (method : String) (listing owner : TypeName)
  /-- The parent links from this type lead back to it. -/
  | cyclicHierarchy (type : TypeName)
  deriving DecidableEq, Repr

/-- The error in words. -/
def ProgramError.message : ProgramError → String
  | typeNotFound t => "Failed to find class definition - " ++ t.text
  | duplicateType t => "Duplicate class definition - " ++ t.text
  | missingReceiver c m => "Virtual method " ++ c.text ++ "->" ++ m ++ " has no receiver parameter"
  | foreignMethod m c owner =>
    "Method " ++ m ++ " is listed in " ++ c.text ++ " but declared by " ++ owner.text
  | cyclicHierarchy t => "Cyclic class hierarchy through - " ++ t.text

namespace Program

/-- The types of the definitions, those of repeated ones repeated. -/
def types (p : Program) : List TypeName :=
  p.classes.map ClassDef.name

/-- The first definition of a type. -/
def find? (p : Program) (t : TypeName) : Option ClassDef :=
  p.classes.find? (·.name = t)

/-- The first definition of a type; it is an error if there is none. -/
def classNamed (p : Program) (t : TypeName) : Except ProgramError ClassDef :=
  match p.find? t with
  | some c => .ok c
  | none => .error (.typeNotFound t)

end Program

end ClassHierarchy

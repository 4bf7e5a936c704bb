import ClassHierarchy.TypeName

/-!
# Methods

What a call site names is a signature: a method name, a result type and the types of the explicit
parameters, so without the receiver. A virtual method is identified by its owner, name, result and full
parameter list. The list starts with the receiver; an empty list breaks the contract and makes every
attempt to read the explicit parameters a fault.

* Signatures and identities have lawful orders, so that answers can be remembered per signature and
  methods be kept in sets.
* Modifiers are no part of the identity: two methods that differ only in them are the same method,
  although `=` tells them apart.
* `Method.answers`: whether a call site that names a signature may mean this method. The explicit
  parameters are read only once name and result agree, so that a method without a receiver faults
  there and nowhere else.
-/

namespace ClassHierarchy

/-! ## Signatures -/

/-- The signature that a call site names. -/
structure Signature where
  name : String
  result : TypeName
  params : List TypeName
  deriving DecidableEq, Repr, Inhabited

namespace Signature

instance : Ord Signature :=
  ⟨compareLex (compareOn name) (compareLex (compareOn result) (compareOn params))⟩

instance : Std.TransOrd Signature :=
  inferInstanceAs
    (Std.TransCmp (compareLex (compareOn name) (compareLex (compareOn result) (compareOn params))))

instance : Std.LawfulEqOrd Signature where
  eq_of_compare {a b} h := by
    have h : compareLex (compareOn name) (compareLex (compareOn result) (compareOn params)) a b
        = .eq := h
    simp only [compareLex_eq_eq, compareOn, Std.LawfulEqOrd.compare_eq_iff_eq] at h
    cases a
    cases b
    simp_all

/-- Parameter types are written one after the other, with nothing between them. -/
def joinTypes (ts : List TypeName) : String :=
  String.join (ts.map TypeName.text)

/-- Written as `name(params)result`. -/
def text (s : Signature) : String :=
  s.name ++ "(" ++ joinTypes s.params ++ ")" ++ s.result.text

end Signature

/-! ## Faults

A hierarchy is built from any list of class definitions, also from one that breaks the rules that
`Program.validate` checks, and a query that runs into such a breach stops with a fault. -/

/-- A breach of the program's contract that a query ran into. -/
inductive Fault where
  /-- The parameter list of a virtual method is empty, so it has no receiver. -/
  | noReceiver (owner : TypeName) (method : String)
  /-- The walk through this type comes back to it again and again. -/
  | endless (through : TypeName)
  deriving DecidableEq, Repr

/-- The fault in words. -/
def Fault.message : Fault → String
  | noReceiver owner method =>
    "virtual method " ++ owner.text ++ "->" ++ method ++ " has no receiver parameter"
  | endless through => "the walk through " ++ through.text ++ " never ends"

/-! ## Modifiers

Classes and methods carry a word of modifier bits. The few bits that have a name here are listed in
two tables, one for classes and one for methods; every other bit is kept as it came. -/

/-- The modifier bits of a class or a method. -/
structure Modifiers where
  bits : UInt32 := 0
  deriving DecidableEq, Repr, Inhabited

/-- A named modifier. -/
structure Flag where
  name : String
  mask : UInt32
  deriving DecidableEq, Repr

namespace Flag

/-- On a class: it has no subclasses. On a method: it is never overridden. -/
def final : Flag := ⟨"FINAL", 0x10⟩

/-- The definition is an interface. -/
def interface : Flag := ⟨"INTERFACE", 0x200⟩

/-- The class cannot be allocated, or the method has no body. -/
def abstract : Flag := ⟨"ABSTRACT", 0x400⟩

/-- The method was made up by a compiler. -/
def synthetic : Flag := ⟨"SYNTHETIC", 0x1000⟩

/-- The named modifiers of classes. -/
def ofClasses : List Flag := [final, interface, abstract]

/-- The named modifiers of methods. -/
def ofMethods : List Flag := [final, abstract, synthetic]

/-- The bits that a table names. -/
def bitsOf (table : List Flag) : UInt32 :=
  table.foldl (fun bits flag => bits ||| flag.mask) 0

end Flag

namespace Modifiers

/-- A modifier is set when all of its bits are. -/
def has (m : Modifiers) (flag : Flag) : Bool :=
  m.bits &&& flag.mask == flag.mask

/-- The part of the bits that a table names. -/
def named (m : Modifiers) (table : List Flag) : Modifiers :=
  ⟨m.bits &&& Flag.bitsOf table⟩

/-- No bit is set but those that a table names. -/
def allNamed (m : Modifiers) (table : List Flag) : Bool :=
  m.named table == m

/-- The modifiers of a table that are set, in the order of the table. -/
def flags (m : Modifiers) (table : List Flag) : List Flag :=
  table.filter m.has

end Modifiers

/-! ## Methods -/

/-- What tells one method from another. -/
structure MethodId where
  owner : TypeName
  name : String
  result : TypeName
  /-- All parameter types, the receiver first. -/
  params : List TypeName
  deriving DecidableEq, Repr, Inhabited

namespace MethodId

/-- Owner first, then name, then result, then parameters. -/
def order : MethodId → MethodId → Ordering :=
  compareLex (compareOn owner)
    (compareLex (compareOn name) (compareLex (compareOn result) (compareOn params)))

instance : Ord MethodId := ⟨order⟩

instance : Std.TransOrd MethodId :=
  inferInstanceAs (Std.TransCmp (compareLex (compareOn owner)
    (compareLex (compareOn name) (compareLex (compareOn result) (compareOn params)))))

instance : Std.LawfulEqOrd MethodId where
  eq_of_compare {a b} h := by
    have h : order a b = .eq := h
    simp only [order, compareLex_eq_eq, compareOn, Std.LawfulEqOrd.compare_eq_iff_eq] at h
    cases a
    cases b
    simp_all

/-- Written as `owner->name(params)result`, the receiver left out. -/
def text (m : MethodId) : String :=
  m.owner.text ++ "->" ++ m.name ++ "(" ++ Signature.joinTypes m.params.tail ++ ")" ++ m.result.text

end MethodId

/-- A virtual method of a class. -/
structure Method extends id : MethodId where
  modifiers : Modifiers := {}
  deriving DecidableEq, Repr, Inhabited

namespace Method

/-- A method of `owner` whose receiver is `owner` itself. -/
def declaredBy (owner : TypeName) (s : Signature) (modifiers : Modifiers := {}) : Method :=
  { owner, name := s.name, result := s.result, params := owner :: s.params, modifiers }

/-- The type of the receiver, if the method has one. -/
def receiver? (m : Method) : Option TypeName :=
  m.params.head?

/-- The parameters after the receiver. -/
def explicitParams (m : Method) : Except Fault (List TypeName) :=
  match m.params with
  | [] => .error (.noReceiver m.owner m.name)
  | _ :: explicit => .ok explicit

/-- The signature by which call sites name the method. -/
def signature (m : Method) : Except Fault Signature := do
  return ⟨m.name, m.result, ← m.explicitParams⟩

/-- Name, result and explicit parameters are those of the signature. -/
def answers (m : Method) (s : Signature) : Except Fault Bool :=
  if m.name = s.name ∧ m.result = s.result then
    m.explicitParams.map fun explicit => decide (explicit = s.params)
  else
    .ok false

def isAbstract (m : Method) : Bool :=
  m.modifiers.has .abstract

def isFinal (m : Method) : Bool :=
  m.modifiers.has .final

/-- One method, whatever the modifiers. -/
def same (m n : Method) : Bool :=
  m.id = n.id

/-- The different methods of a list, each where it occurs first. -/
def identities (ms : List Method) : List MethodId :=
  (ms.map Method.id).eraseDups

end Method

end ClassHierarchy

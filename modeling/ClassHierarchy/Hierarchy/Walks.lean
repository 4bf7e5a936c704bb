import ClassHierarchy.Hierarchy.Basic

/-!
# Walks along the parent links

A signature asked of a type means the method that the type's nearest ancestor defines, the type
itself first. The climb goes from a type to its parent until a definition lists a method that answers
the signature. It passes through types without a definition only at its end, as these have no parent.
Answers that are known beforehand shorten a climb: it stops at the first type whose answer is known.
With nothing known the outcome is `Hierarchy.lookup`, what the signature means.

The other way, the subtypes of a type are listed in pre-order: a type before its subclasses, siblings in
declaration order. The walk keeps the types still to be listed on a stack and does not look at what
it has listed. It need not: every type has one parent, so a type is reached once, unless the walk
starts on a cycle of parents, where it never ends and is a fault.
-/

namespace ClassHierarchy

/-! ## Up to the nearest definition -/

/-- What a climb has come to. -/
structure Climb where
  /-- The types whose definitions were scanned, in climbing order. -/
  scanned : List TypeName
  /-- The climb ended at a type whose answer was known. -/
  recalled : Bool
  /-- The method found, or nothing if no type on the chain defines one. -/
  outcome : Except Fault (Option Method)

/-- The climb with one more type scanned below it. -/
def Climb.after (t : TypeName) (c : Climb) : Climb :=
  { c with scanned := t :: c.scanned }

namespace Hierarchy

/-- The method that a type itself defines for a signature. -/
def declared (h : Hierarchy) (t : TypeName) (s : Signature) : Except Fault (Option Method) :=
  match h.definition? t with
  | some c => c.findMethod s
  | none => .ok none

/-- Climbs from a type over at most so many types. -/
def climbWithin (h : Hierarchy) (s : Signature) (known : TypeName → Option (Option Method)) :
    Nat → TypeName → Climb
  | 0, t => ⟨[], false, .error (.endless t)⟩
  | types + 1, t =>
    match known t with
    | some answer => ⟨[], true, .ok answer⟩
    | none =>
      match h.declared t s with
      | .error fault => ⟨[t], false, .error fault⟩
      | .ok (some m) => ⟨[t], false, .ok (some m)⟩
      | .ok none =>
        match h.superclass? t with
        | none => ⟨[t], false, .ok none⟩
        | some parent => (h.climbWithin s known types parent).after t

/-- Climbs from a type. Only defined types have a parent, so a climb over more types than are defined
and one comes to some type twice and never ends. -/
def climb (h : Hierarchy) (s : Signature) (known : TypeName → Option (Option Method))
    (t : TypeName) : Climb :=
  h.climbWithin s known (h.size + 1) t

/-- What a signature means for a type: the method that its nearest ancestor defines. -/
def lookup (h : Hierarchy) (t : TypeName) (s : Signature) : Except Fault (Option Method) :=
  (h.climb s (fun _ => none) t).outcome

end Hierarchy

/-! ## Down to all subclasses -/

namespace Hierarchy

/-- Lists the types of the stack, top first, each followed by its subclasses; nothing when the stack
is not empty after so many types. -/
def preorder? (h : Hierarchy) : Nat → List TypeName → Option (List TypeName)
  | _, [] => some []
  | 0, _ :: _ => none
  | count + 1, t :: stack => (h.preorder? count (h.subclasses t ++ stack)).map (t :: ·)

/-- A type and all its transitive subclasses, in pre-order. Besides the type itself only defined
types occur, so a list that is longer than that has a type twice and goes on for ever. -/
def allSubclasses (h : Hierarchy) (t : TypeName) : Except Fault (List TypeName) :=
  match h.preorder? (h.size + 1) [t] with
  | some types => .ok types
  | none => .error (.endless t)

/-- All transitive subclasses of a type, without the type itself. -/
def properSubclasses (h : Hierarchy) (t : TypeName) : Except Fault (List TypeName) :=
  (h.allSubclasses t).map List.tail

end Hierarchy

end ClassHierarchy

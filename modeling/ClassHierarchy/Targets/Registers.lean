import ClassHierarchy.Targets

/-!
# Registers of target sets

Target sets under names, every one of them empty at first, and the operations that build, change and
compare them. An operation works on the set of one name and may read that of another.
-/

namespace ClassHierarchy

/-- Target sets by name; a name that was never used stands for the empty set. -/
structure Registers where
  sets : Std.TreeMap String Targets := ∅

namespace Registers

instance : EmptyCollection Registers := ⟨{}⟩

instance : Inhabited Registers := ⟨∅⟩

/-- The set under a name. -/
def get (r : Registers) (name : String) : Targets :=
  r.sets.getD name ∅

/-- Puts a set under a name. -/
def set (r : Registers) (name : String) (ts : Targets) : Registers :=
  ⟨r.sets.insert name ts⟩

@[simp] theorem get_empty (name : String) : get ∅ name = ∅ := by
  show (∅ : Std.TreeMap String Targets).getD name ∅ = ∅
  simp

/-- What is put under a name is found under this name, and under no other. -/
theorem get_set (r : Registers) (name other : String) (ts : Targets) :
    (r.set name ts).get other = if name = other then ts else r.get other := by
  simp [get, set, Std.TreeMap.getD_insert]

/-- An operation on the set of a name. -/
inductive Op where
  /-- Start over with the empty set. -/
  | clear
  /-- Start over with at most one method. -/
  | ofOption (m? : Option Method)
  /-- Start over with the methods of a list. -/
  | ofList (ms : List Method)
  /-- Insert a method and tell whether it is new. -/
  | insert (m : Method)
  /-- Ask for a method. -/
  | contains (m : Method)
  /-- Insert the methods of a list. -/
  | insertMany (ms : List Method)
  /-- List the methods. -/
  | toList
  /-- List the methods and start over with the empty set. -/
  | take
  /-- Start over with a copy of the set of another name. -/
  | copyOf (source : String)
  /-- Compare with the set of another name. -/
  | sameAs (other : String)
  deriving DecidableEq, Repr

/-- What an operation gives back. -/
inductive Result where
  | done
  | flag (b : Bool)
  | methods (ms : List Method)
  deriving DecidableEq, Repr

/-- Applies an operation to the set of a name. -/
def apply (r : Registers) (name : String) : Op → Result × Registers
  | .clear => (.done, r.set name ∅)
  | .ofOption m? => (.done, r.set name (.ofOption m?))
  | .ofList ms => (.done, r.set name (.ofList ms))
  | .insert m => (.flag (!(r.get name).contains m), r.set name ((r.get name).insert m))
  | .contains m => (.flag ((r.get name).contains m), r)
  | .insertMany ms => (.done, r.set name ((r.get name).insertMany ms))
  | .toList => (.methods (r.get name).toList, r)
  | .take => (.methods (r.get name).toList, r.set name ∅)
  | .copyOf source => (.done, r.set name (r.get source))
  | .sameAs other => (.flag ((r.get name).same (r.get other)), r)

/-- Applies operations in order. Each gives its result and the set of its name afterwards. -/
def run : Registers → List (String × Op) → List (Result × Targets)
  | _, [] => []
  | r, (name, op) :: rest =>
    let (result, after) := r.apply name op
    (result, after.get name) :: run after rest

end Registers

end ClassHierarchy

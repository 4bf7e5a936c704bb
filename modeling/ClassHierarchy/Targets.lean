import ClassHierarchy.Method

/-!
# Target sets

The methods that may run for a call, in the order in which they were found. A method is in the set
once: the one inserted first stays, with its modifiers, and the order of the others is not touched.
The members are also kept by identity, so that asking for one does not read the whole list.

Sets are compared by their members; order and modifiers do not matter.

* `toList_insert`, `contains_insert`: what an insertion does to the list and to the members.
* `same_iff`: sets are the same if each has what the other one has.
-/

namespace ClassHierarchy

/-- A set of methods in the order of insertion. -/
structure Targets where
  ordered : Array Method := #[]
  members : Std.TreeSet MethodId := ∅

namespace Targets

instance : EmptyCollection Targets := ⟨{}⟩

instance : Inhabited Targets := ⟨∅⟩

/-- The methods in the order of insertion. -/
def toList (ts : Targets) : List Method :=
  ts.ordered.toList

def size (ts : Targets) : Nat :=
  ts.ordered.size

def isEmpty (ts : Targets) : Bool :=
  ts.ordered.isEmpty

/-- The set has the method, whatever its modifiers. -/
def contains (ts : Targets) (m : Method) : Bool :=
  ts.members.contains m.id

/-- Puts a method at the end, unless the set has it. -/
def insert (ts : Targets) (m : Method) : Targets :=
  if ts.contains m then
    ts
  else
    { ordered := ts.ordered.push m, members := ts.members.insert m.id }

/-- Inserts the methods of a list in order. -/
def insertMany (ts : Targets) (ms : List Method) : Targets :=
  ms.foldl insert ts

/-- The methods of a list, each where it occurs first. -/
def ofList (ms : List Method) : Targets :=
  insertMany ∅ ms

/-- At most one method. -/
def ofOption (m? : Option Method) : Targets :=
  ofList m?.toList

/-- The method of a set that has just one: the call can be made directly. -/
def single? (ts : Targets) : Option Method :=
  match ts.toList with
  | [m] => some m
  | _ => none

/-- The same members. -/
def same (ts us : Targets) : Bool :=
  ts.members == us.members

/-! ## Number -/

theorem size_eq_length (ts : Targets) : ts.size = ts.toList.length :=
  Array.length_toList.symm

theorem isEmpty_eq (ts : Targets) : ts.isEmpty = ts.toList.isEmpty := by
  simp [isEmpty, toList]

/-! ## Insertion -/

@[simp] theorem toList_empty : toList ∅ = [] := rfl

@[simp] theorem contains_empty (m : Method) : contains ∅ m = false := by
  show (∅ : Std.TreeSet MethodId).contains m.id = false
  simp

/-- A new method goes behind the others, and one that is there already changes nothing. -/
theorem toList_insert (ts : Targets) (m : Method) :
    (ts.insert m).toList = if ts.contains m then ts.toList else ts.toList ++ [m] := by
  unfold insert
  split
  · rfl
  · simp [toList]

/-- A method is told from others by its identity, whatever its modifiers. -/
theorem contains_insert (ts : Targets) (m n : Method) :
    (ts.insert m).contains n = (m.id == n.id || ts.contains n) := by
  unfold insert
  split
  · rename_i hpresent
    by_cases hsame : m.id = n.id
    · have : ts.contains n = ts.contains m := by simp [contains, hsame]
      simp [hsame, this, hpresent]
    · simp [hsame]
  · have hlawful : (compare m.id n.id == .eq) = (m.id == n.id) := by
      rw [Bool.eq_iff_iff]
      simp
    simp [contains, Std.TreeSet.contains_insert, hlawful]

/-- Sets are the same if each has what the other one has. -/
theorem same_iff {ts us : Targets} : ts.same us ↔ ∀ m, ts.contains m ↔ us.contains m := by
  rw [same, Std.TreeSet.beq_iff_equiv, Std.TreeSet.equiv_iff_forall_mem_iff]
  simp only [contains, Std.TreeSet.contains_iff_mem]
  constructor
  · intro halike m
    exact halike m.id
  · -- every identity is that of some method
    intro halike i
    exact halike ⟨i, {}⟩

@[simp] theorem insertMany_nil (ts : Targets) : ts.insertMany [] = ts := rfl

@[simp] theorem insertMany_cons (ts : Targets) (m : Method) (ms : List Method) :
    ts.insertMany (m :: ms) = (ts.insert m).insertMany ms := rfl

end Targets

end ClassHierarchy

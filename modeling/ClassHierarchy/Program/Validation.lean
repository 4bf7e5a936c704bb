import ClassHierarchy.Program

/-!
# Validation

The contract that makes every query of a hierarchy end with an answer: no type is defined twice,
every listed method has a receiver and is owned by the class that lists it, and no parent links
form a cycle. Parents and interfaces that the program does not define are allowed.

* `Program.validate` reports the first breach. Declarations are read before parent links, class by
  class; within a class a repeated type comes before its methods, and within a method a missing
  receiver before a foreign owner.
* The parent links are climbed from every class in turn. A climb stops at a type that an earlier one
  has cleared, so each type is climbed once; the first type that a climb meets for the second time
  lies on a cycle.
-/

namespace ClassHierarchy

/-! ## Declarations -/

/-- The rule that a method listed by a class breaks. -/
def Method.breach? (listing : TypeName) (m : Method) : Option ProgramError :=
  if m.params = [] then
    some (.missingReceiver listing m.name)
  else if m.owner ≠ listing then
    some (.foreignMethod m.name listing m.owner)
  else
    none

/-- The first rule that a definition breaks, after definitions of the types `declared`. -/
def ClassDef.breach? (declared : TypeSet) (c : ClassDef) : Option ProgramError :=
  if declared.contains c.name then
    some (.duplicateType c.name)
  else
    c.methods.findSome? (·.breach? c.name)

namespace Program

/-- The first rule that a list of definitions breaks, after definitions of the types `declared`. -/
def firstBreach? (declared : TypeSet) : List ClassDef → Option ProgramError
  | [] => none
  | c :: rest =>
    match c.breach? declared with
    | some breach => some breach
    | none => firstBreach? (declared.insert c.name) rest

/-! ## Parent links -/

/-- The parent of every type that has one. -/
def parentLinks (p : Program) : Std.TreeMap TypeName TypeName :=
  p.classes.foldl
    (fun links c =>
      match c.parent with
      | some parent => links.insert c.name parent
      | none => links)
    ∅

/-- Climbs the links from a type, over the types of `path` so far, up to a cleared type or to the end
of the chain, and gives the path. It is an error to come back to the path; the error is the type met
again. A climb ends because every step puts the source of another link on the path. -/
def climbToCleared (links : Std.TreeMap TypeName TypeName) (cleared path : TypeSet)
    (t : TypeName) : Except TypeName TypeSet :=
  if cleared.contains t then
    .ok path
  else if _ : path.contains t then
    .error t
  else
    match _ : links[t]? with
    | some parent => climbToCleared links cleared (path.insert t) parent
    | none => .ok (path.insert t)
termination_by TypeName.countOutside path links.keys
decreasing_by
  apply TypeName.countOutside_lt (t := t)
  · intro u hu
    exact Std.TreeSet.mem_insert.mpr (.inr hu)
  · have : links[t]? = some parent := by assumption
    rw [Std.TreeMap.mem_keys, Std.TreeMap.mem_iff_isSome_getElem?, this]
    rfl
  · have : ¬path.contains t = true := by assumption
    simpa using this
  · simp

/-- Climbs from each type in turn and clears what the climb went over. -/
def clearChains (links : Std.TreeMap TypeName TypeName) :
    TypeSet → List TypeName → Except TypeName TypeSet
  | cleared, [] => .ok cleared
  | cleared, t :: rest =>
    match climbToCleared links cleared ∅ t with
    | .ok path => clearChains links (cleared ∪ path) rest
    | .error onCycle => .error onCycle

/-- Checks the contract and reports the first breach of it. -/
def validate (p : Program) : Except ProgramError Unit :=
  match firstBreach? ∅ p.classes with
  | some breach => .error breach
  | none =>
    match clearChains p.parentLinks ∅ p.types with
    | .ok _ => .ok ()
    | .error onCycle => .error (.cyclicHierarchy onCycle)

end Program

end ClassHierarchy

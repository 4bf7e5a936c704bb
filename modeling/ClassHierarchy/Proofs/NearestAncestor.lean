import ClassHierarchy.Proofs.Inheritance
import ClassHierarchy.Proofs.Meaning

/-!
# The nearest ancestor that lists a method

A resolution is two searches for a first match, one inside the other: along the chain of parents for
a definition, and within the definition for a method. `NearestListed` says in terms of lists what they
come to.

* `declared?_eq_some_iff`, `declared?_eq_none_iff`: the inner search. Overloads and repeated methods
  stand in the same list, and the first that matches counts.
* `lookup_eq_findSome?` is the outer search: what stands before the match on the chain lists no
  method with the signature.
* `nearest_ancestor_resolves`: both together, on a hierarchy of which nothing was asked yet. Only the
  chain of the type itself has to end.
-/

namespace ClassHierarchy

namespace Hierarchy

variable {h : Hierarchy} {p : Program} {s : Signature} {m : Method} {t : TypeName}

/-! ## Definitions -/

/-- The type has a definition that lists a method with the signature. -/
def ListsMethod (h : Hierarchy) (t : TypeName) (s : Signature) : Prop :=
  ∃ c, h.definition? t = some c ∧ ∃ m ∈ c.methods, m.Matches s

/-- The type has a definition in which `m` is the first listed method with the signature. -/
def ListsFirst (h : Hierarchy) (t : TypeName) (s : Signature) (m : Method) : Prop :=
  ∃ c before after, h.definition? t = some c ∧ c.methods = before ++ m :: after ∧ m.Matches s
    ∧ ∀ n ∈ before, ¬ n.Matches s

section Represents

variable (hr : h.Represents p)
include hr

/-- A type declares nothing if its definition lists no method with the signature. -/
theorem declared?_eq_none_iff : p.declared? t s = none ↔ ¬ h.ListsMethod t s := by
  rw [Program.declared?, ← hr.definition?, ListsMethod]
  cases h.definition? t with
  | none => simp
  | some c => simp

/-- A type declares the first method with the signature that its definition lists. -/
theorem declared?_eq_some_iff : p.declared? t s = some m ↔ h.ListsFirst t s m := by
  rw [Program.declared?, ← hr.definition?, ListsFirst]
  cases h.definition? t with
  | none => simp
  | some c =>
    rw [Option.bind_some, List.find?_eq_some_iff_append]
    constructor
    · rintro ⟨hm, before, after, hmethods, hbefore⟩
      exact ⟨c, before, after, rfl, hmethods, by simpa using hm, by simpa using hbefore⟩
    · rintro ⟨c, before, after, ⟨⟩, hmethods, hm, hbefore⟩
      exact ⟨by simpa using hm, before, after, hmethods, by simpa using hbefore⟩

/-- A definition counts if no definition before it is of the same type. -/
theorem definition?_eq_some_iff {c : ClassDef} : h.definition? t = some c ↔ c.name = t
    ∧ ∃ earlier later, p.classes = earlier ++ c :: later ∧ ∀ d ∈ earlier, d.name ≠ t := by
  rw [hr.definition?, Program.find?, List.find?_eq_some_iff_append]
  simp

/-- A parent is named by the definition that counts. -/
theorem superclass?_eq_some_iff {u : TypeName} :
    h.superclass? t = some u ↔ ∃ c, h.definition? t = some c ∧ c.parent = some u := by
  rw [hr.superclass?, Program.parent?, ← hr.definition?, Option.bind_eq_some_iff]

end Represents

/-! ## Chains -/

/-- What a signature means for a type whose chain of parents is `chain`, on a hierarchy of which
nothing was asked yet. -/
structure NearestListed (h : Hierarchy) (p : Program) (s : Signature) (t : TypeName)
    (chain : List TypeName) : Prop where
  /-- A method is found just where the first type that lists one lists it first. -/
  found : ∀ m, ((h.resolve t s).outcome ∅).1 = .ok (some m) ↔ ∃ nearer a farther,
    chain = nearer ++ a :: farther ∧ h.ListsFirst a s m ∧ ∀ b ∈ nearer, ¬ h.ListsMethod b s
  /-- Nothing is found just where no type lists one. -/
  missing : ((h.resolve t s).outcome ∅).1 = .ok none ↔ ∀ a ∈ chain, ¬ h.ListsMethod a s
  /-- Each type names the next one as its parent. -/
  links : ∀ nearer a b farther, chain = nearer ++ a :: b :: farther →
    ∃ c, h.definition? a = some c ∧ c.parent = some b
  /-- It does so in its first definition. -/
  firsts : ∀ a ∈ chain, ∀ c, h.definition? a = some c ↔ c.name = a
    ∧ ∃ earlier later, p.classes = earlier ++ c :: later ∧ ∀ d ∈ earlier, d.name ≠ a
  /-- Nothing comes after a type without a definition. -/
  ends : ∀ nearer a farther, chain = nearer ++ a :: farther → h.definition? a = none → farther = []

/-- Where the chain of parents of a type ends, a signature means the method that the nearest type on
it lists first. -/
theorem nearest_ancestor_resolves (p : Program) (options : Options) (hreceivers : p.HasReceivers)
    (t : TypeName) (s : Signature) (chain : List TypeName)
    (hchain : Chain (build p options).superclass? t chain) :
    NearestListed (build p options) p s t chain := by
  have hr := represents_build p options
  have hlookup : (((build p options).resolve t s).outcome ∅).1
      = .ok (chain.findSome? (p.declared? · s)) := by
    have hmeans := resolve_means_of_ends hr ⟨chain, hchain⟩ s
    rw [(Query.ensures_iff.mp hmeans ∅ honest_empty).1]
    exact lookup_eq_findSome? hr hreceivers (hr.superclass?_eq ▸ hchain)
  -- two types in a row are linked, and after a type without a link comes nothing
  have hnext : ∀ nearer a b farther, chain = nearer ++ a :: b :: farther →
      (build p options).superclass? a = some b := by
    intro nearer a b farther hsplit
    rw [hsplit] at hchain
    cases hchain.of_append with
    | link hsome hrest =>
      rcases hrest.head_eq with ⟨rest, hrest⟩
      rw [hsome, (List.cons.inj hrest).1]
  constructor
  case found =>
    intro m
    rw [hlookup, Except.ok.injEq, List.findSome?_eq_some_iff]
    simp only [declared?_eq_some_iff hr, declared?_eq_none_iff hr]
  case missing =>
    rw [hlookup, Except.ok.injEq, List.findSome?_eq_none_iff]
    simp only [declared?_eq_none_iff hr]
  case links =>
    intro nearer a b farther hsplit
    exact (superclass?_eq_some_iff hr).mp (hnext nearer a b farther hsplit)
  case firsts =>
    intro a _ c
    exact definition?_eq_some_iff hr
  case ends =>
    intro nearer a farther hsplit hundefined
    cases farther with
    | nil => rfl
    | cons b farther =>
      rcases (superclass?_eq_some_iff hr).mp (hnext nearer a b farther hsplit) with ⟨c, hc, -⟩
      rw [hundefined] at hc
      cases hc

end Hierarchy

/-! ## An example -/

namespace Shapes

open Hierarchy

def figure : TypeName := ⟨"Figure"⟩

/-- The area after scaling. -/
def scaledArea : Signature := { area with params := [⟨"int"⟩] }

/-- A disk is a shape, and a shape is a figure, which the program does not define. A second definition
that would make shapes disks is skipped. The area is overloaded, and listed twice. A blob is its own
parent, which does not concern disks. -/
def layered : Program where
  classes := [
    { name := disk, parent := some shape, methods := [.declaredBy disk scaledArea] },
    { name := shape, parent := some figure, methods := [.declaredBy shape scaledArea,
        .declaredBy shape area, .declaredBy shape area ⟨0x10⟩] },
    { name := shape, parent := some disk },
    { name := blob, parent := some blob }]

/-- A blob is on a cycle, which does not concern a disk: it has its area from a shape, the nearest
of two ancestors that have one. -/
theorem nearest_ancestor_resolves_layered :
    layered.HasReceivers ∧ OnCycle layered.parent? blob
    ∧ Chain (build layered).superclass? disk [disk, shape, figure]
    ∧ (((build layered).resolve disk area).outcome ∅).1 = .ok (some (.declaredBy shape area))
    ∧ NearestListed (build layered) layered area disk [disk, shape, figure] := by
  have hreceivers : layered.HasReceivers := by decide
  have hcycle : OnCycle layered.parent? blob := .single rfl
  have hchain : Chain (build layered).superclass? disk [disk, shape, figure] :=
    .link rfl (.link rfl (.last rfl))
  exact ⟨hreceivers, hcycle, hchain, rfl,
    nearest_ancestor_resolves layered {} hreceivers disk area _ hchain⟩

end Shapes

end ClassHierarchy

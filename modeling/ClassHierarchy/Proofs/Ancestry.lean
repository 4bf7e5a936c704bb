import ClassHierarchy.Hierarchy.Walks
import ClassHierarchy.Proofs.Construction

/-!
# Ancestry

A climb is bounded by the number of definitions. Where the chain of parents ends, this bound is never
met: the climb from a type is the one from its parent with one type more (`climb_of_parent`). What
holds of climbs is proved by induction along them (`climb_induction`).

* `climb_outcome`: answers known beforehand shorten a climb and do not change its outcome, provided
  that they are right.
* `climb_scanned`: the answer of a climb is right for every type that it scanned.
-/

namespace ClassHierarchy.Hierarchy

variable {h : Hierarchy} {p : Program} {t u : TypeName} {s : Signature}
  {known : TypeName → Option (Option Method)} {l : List TypeName}

/-! ## Chains of parents -/

/-- Only the last type of a chain of parents may be undefined, so a chain has one type more than are
defined at most. -/
theorem Represents.chain_length_le (hr : h.Represents p) (hl : Chain h.superclass? t l) :
    l.length ≤ h.size + 1 := by
  rw [hr.superclass?_eq] at hl
  have hlen := hl.length_le fun x y hxy => Program.mem_of_parent? hxy
  rwa [List.length_map, ← hr.size_eq] at hlen

/-- Without cycles every chain of parents ends. -/
theorem Represents.ends (hr : h.Represents p) (hacyclic : p.Acyclic) (t : TypeName) :
    Ends h.superclass? t := by
  rw [hr.superclass?_eq]
  exact ends_of_acyclic (fun _ _ hxy => Program.mem_of_parent? hxy) fun u _ => hacyclic u

/-! ## The climb without its bound -/

/-- Two bounds that both have room for the chain give the same climb. -/
theorem climbWithin_eq (hl : Chain h.superclass? t l) {n m : Nat} (hn : l.length ≤ n)
    (hm : l.length ≤ m) : h.climbWithin s known n t = h.climbWithin s known m t := by
  induction hl generalizing n m with
  | last hnone =>
    -- a chain has a member, so both bounds leave room for a step
    rw [List.length_singleton] at hn hm
    obtain ⟨n, rfl⟩ : ∃ k, n = k + 1 := ⟨n - 1, by omega⟩
    obtain ⟨m, rfl⟩ : ∃ k, m = k + 1 := ⟨m - 1, by omega⟩
    simp only [climbWithin, hnone]
  | link hsome _ ih =>
    rw [List.length_cons] at hn hm
    obtain ⟨n, rfl⟩ : ∃ k, n = k + 1 := ⟨n - 1, by omega⟩
    obtain ⟨m, rfl⟩ : ∃ k, m = k + 1 := ⟨m - 1, by omega⟩
    have hrest := ih (n := n) (m := m) (by omega) (by omega)
    simp only [climbWithin, hsome, hrest]

/-- A climb goes on with the climb from the parent, where the chain ends. -/
theorem climb_of_parent (hr : h.Represents p) (hends : Ends h.superclass? t)
    (hunknown : known t = none) (hdeclared : h.declared t s = .ok none)
    (hparent : h.superclass? t = some u) :
    h.climb s known t = (h.climb s known u).after t := by
  obtain ⟨l, hl⟩ := hends
  have hlen := hr.chain_length_le hl
  cases hl with
  | last hnone => rw [hnone] at hparent; cases hparent
  | link hsome hrest =>
    obtain rfl := linked_unique hparent hsome
    -- the parent is climbed with one type less to go, which its chain does not need
    rw [List.length_cons] at hlen
    have hagree : h.climbWithin s known h.size u = h.climbWithin s known (h.size + 1) u :=
      climbWithin_eq hrest (by omega) (by omega)
    rw [climb, climbWithin]
    simp only [hunknown, hdeclared, hparent, hagree]
    rfl

/-- Induction along a climb, over the ways in which it can go on. -/
theorem climb_induction {motive : TypeName → Climb → Prop} (hr : h.Represents p)
    (hends : Ends h.superclass? t)
    (recalled : ∀ t answer, known t = some answer → motive t ⟨[], true, .ok answer⟩)
    (fault : ∀ t fault, known t = none → h.declared t s = .error fault →
      motive t ⟨[t], false, .error fault⟩)
    (found : ∀ t m, known t = none → h.declared t s = .ok (some m) →
      motive t ⟨[t], false, .ok (some m)⟩)
    (root : ∀ t, known t = none → h.declared t s = .ok none → h.superclass? t = none →
      motive t ⟨[t], false, .ok none⟩)
    (parent : ∀ t u, known t = none → h.declared t s = .ok none → h.superclass? t = some u →
      Ends h.superclass? t → motive u (h.climb s known u) →
      motive t ((h.climb s known u).after t)) :
    motive t (h.climb s known t) := by
  obtain ⟨l, hl⟩ := hends
  induction hl with
  | @last t hnone =>
    rw [climb, climbWithin]
    cases hknown : known t with
    | some answer => exact recalled t answer hknown
    | none =>
      cases hdeclared : h.declared t s with
      | error f => exact fault t f hknown hdeclared
      | ok method? =>
        cases method? with
        | some m => exact found t m hknown hdeclared
        | none => simpa only [hnone] using root t hknown hdeclared hnone
  | @link t u l hsome hrest ih =>
    have hends : Ends h.superclass? t := ⟨t :: l, .link hsome hrest⟩
    cases hknown : known t with
    | some answer =>
      rw [climb, climbWithin, hknown]
      exact recalled t answer hknown
    | none =>
      cases hdeclared : h.declared t s with
      | error f =>
        rw [climb, climbWithin, hknown, hdeclared]
        exact fault t f hknown hdeclared
      | ok method? =>
        cases method? with
        | some m =>
          rw [climb, climbWithin, hknown, hdeclared]
          exact found t m hknown hdeclared
        | none =>
          rw [climb_of_parent hr hends hknown hdeclared hsome]
          exact parent t u hknown hdeclared hsome hends ih

/-! ## What a signature means -/

/-- A fault in the first type is the outcome of the climb. -/
theorem lookup_of_fault {fault : Fault} (hdeclared : h.declared t s = .error fault) :
    h.lookup t s = .error fault := by
  rw [lookup, climb, climbWithin, hdeclared]

/-- A method of the first type is the outcome of the climb. -/
theorem lookup_of_found {m : Method} (hdeclared : h.declared t s = .ok (some m)) :
    h.lookup t s = .ok (some m) := by
  rw [lookup, climb, climbWithin, hdeclared]

/-- Where the first type declares nothing and has no parent, nothing is found. -/
theorem lookup_of_root (hdeclared : h.declared t s = .ok none) (hroot : h.superclass? t = none) :
    h.lookup t s = .ok none := by
  rw [lookup, climb, climbWithin, hdeclared]
  simp only [hroot]

/-- What a type does not define, it has from its parent. -/
theorem lookup_of_parent (hr : h.Represents p) (hends : Ends h.superclass? t)
    (hdeclared : h.declared t s = .ok none) (hparent : h.superclass? t = some u) :
    h.lookup t s = h.lookup u s := by
  rw [lookup, climb_of_parent hr hends rfl hdeclared hparent]
  rfl

/-! ## What is known beforehand -/

/-- The outcome of a climb does not depend on what was known, as long as it was right. -/
theorem climb_outcome (hr : h.Represents p) (hends : Ends h.superclass? t)
    (hright : ∀ u answer, known u = some answer → h.lookup u s = .ok answer) :
    (h.climb s known t).outcome = h.lookup t s := by
  apply climb_induction (motive := fun t c => c.outcome = h.lookup t s) hr hends
  case recalled =>
    intro t answer hknown
    exact (hright t answer hknown).symm
  case fault =>
    intro t fault _ hdeclared
    exact (lookup_of_fault hdeclared).symm
  case found =>
    intro t m _ hdeclared
    exact (lookup_of_found hdeclared).symm
  case root =>
    intro t _ hdeclared hroot
    exact (lookup_of_root hdeclared hroot).symm
  case parent =>
    intro t u _ hdeclared hparent hends ih
    rw [lookup_of_parent hr hends hdeclared hparent]
    exact ih

/-- The outcome of a climb is the one of every type that it scanned. -/
theorem climb_scanned (hr : h.Represents p) (hends : Ends h.superclass? t)
    (hright : ∀ u answer, known u = some answer → h.lookup u s = .ok answer) :
    ∀ u ∈ (h.climb s known t).scanned, h.lookup u s = (h.climb s known t).outcome := by
  apply climb_induction
    (motive := fun t c => ∀ u ∈ c.scanned, h.lookup u s = c.outcome) hr hends
  case recalled =>
    intro t answer _ u hu
    cases hu
  case fault =>
    intro t fault _ hdeclared u hu
    obtain rfl := List.mem_singleton.mp hu
    exact lookup_of_fault hdeclared
  case found =>
    intro t m _ hdeclared u hu
    obtain rfl := List.mem_singleton.mp hu
    exact lookup_of_found hdeclared
  case root =>
    intro t _ hdeclared hroot u hu
    obtain rfl := List.mem_singleton.mp hu
    exact lookup_of_root hdeclared hroot
  case parent =>
    intro t v _ hdeclared hparent hends ih u hu
    rcases List.mem_cons.mp hu with rfl | hu
    · -- the lowest type has its answer from its parent
      have hv : Ends h.superclass? v := (ends_iff_of_linked hparent).mp hends
      rw [lookup_of_parent hr hends hdeclared hparent]
      exact (climb_outcome hr hv hright).symm
    · exact ih u hu

end ClassHierarchy.Hierarchy

/-! ## An example -/

namespace ClassHierarchy.Shapes

def shape : TypeName := ⟨"Shape"⟩
def disk : TypeName := ⟨"Disk"⟩
def ring : TypeName := ⟨"Ring"⟩
def blob : TypeName := ⟨"Blob"⟩

def area : Signature := { name := "area", result := ⟨"int"⟩, params := [] }

/-- A disk is a shape, and a ring is a disk with an area of its own. So is a blob a shape, with the
given method for its area. -/
def programWith (blobArea : Method) : Program where
  classes := [
    { name := shape, methods := [.declaredBy shape area] },
    { name := disk, parent := some shape },
    { name := ring, parent := some disk, methods := [.declaredBy ring area] },
    { name := blob, parent := some shape, methods := [blobArea] }]

/-- Shapes as they should be. -/
def program : Program :=
  programWith (.declaredBy blob area)

/-- The area of a blob is declared without a receiver. -/
def flawed : Program :=
  programWith { owner := blob, name := "area", result := ⟨"int"⟩, params := [] }

/-- A shape stands above all others, and a disk above a ring. -/
theorem acyclic_programWith (blobArea : Method) : (programWith blobArea).Acyclic := by
  refine Program.acyclic_of_rank (fun t => if t = shape then 2 else if t = disk then 1 else 0) ?_
  simp [programWith, shape, disk, ring, blob]

end ClassHierarchy.Shapes

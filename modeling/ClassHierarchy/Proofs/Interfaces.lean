import ClassHierarchy.Proofs.Inheritance
import ClassHierarchy.Proofs.OpenReceivers
import ClassHierarchy.Proofs.Searches

/-!
# Methods of implementors

A class that implements an interface may have a method of the interface from above, from a class that
knows nothing of the interface. Two queries ask for the methods that implementors have. Both go down
from some types, and find a method where it is declared.

* `mem_runs_iff`: a call on a receiver of unknown type may run the methods that are declared at or
  below the static type, and the one that the static type has from above. Implementors of the static
  type are no subclasses of it, so a call on an interface leaves them out.
* `mem_implementationsOf_iff`: the search for implementors finds the methods that are declared where
  it comes to, at or below a root. What a root has from above it leaves out.
-/

namespace ClassHierarchy

variable {p : Program} {m n : Method} {s : Signature} {t u b : TypeName}

/-! ## An example -/

namespace Drawings

open Hierarchy

def drawable : TypeName := ⟨"Drawable"⟩
def shape : TypeName := ⟨"Shape"⟩
def disk : TypeName := ⟨"Disk"⟩
def ring : TypeName := ⟨"Ring"⟩

def draw : Signature := { name := "draw", result := ⟨"void"⟩, params := [] }

/-- Shapes can be drawn, and only disks say so. A ring is a disk that is drawn in its own way. -/
def program : Program where
  classes := [
    { name := drawable, modifiers := ⟨0x200⟩ },
    { name := shape, methods := [.declaredBy shape draw] },
    { name := disk, parent := some shape, interfaces := [drawable] },
    { name := ring, parent := some disk, methods := [.declaredBy ring draw] }]

/-- A parameter is drawn of which only this is known. -/
def drawParameter : CallSite where
  location := { caller := .declaredBy shape { name := "show", result := ⟨"void"⟩, params := [] } }
  kind := .interface
  signature := draw
  receiver := .parameter 0 drawable

theorem onUnknown_drawParameter : drawParameter.OnUnknown :=
  ⟨by decide, [], .inl ⟨0, drawable, rfl⟩⟩

theorem validate_program : program.validate = .ok () :=
  Program.validate_of_isOk (by decide +kernel)

theorem allImplementations_drawable : (build program).allImplementations drawable = [disk] := by
  have hfirst : TypeName.fresh (.ofList [drawable]) ([drawable].flatMap (build program).listers)
      = [disk] := rfl
  have hlast : ∀ visited, TypeName.fresh visited ([disk].flatMap (build program).listers) = [] :=
    fun _ => rfl
  rw [allImplementations, levels, hfirst, levels, hlast, levels]
  rfl

/-- A disk is drawable, and a ring is so only through it. -/
theorem disk_mem_allImplementations : disk ∈ (build program).allImplementations drawable := by
  rw [allImplementations_drawable]
  exact List.mem_singleton_self disk

/-- A disk has its method from a shape, which is not drawable, so only the method of a ring is
found. -/
theorem implementationsOf_drawable :
    (build program).implementationsOf drawable draw = .ok [.declaredBy ring draw] := by
  have hroots : (build program).implementorRoots drawable = [disk] := by
    rw [implementorRoots, allImplementations_drawable]
    rfl
  have hdisk : (build program).subclasses disk = [ring] := rfl
  have hring : (build program).subclasses ring = [] := rfl
  have htypes : (build program).implementorTypes drawable = [disk, ring] := by
    rw [implementorTypes, hroots, descend, dif_neg (by decide), hdisk, List.append_nil, descend,
      dif_neg (by decide), hring, List.append_nil, descend]
  rw [implementationsOf, htypes]
  rfl

end Drawings

namespace Hierarchy

section WellFormed

variable {h : Hierarchy} (hr : h.Represents p) (hwell : p.WellFormed)
include hr hwell

/-- A signature means no two methods of one owner. Among its meanings a method can be told by its
identity. -/
theorem id_mem_map_iff {ms : List Method} (hm : h.lookup t s = .ok (some m))
    (hms : ∀ n ∈ ms, ∃ u, h.lookup u s = .ok (some n)) : m.id ∈ ms.map Method.id ↔ m ∈ ms := by
  constructor
  · intro hid
    rcases List.mem_map.mp hid with ⟨n, hn, hid⟩
    rcases hms n hn with ⟨u, hu⟩
    have howner : n.owner = m.owner := congrArg MethodId.owner hid
    have hm := (lookup_eq_some_iff_owner hr hwell).mp hm
    have hu := (lookup_eq_some_iff_owner hr hwell).mp hu
    rw [howner] at hu
    rwa [← hu.unique hm]
  · intro hmem
    exact List.mem_map_of_mem hmem

/-! ## What runs on subtypes -/

/-- A method that some type has runs on a subtype of `b` if it is declared at or below `b`, or if `b`
has it too. -/
theorem mem_runs_iff {below : List TypeName} {runs : TypeName → Option Method}
    (hbelow : PreOrder p [b] below) (hruns : ∀ t, h.lookup t s = .ok (runs t))
    (hm : runs t = some m) :
    m ∈ below.filterMap runs ↔ m.owner ∈ below ∨ h.lookup b s = .ok (some m) := by
  have hacyclic := hwell.parents_acyclic
  have hruns_iff : ∀ u, runs u = some m ↔ ∃ a, p.Inherits s m u a := by
    intro u
    rw [← lookup_eq_some_iff hr hacyclic hwell.receivers, hruns, Except.ok.injEq]
  rw [List.mem_filterMap, lookup_eq_some_iff hr hacyclic hwell.receivers]
  simp only [hruns_iff, hbelow.mem_singleton_iff, Program.exists_inherits_below_iff hacyclic]
  -- in a well-formed program the owner is the only type that declares the method
  refine or_congr_left ⟨?_, fun howner => ⟨m.owner, howner, ?_⟩⟩
  · rintro ⟨a, hab, hown⟩
    rwa [Program.owner_of_mem_declaredAll hwell (Program.mem_declaredAll_of_declared hown)]
  · have hlookup : h.lookup t s = .ok (some m) := by rw [hruns, hm]
    exact ((lookup_eq_some_iff_owner hr hwell).mp hlookup).declared

/-! ## What the search for implementors finds -/

/-- Where extension is modelled, the search comes to the types at or below an implementor, and at or
below the type itself if it is a class. -/
theorem mem_implementorTypes_iff_below (hextension : h.options.interfaceExtension) :
    u ∈ h.implementorTypes t ↔ ∃ root below,
      (root ∈ h.allImplementations t ∨ h.isClass t ∧ root = t)
      ∧ h.allSubclasses root = .ok below ∧ u ∈ below := by
  have hacyclic := hwell.parents_acyclic
  rw [mem_implementorTypes hr]
  constructor
  · rintro ⟨root, hroot, hreaches⟩
    rcases allSubclasses_eq hr (hacyclic root) with ⟨below, hbelow, horder⟩
    exact ⟨root, below, (mem_implementorRoots_of_extension hr hextension).mp hroot, hbelow,
      horder.mem_singleton_iff.mpr hreaches⟩
  · rintro ⟨root, below, hroot, hbelow, hu⟩
    exact ⟨root, (mem_implementorRoots_of_extension hr hextension).mpr hroot,
      (mem_allSubclasses_iff hr (hacyclic root) hbelow).mp hu⟩

/-- The search finds a declaration if it comes to the owner. The identity of a method is enough to
tell. -/
theorem mem_implementationsOf_iff (hm : m ∈ p.declaredAll m.owner s) :
    ∃ found, h.implementationsOf t s = .ok found
      ∧ (m ∈ found ↔ m.owner ∈ h.implementorTypes t)
      ∧ (m.id ∈ found.map Method.id ↔ m.owner ∈ h.implementorTypes t) := by
  refine ⟨_, implementationsOf_eq hr hwell.receivers t s, ?_, ?_⟩
  · rw [List.mem_flatMap]
    constructor
    · rintro ⟨u, hu, hmu⟩
      rwa [Program.owner_of_mem_declaredAll hwell hmu]
    · intro howner
      exact ⟨m.owner, howner, hm⟩
  · rw [List.mem_map]
    constructor
    · rintro ⟨n, hn, hid⟩
      obtain ⟨u, hu, hnu⟩ := List.mem_flatMap.mp hn
      have howner : n.owner = m.owner := congrArg MethodId.owner hid
      rwa [← howner, Program.owner_of_mem_declaredAll hwell hnu]
    · intro howner
      exact ⟨m, List.mem_flatMap.mpr ⟨m.owner, howner, hm⟩, rfl⟩

end WellFormed

/-! ## Calls on interfaces -/

/-- Of the methods that types have for a signature, a call on a receiver of unknown type may run those
that are declared at or below its static type, and the one that the static type has. This is all that
an interface lets through of what its implementors have. -/
theorem unknown_receiver_target_iff (p : Program) (options : Options) (hvalid : p.validate = .ok ())
    (site : CallSite) (hsite : site.OnUnknown) (memo : Memo) (hhonest : (build p options).Honest memo)
    (t : TypeName) (m : Method)
    (hresolve : (((build p options).resolve t site.signature).outcome memo).1 = .ok (some m)) :
    ∃ targets below, (build p options).Dispatches site targets
      ∧ (build p options).allSubclasses site.receiver.type = .ok below
      ∧ (m.id ∈ targets.map Method.id ↔ m ∈ targets)
      ∧ (m ∈ targets ↔ m.owner ∈ below
        ∨ (((build p options).resolve site.receiver.type site.signature).outcome memo).1
          = .ok (some m)) := by
  have hwell := Program.validate_eq_ok_iff.mp hvalid
  have hacyclic := hwell.parents_acyclic
  have hr := represents_build p options
  have hmeans := fun u => (resolve_means hr hacyclic u site.signature memo hhonest).1
  obtain ⟨runs, hruns⟩ := exists_lookup hr hacyclic hwell.receivers site.signature
  obtain ⟨below, hbelow, horder⟩ := allSubclasses_eq hr (hacyclic site.receiver.type)
  have hlookup : (build p options).lookup t site.signature = .ok (some m) :=
    (hmeans t).symm.trans hresolve
  have hm : runs t = some m := Except.ok.inj ((hruns t).symm.trans hlookup)
  have hlookups : ∀ n ∈ below.filterMap runs, ∃ u,
      (build p options).lookup u site.signature = .ok (some n) := by
    intro n hn
    rcases List.mem_filterMap.mp hn with ⟨u, -, hrun⟩
    exact ⟨u, (hruns u).trans (congrArg _ hrun)⟩
  have hids := id_mem_map_iff hr hwell hlookup hlookups
  -- the targets are some of these methods, and all their identities
  have hfirsts := id_mem_map_iff hr hwell hlookup fun n hn =>
    hlookups n ((firstsBy_sublist Method.id _).subset hn)
  refine ⟨_, below, dispatches_unknown hr hacyclic hruns hsite rfl hbelow, hbelow, hfirsts, ?_⟩
  rw [← hfirsts, mem_map_firstsBy, hids, mem_runs_iff hr hwell horder hruns hm]
  exact or_congr_right (by rw [← hmeans]; rfl)

section Example

open Drawings

/-- Drawing a disk runs the method of a shape, which is neither below what is drawable nor found for
it. -/
theorem unknown_receiver_target_iff_drawings :
    program.validate = .ok () ∧ drawParameter.OnUnknown ∧ (build program).Honest ∅
    ∧ (((build program).resolve disk draw).outcome ∅).1 = .ok (some (.declaredBy shape draw))
    ∧ ∃ targets below, (build program).Dispatches drawParameter targets
      ∧ (build program).allSubclasses drawable = .ok below
      ∧ ((Method.declaredBy shape draw).id ∈ targets.map Method.id
        ↔ .declaredBy shape draw ∈ targets)
      ∧ (.declaredBy shape draw ∈ targets ↔ shape ∈ below
        ∨ (((build program).resolve drawable draw).outcome ∅).1
          = .ok (some (.declaredBy shape draw))) :=
  ⟨validate_program, onUnknown_drawParameter, honest_empty, rfl,
    unknown_receiver_target_iff program {} validate_program drawParameter onUnknown_drawParameter ∅
      honest_empty disk (.declaredBy shape draw) rfl⟩

/-- A call on an interface runs none of the methods that its implementors have, neither inherited nor
their own. -/
theorem interface_call_misses_implementors :
    program.validate = .ok () ∧ ((build program).definition? drawable).any (·.isInterface)
    ∧ disk ∈ (build program).allImplementations drawable
    ∧ (build program).allSubclasses disk = .ok [disk, ring]
    ∧ (((build program).resolve disk draw).outcome ∅).1 = .ok (some (.declaredBy shape draw))
    ∧ (((build program).resolve ring draw).outcome ∅).1 = .ok (some (.declaredBy ring draw))
    ∧ drawParameter.OnUnknown ∧ drawParameter.kind = .interface
    ∧ drawParameter.receiver.type = drawable
    ∧ (((build program).dispatch drawParameter).outcome ∅).1.map Targets.toList = .ok [] :=
  ⟨validate_program, rfl, disk_mem_allImplementations, rfl, rfl, rfl, onUnknown_drawParameter, rfl,
    rfl, rfl⟩

end Example

/-! ## Methods found for implementors -/

/-- Of the methods that an implementor and its subtypes have, the search for implementors finds those
that are declared at or below a root. What it does not find, the implementor has from above. -/
theorem implementor_method_found_iff (p : Program) (options : Options)
    (hextension : options.interfaceExtension) (hvalid : p.validate = .ok ()) (memo : Memo)
    (hhonest : (build p options).Honest memo) (i c : TypeName)
    (hc : c ∈ (build p options).allImplementations i) (types : List TypeName)
    (htypes : (build p options).allSubclasses c = .ok types) (t : TypeName) (ht : t ∈ types)
    (s : Signature) (m : Method)
    (hresolve : (((build p options).resolve t s).outcome memo).1 = .ok (some m)) :
    ∃ found, (build p options).implementationsOf i s = .ok found
      ∧ (m.id ∈ found.map Method.id ↔ m ∈ found)
      ∧ (m ∈ found ↔ ∃ root below,
        (root ∈ (build p options).allImplementations i ∨ (build p options).isClass i ∧ root = i)
        ∧ (build p options).allSubclasses root = .ok below ∧ m.owner ∈ below)
      ∧ (m ∉ found → m.owner ∉ types ∧ Reaches p.parent? c m.owner
        ∧ (((build p options).resolve c s).outcome memo).1 = .ok (some m)) := by
  have hwell := Program.validate_eq_ok_iff.mp hvalid
  have hacyclic := hwell.parents_acyclic
  have hr := represents_build p options
  have hmeans := fun u => (resolve_means hr hacyclic u s memo hhonest).1
  have hinherits : p.Inherits s m t m.owner :=
    (lookup_eq_some_iff_owner hr hwell).mp ((hmeans t).symm.trans hresolve)
  have hextension : (build p options).options.interfaceExtension := by
    rw [options_build]
    exact hextension
  rcases mem_implementationsOf_iff (t := i) hr hwell hinherits.mem_declaredAll
    with ⟨found, hfound, hmem, hid⟩
  have hbelow := hmem.trans (mem_implementorTypes_iff_below hr hwell hextension)
  refine ⟨found, hfound, hid.trans hmem.symm, hbelow, ?_⟩
  intro hmissed
  have howner : m.owner ∉ types := fun howner =>
    hmissed (hbelow.mpr ⟨c, types, .inl hc, htypes, howner⟩)
  have hwalk := fun u => mem_allSubclasses_iff (u := u) hr (hacyclic c) htypes
  -- the implementor is above the declaration, or has the method from there
  rcases hinherits.below_or_above hacyclic ((hwalk t).mp ht) with hdeclared | habove
  · exact absurd ((hwalk m.owner).mpr hdeclared) howner
  · have hlookup := (lookup_eq_some_iff_owner hr hwell).mpr habove
    exact ⟨howner, habove.reaches, (hmeans c).trans hlookup⟩

section Example

open Drawings

/-- Drawing a disk runs the method of a shape, and no root has a shape below it. -/
theorem implementor_method_found_iff_drawings :
    program.validate = .ok () ∧ disk ∈ (build program).allImplementations drawable
    ∧ (build program).allSubclasses disk = .ok [disk, ring] ∧ disk ∈ [disk, ring]
    ∧ (((build program).resolve disk draw).outcome ∅).1 = .ok (some (.declaredBy shape draw))
    ∧ ∃ found, (build program).implementationsOf drawable draw = .ok found
      ∧ ((Method.declaredBy shape draw).id ∈ found.map Method.id ↔ .declaredBy shape draw ∈ found)
      ∧ (.declaredBy shape draw ∈ found ↔ ∃ root below,
        (root ∈ (build program).allImplementations drawable
          ∨ (build program).isClass drawable ∧ root = drawable)
        ∧ (build program).allSubclasses root = .ok below ∧ shape ∈ below)
      ∧ (.declaredBy shape draw ∉ found → shape ∉ [disk, ring]
        ∧ Reaches program.parent? disk shape
        ∧ (((build program).resolve disk draw).outcome ∅).1
          = .ok (some (.declaredBy shape draw))) :=
  ⟨validate_program, disk_mem_allImplementations, rfl, by decide, rfl,
    implementor_method_found_iff program {} rfl validate_program ∅ honest_empty drawable disk
      disk_mem_allImplementations [disk, ring] rfl disk (by decide) draw (.declaredBy shape draw)
      rfl⟩

/-- What a disk has from a shape is not found for the implementors of the interface. -/
theorem inherited_method_not_found :
    program.validate = .ok () ∧ disk ∈ (build program).allImplementations drawable
    ∧ (build program).allSubclasses disk = .ok [disk, ring] ∧ disk ∈ [disk, ring]
    ∧ (((build program).resolve disk draw).outcome ∅).1 = .ok (some (.declaredBy shape draw))
    ∧ (build program).implementationsOf drawable draw = .ok [.declaredBy ring draw]
    ∧ .declaredBy shape draw ∉ [Method.declaredBy ring draw] :=
  ⟨validate_program, disk_mem_allImplementations, rfl, by decide, rfl, implementationsOf_drawable,
    by decide⟩

end Example

end Hierarchy

end ClassHierarchy

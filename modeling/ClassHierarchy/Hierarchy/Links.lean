import ClassHierarchy.TypeName

/-!
# Links between types

A finite relation between types in which the successors of a type keep the order in which they were
linked. A link that is added twice is there twice.

* `Links.successors_add`: adding a link appends to the successors of its source and changes nothing
  else.
* `Links.successors_addAll`: adding links from a list of sources appends once for every occurrence.
-/

namespace ClassHierarchy

/-- Links from a type to the types listed under it. -/
structure Links where
  lists : Std.TreeMap TypeName (Array TypeName) := ∅
  /-- The number of links. -/
  size : Nat := 0

namespace Links

instance : EmptyCollection Links := ⟨{}⟩

instance : Inhabited Links := ⟨∅⟩

/-- The types to which a type is linked, in the order of linking. -/
def successors (links : Links) (source : TypeName) : List TypeName :=
  (links.lists.getD source #[]).toList

/-- One more link. -/
def add (links : Links) (source target : TypeName) : Links where
  lists := links.lists.alter source fun list? => some ((list?.getD #[]).push target)
  size := links.size + 1

/-- A link to the same target from each of several sources. -/
def addAll (links : Links) (sources : List TypeName) (target : TypeName) : Links :=
  sources.foldl (fun links source => links.add source target) links

@[simp] theorem successors_empty (t : TypeName) : successors ∅ t = [] := by
  show ((∅ : Std.TreeMap TypeName (Array TypeName)).getD t #[]).toList = []
  simp

/-- A new link stands behind those that its source had before. -/
@[simp] theorem successors_add (links : Links) (source target t : TypeName) :
    (links.add source target).successors t
      = links.successors t ++ (if source = t then [target] else []) := by
  by_cases h : source = t
  · subst h
    simp [successors, add, Std.TreeMap.getD_eq_getD_getElem?]
  · simp [successors, add, Std.TreeMap.getD_alter, h]

@[simp] theorem addAll_nil (links : Links) (target : TypeName) : links.addAll [] target = links :=
  rfl

@[simp] theorem addAll_cons (links : Links) (source : TypeName) (sources : List TypeName)
    (target : TypeName) :
    links.addAll (source :: sources) target = (links.add source target).addAll sources target :=
  rfl

/-- Every occurrence of a type among the sources gives it one link more. -/
theorem successors_addAll (links : Links) (sources : List TypeName) (target t : TypeName) :
    (links.addAll sources target).successors t
      = links.successors t ++ List.replicate (sources.count t) target := by
  induction sources generalizing links with
  | nil => simp
  | cons source sources ih =>
    rw [addAll_cons, ih, successors_add]
    by_cases h : source = t
    · subst h
      simp [List.replicate_succ]
    · simp [h]

/-- The types that have a list of successors. -/
def sources (links : Links) : List TypeName :=
  links.lists.keys

/-- The types that are a successor of some type. -/
def targets (links : Links) : List TypeName :=
  links.lists.toList.flatMap (·.2.toList)

/-- What is not the source of a link has no successors. -/
theorem successors_eq_nil {links : Links} {t : TypeName} (habsent : t ∉ links.sources) :
    links.successors t = [] := by
  have : t ∉ links.lists := by simpa [sources] using habsent
  simp [successors, Std.TreeMap.getD_eq_fallback this]

/-- A successor of some source is among all targets. -/
theorem mem_targets {links : Links} {t u : TypeName} (hlinked : u ∈ links.successors t) :
    u ∈ links.targets := by
  unfold successors at hlinked
  rw [Std.TreeMap.getD_eq_getD_getElem?] at hlinked
  cases hfound : links.lists[t]? with
  | none => simp [hfound] at hlinked
  | some list =>
    rw [hfound] at hlinked
    have hlisted : (t, list) ∈ links.lists.toList :=
      Std.TreeMap.mem_toList_iff_getElem?_eq_some.mpr hfound
    exact List.mem_flatMap.mpr ⟨(t, list), hlisted, hlinked⟩

@[simp] theorem size_empty : size ∅ = 0 := rfl

@[simp] theorem size_add (links : Links) (source target : TypeName) :
    (links.add source target).size = links.size + 1 := rfl

/-- Every source brings one link, whether it had links before or not. -/
theorem size_addAll (links : Links) (sources : List TypeName) (target : TypeName) :
    (links.addAll sources target).size = links.size + sources.length := by
  induction sources generalizing links with
  | nil => rfl
  | cons source sources ih =>
    rw [addAll_cons, ih, size_add, List.length_cons]
    omega

end Links

end ClassHierarchy

import ClassHierarchy.Hierarchy.Implementors
import ClassHierarchy.Proofs.Construction

/-!
# What searches come to

Two searches remember where they have been: the one through interfaces goes level by level, the one
for implementors goes down with a stack. Each step leaves a smaller part of the hierarchy to be
searched, the part outside the visited types, and finds what is linked to its start there
(`mem_levels`, `mem_descend`). Nothing is missed, since a path can be cut where it is inside for the
last time (`exists_last_inside`). At the start nothing is visited, so the searches come to everything
that is linked to their start:

* `mem_allImplementations`: the types that implement an interface or some type that lists it, directly
  and indirectly.
* `mem_implementorTypes`: the types that descend from a root.
-/

namespace ClassHierarchy

open Relation

/-! ## Paths that stay outside -/

section Paths

variable {α : Type} {r : α → α → Prop} {inside inside' : α → Prop} {a b : α}

/-- A link that does not lead inside. -/
def Outside (r : α → α → Prop) (inside : α → Prop) (a b : α) : Prop :=
  r a b ∧ ¬ inside b

/-- To stay outside of two sets is to stay outside of both together. -/
theorem outside_outside :
    Outside (Outside r inside) inside' = Outside r fun x => inside x ∨ inside' x := by
  funext x y
  simp [Outside, not_or, and_assoc]

theorem path_of_outside (hpath : ReflTransGen (Outside r inside) a b) : ReflTransGen r a b :=
  ReflTransGen.mono (fun _ _ hlink => hlink.1) _ _ hpath

/-- A path that stays outside more stays outside less. -/
theorem path_outside_mono (hpath : ReflTransGen (Outside r inside) a b)
    (hless : ∀ x, inside' x → inside x) : ReflTransGen (Outside r inside') a b :=
  ReflTransGen.mono (fun _ y hlink => ⟨hlink.1, fun hy => hlink.2 (hless y hy)⟩) _ _ hpath

/-- A path never comes inside, or it is inside for a last time. -/
theorem outside_or_last_inside (inside : α → Prop) (hpath : ReflTransGen r a b) :
    ReflTransGen (Outside r inside) a b
      ∨ ∃ c, inside c ∧ ReflTransGen (Outside r inside) c b := by
  induction hpath with
  | refl => exact .inl .refl
  | @tail b c _ hlink ih =>
    by_cases hc : inside c
    · exact .inr ⟨c, hc, .refl⟩
    · rcases ih with hpath | ⟨d, hd, hpath⟩
      · exact .inl (hpath.tail ⟨hlink, hc⟩)
      · exact .inr ⟨d, hd, hpath.tail ⟨hlink, hc⟩⟩

/-- A path that starts inside is inside for a last time. -/
theorem exists_last_inside (inside : α → Prop) (hpath : ReflTransGen r a b) (ha : inside a) :
    ∃ c, inside c ∧ ReflTransGen (Outside r inside) c b := by
  rcases outside_or_last_inside inside hpath with hpath | hlast
  · exact ⟨a, ha, hpath⟩
  · exact hlast

/-- A path outside a set ends outside it, if it starts there. -/
theorem not_inside_of_path (hpath : ReflTransGen (Outside r inside) a b) (ha : ¬ inside a) :
    ¬ inside b := by
  rcases hpath.cases_tail with rfl | ⟨c, -, -, hb⟩
  · exact ha
  · exact hb

/-- A path that stays outside leads from one of the starts, itself outside, to `b`. -/
def ReachedOutside (r : α → α → Prop) (inside : α → Prop) (starts : List α) (b : α) : Prop :=
  ∃ a ∈ starts, ¬ inside a ∧ ReflTransGen (Outside r inside) a b

/-- A start is reached, and in its place what is linked to it becomes a start: paths that come through
it again can be cut there. -/
theorem reachedOutside_cons_iff (next rest : List α) (hnext : ∀ x, x ∈ next ↔ r a x)
    (ha : ¬ inside a) : ReachedOutside r inside (a :: rest) b
      ↔ b = a ∨ ReachedOutside r (fun x => x = a ∨ inside x) (next ++ rest) b := by
  constructor
  · rintro ⟨w, hw, hoff, hpath⟩
    have hafter : ∀ x, ReflTransGen (Outside (Outside r inside) (· = a)) x b →
        ReflTransGen (Outside r fun x => x = a ∨ inside x) x b := by
      intro x hx
      rw [outside_outside] at hx
      exact path_outside_mono hx fun y hy => hy.symm
    have hfrom : ReflTransGen (Outside (Outside r inside) (· = a)) a b →
        b = a ∨ ReachedOutside r (fun x => x = a ∨ inside x) (next ++ rest) b := by
      intro hlast
      rcases hlast.cases_head with rfl | ⟨v, ⟨⟨hlink, hv⟩, hva⟩, hrest⟩
      · exact .inl rfl
      · have hv : ¬ (v = a ∨ inside v) := fun h => h.elim hva hv
        exact .inr ⟨v, List.mem_append_left rest ((hnext v).mpr hlink), hv, hafter v hrest⟩
    rcases outside_or_last_inside (· = a) hpath with havoids | ⟨c, rfl, hlast⟩
    · by_cases hwa : w = a
      · exact hfrom (hwa ▸ havoids)
      · have hw : w ∈ rest := (List.mem_cons.mp hw).resolve_left hwa
        have hoff : ¬ (w = a ∨ inside w) := fun h => h.elim hwa hoff
        exact .inr ⟨w, List.mem_append_right next hw, hoff, hafter w havoids⟩
    · exact hfrom hlast
  · rintro (rfl | ⟨w, hw, hoff, hpath⟩)
    · exact ⟨b, List.mem_cons_self, ha, .refl⟩
    · have hoff : ¬ inside w := fun h => hoff (.inr h)
      have hpath : ReflTransGen (Outside r inside) w b :=
        path_outside_mono hpath fun x hx => .inr hx
      rcases List.mem_append.mp hw with hw | hw
      · exact ⟨a, List.mem_cons_self, ha, hpath.head ⟨(hnext w).mp hw, hoff⟩⟩
      · exact ⟨w, List.mem_cons_of_mem a hw, hoff, hpath⟩

end Paths

namespace Hierarchy

variable {h : Hierarchy} {p : Program} {t u : TypeName} {visited : TypeSet}
  {level stack : List TypeName}

/-! ## Level by level -/

/-- `u` lists `t` as an interface. -/
def Lists (h : Hierarchy) (t u : TypeName) : Prop :=
  u ∈ h.listers t

/-- The search goes from its first level along all paths outside the visited types. -/
theorem mem_levels : u ∈ (h.levels visited level).flatten
    ↔ ∃ t ∈ level, ReflTransGen (Outside h.Lists (· ∈ visited)) t u := by
  induction visited, level using levels.induct h with
  | case1 visited => simp [levels]
  | case2 visited t ts next ih =>
    have hnext : ∀ w, w ∈ next ↔ (∃ v ∈ t :: ts, h.Lists v w) ∧ w ∉ visited := by
      intro w
      rw [TypeName.mem_fresh, List.mem_flatMap]
      rfl
    have hvisited : ∀ w, w ∈ visited.insertMany next ↔ w ∈ visited ∨ w ∈ next := by
      intro w
      rw [Std.TreeSet.mem_insertMany_list, List.contains_iff_mem]
    rw [levels, List.flatten_cons, List.mem_append, ih]
    constructor
    · rintro (hu | ⟨w, hw, hpath⟩)
      · exact ⟨u, hu, .refl⟩
      · -- the next level is one link away, and outside more is outside less
        obtain ⟨⟨v, hv, hlists⟩, hfresh⟩ := (hnext w).mp hw
        have hrest : ReflTransGen (Outside h.Lists (· ∈ visited)) w u :=
          path_outside_mono hpath fun x hx => (hvisited x).mpr (.inl hx)
        exact ⟨v, hv, hrest.head ⟨hlists, hfresh⟩⟩
    · rintro ⟨v, hv, hpath⟩
      rcases hpath.cases_head with rfl | ⟨w, ⟨hlists, hfresh⟩, hrest⟩
      · exact .inl hv
      · -- the rest starts in the next level; it is cut where it leaves this level for good
        have hw : w ∈ next := (hnext w).mpr ⟨⟨v, hv, hlists⟩, hfresh⟩
        obtain ⟨w', hw', hlast⟩ := exists_last_inside (· ∈ next) hrest hw
        rw [outside_outside] at hlast
        exact .inr ⟨w', hw', path_outside_mono hlast fun x hx => (hvisited x).mp hx⟩

/-- From one type on, the search comes to all that lists it, directly and indirectly. -/
theorem mem_levels_start : u ∈ (h.levels (.ofList [t]) [t]).flatten ↔ ReflTransGen h.Lists t u := by
  rw [mem_levels]
  constructor
  · rintro ⟨w, hw, hpath⟩
    rw [List.mem_singleton.mp hw] at hpath
    exact path_of_outside hpath
  · intro hpath
    have ht : t ∈ (.ofList [t] : TypeSet) := TypeName.mem_ofList_singleton.mpr rfl
    obtain ⟨w, hw, hlast⟩ := exists_last_inside (· ∈ (.ofList [t] : TypeSet)) hpath ht
    exact ⟨w, List.mem_singleton.mpr (TypeName.mem_ofList_singleton.mp hw), hlast⟩

/-- The implementors of an interface implement it, or what lists it, directly or not. -/
theorem mem_allImplementations : u ∈ h.allImplementations t
    ↔ ∃ v, ReflTransGen h.Lists t v ∧ u ∈ h.implementations v := by
  rw [allImplementations, TypeName.mem_distinct, List.mem_flatMap]
  exact exists_congr fun v => and_congr_left fun _ => mem_levels_start

theorem mem_allImplementations_of_mem (hu : u ∈ h.implementations t) :
    u ∈ h.allImplementations t :=
  mem_allImplementations.mpr ⟨t, .refl, hu⟩

/-! ## Downwards -/

/-- `u` is a subclass of `t`. -/
def HasChild (h : Hierarchy) (t u : TypeName) : Prop :=
  u ∈ h.subclasses t

/-- The descent goes from its stack along all paths outside the visited types. -/
theorem mem_descend : u ∈ h.descend visited stack
    ↔ ReachedOutside h.HasChild (· ∈ visited) stack u := by
  induction visited, stack using descend.induct h with
  | case1 visited => simp [descend, ReachedOutside]
  | case2 visited t stack hold ih =>
    -- a start that was visited leads nowhere
    have hvisited : t ∈ visited := Std.TreeSet.contains_iff_mem.mp hold
    rw [descend, dif_pos hold, ih]
    simp [ReachedOutside, hvisited]
  | case3 visited t stack hnew ih =>
    have hfresh : t ∉ visited := fun ht => hnew (Std.TreeSet.contains_iff_mem.mpr ht)
    have hinsert : (fun x => x ∈ visited.insert t) = fun x => x = t ∨ x ∈ visited := by
      funext x
      rw [TypeName.mem_insert]
    rw [descend, dif_neg hnew, List.mem_cons, ih, hinsert,
      reachedOutside_cons_iff (h.subclasses t) stack (fun x => Iff.rfl) hfresh]

/-- A walk down does not list what was visited before it. -/
theorem not_mem_visited_of_mem_descend (hu : u ∈ h.descend visited stack) : u ∉ visited := by
  obtain ⟨t, -, hoff, hpath⟩ := mem_descend.mp hu
  exact not_inside_of_path hpath hoff

/-- A walk down lists a type once. -/
theorem nodup_descend (h : Hierarchy) (visited : TypeSet) (stack : List TypeName) :
    (h.descend visited stack).Nodup := by
  induction visited, stack using descend.induct h with
  | case1 visited => simp [descend]
  | case2 visited t stack hold ih =>
    rw [descend, dif_pos hold]
    exact ih
  | case3 visited t stack hnew ih =>
    rw [descend, dif_neg hnew, List.nodup_cons]
    refine ⟨fun hmem => ?_, ih⟩
    exact not_mem_visited_of_mem_descend hmem (TypeName.mem_insert.mpr (.inl rfl))

/-- The search for implementors goes down from all roots, whether parents form a cycle or not. -/
theorem mem_implementorTypes_iff_hasChild : u ∈ h.implementorTypes t
    ↔ ∃ root ∈ h.implementorRoots t, ReflTransGen h.HasChild root u := by
  have hlink : Outside h.HasChild (· ∈ (∅ : TypeSet)) = h.HasChild := by
    funext x y
    simp [Outside]
  rw [implementorTypes, mem_descend, ReachedOutside, hlink]
  simp

/-! ## Roots -/

section Represents

variable (hr : h.Represents p)
include hr

/-- The scan over all definitions, whether it is shared among tasks or not. -/
theorem scanImplementors_eq (t : TypeName) : h.scanImplementors t = (p.firstDefinitions.filter fun c =>
    !c.isExtending h.options && c.interfaces.contains t).map ClassDef.name := by
  rw [scanImplementors, ← hr.classes]
  simp only [filterShared_eq_filter, ite_self]

/-- The scan over all definitions finds the implementations that the links have. -/
theorem mem_scanImplementors : u ∈ h.scanImplementors t ↔ u ∈ h.implementations t := by
  rw [scanImplementors_eq hr, hr.mem_implementations_iff, List.mem_map]
  refine exists_congr fun c => ?_
  rw [List.mem_filter, Bool.and_eq_true, List.contains_iff_mem, Bool.not_eq_true']
  tauto

/-- The roots are the implementors, the indirect ones where extension is modelled, and the type itself
if it is a class. -/
theorem mem_implementorRoots : u ∈ h.implementorRoots t ↔ u ∈ h.implementations t
    ∨ (h.options.interfaceExtension ∧ u ∈ h.allImplementations t) ∨ (h.isClass t ∧ u = t) := by
  rw [implementorRoots, TypeName.mem_distinct, List.append_assoc, List.mem_append, List.mem_append,
    mem_scanImplementors hr]
  refine or_congr_right (or_congr ?_ ?_)
  · cases h.options.interfaceExtension <;> simp
  · cases h.isClass t <;> simp

/-- Where extension is modelled, the roots are all implementors, and the type itself if it is a
class. -/
theorem mem_implementorRoots_of_extension (hextension : h.options.interfaceExtension) :
    u ∈ h.implementorRoots t ↔ u ∈ h.allImplementations t ∨ (h.isClass t ∧ u = t) := by
  rw [mem_implementorRoots hr]
  constructor
  · rintro (hdirect | ⟨-, hroot⟩ | hself)
    · exact .inl (mem_allImplementations_of_mem hdirect)
    · exact .inl hroot
    · exact .inr hself
  · rintro (hroot | hself)
    · exact .inr (.inl ⟨hextension, hroot⟩)
    · exact .inr (.inr hself)

/-- The search for implementors comes to all types that descend from a root. -/
theorem mem_implementorTypes : u ∈ h.implementorTypes t
    ↔ ∃ root ∈ h.implementorRoots t, Reaches p.parent? u root := by
  have hlink : h.HasChild = Function.swap (Linked p.parent?) := by
    funext x y
    rw [HasChild, hr.subclasses, Program.mem_children]
    rfl
  rw [mem_implementorTypes_iff_hasChild, hlink]
  simp only [reflTransGen_swap]

end Represents

end Hierarchy

end ClassHierarchy

import ClassHierarchy.Proofs.Searches
import Mathlib.Order.Lattice.Nat

/-!
# Listing paths

A type implements an interface if a path leads from the one to the other, along which every type lists
the next as an interface. Paths may run in circles, and several may lead to the same interface. The
search goes by the length of the shortest one: `AtLevel` says what a level is in terms of paths, and
every level leads to the next (`atLevel_next`).

* `lists_iff`: the links of a hierarchy, in terms of the program. Whether an interface implements or
  extends what it lists, the link is the same.
* `pairwise_levels`: no level has a type that is nearer than a type of a level before.
* `pairwise_allImplementations`: so the implementations come in the order of their distances. A type is
  listed where it was found first, and this is where its shortest path comes from.
* `IsListingClosure`: the implementations of an interface, in terms of the program and of the options.
-/

namespace ClassHierarchy

variable {p : Program} {t u v : TypeName} {n : Nat}

namespace Program

/-- The definition of `u` lists `t` as an interface. -/
def ListsInterface (p : Program) (u t : TypeName) : Prop :=
  ∃ c ∈ p.firstDefinitions, c.name = u ∧ t ∈ c.interfaces

/-- A path of so many links leads to `t`, from a type to an interface that it lists and so on. -/
inductive ListingPath (p : Program) (t : TypeName) : Nat → TypeName → Prop where
  | here : ListingPath p t 0 t
  | link {n : Nat} {u v : TypeName} : p.ListsInterface u v → ListingPath p t n v →
      ListingPath p t (n + 1) u

/-- The shortest path to `t` that is not empty has so many links. -/
def AtDistance (p : Program) (t : TypeName) (n : Nat) (u : TypeName) : Prop :=
  IsLeast {n | 0 < n ∧ p.ListingPath t n u} n

/-- No path from `v` is shorter than all paths from `u`. -/
def NoFarther (p : Program) (t u v : TypeName) : Prop :=
  ∀ n, p.ListingPath t n v → ∃ m ≤ n, p.ListingPath t m u

theorem ListingPath.eq_of_zero (hpath : p.ListingPath t 0 u) : u = t := by
  cases hpath
  rfl

/-- A path of listings is a way from what lists to what is listed. -/
theorem exists_listingPath_iff :
    (∃ n, p.ListingPath t n u) ↔ Relation.ReflTransGen p.ListsInterface u t := by
  constructor
  · rintro ⟨n, hpath⟩
    induction hpath with
    | here => exact .refl
    | link hlists _ ih => exact .head hlists ih
  · intro hreaches
    induction hreaches using Relation.ReflTransGen.head_induction_on with
    | refl => exact ⟨0, .here⟩
    | head hlists _ ih =>
      rcases ih with ⟨n, hpath⟩
      exact ⟨n + 1, .link hlists hpath⟩

/-- A path with at least one listing is a way with at least one. -/
theorem exists_nonempty_listingPath_iff :
    (∃ n, 0 < n ∧ p.ListingPath t n u) ↔ Relation.TransGen p.ListsInterface u t := by
  rw [Relation.TransGen.head'_iff]
  simp only [← exists_listingPath_iff]
  constructor
  · rintro ⟨n, hpos, hpath⟩
    cases hpath with
    | here => exact absurd hpos (Nat.lt_irrefl 0)
    | link hlists hrest => exact ⟨_, hlists, _, hrest⟩
  · rintro ⟨v, hlists, n, hrest⟩
    exact ⟨n + 1, Nat.succ_pos n, .link hlists hrest⟩

/-- What lists an interface, directly or not, does so at some distance. -/
theorem exists_atDistance (hreaches : Relation.TransGen p.ListsInterface u t) :
    ∃ n, p.AtDistance t n u := by
  have hpaths : {n | 0 < n ∧ p.ListingPath t n u}.Nonempty :=
    exists_nonempty_listingPath_iff.mpr hreaches
  exact ⟨sInf _, Nat.sInf_mem hpaths, fun n hn => Nat.sInf_le hn⟩

end Program

namespace Hierarchy

variable {h : Hierarchy} {visited : TypeSet} {level : List TypeName} {k : Nat}

/-! ## Links -/

section Represents

variable (hr : h.Represents p)
include hr

/-- The links of a hierarchy say who lists whom in the program. -/
theorem lists_iff : h.Lists t u ↔ p.ListsInterface u t := by
  rw [Lists, listers, List.mem_append, hr.mem_implementations_iff, hr.mem_subinterfaces_iff]
  constructor
  · rintro (⟨c, hc, hname, ht, -⟩ | ⟨c, hc, hname, ht, -⟩)
    · exact ⟨c, hc, hname, ht⟩
    · exact ⟨c, hc, hname, ht⟩
  · rintro ⟨c, hc, hname, ht⟩
    cases hextending : c.isExtending h.options with
    | true => exact .inr ⟨c, hc, hname, ht, hextending⟩
    | false => exact .inl ⟨c, hc, hname, ht, hextending⟩

/-- A type that implements one interface implements all that it lists: it has one definition. -/
theorem mem_implementations_of_lists (hv : u ∈ h.implementations v) (hlists : p.ListsInterface u t) :
    u ∈ h.implementations t := by
  rcases hr.mem_implementations_iff.mp hv with ⟨c, hc, rfl, -, hextending⟩
  rcases hlists with ⟨d, hd, hname, ht⟩
  obtain rfl := Program.eq_of_name_eq hd hc hname
  exact hr.mem_implementations_iff.mpr ⟨d, hd, rfl, ht, hextending⟩

end Represents

/-! ## Levels -/

/-- The search has come to distance `k`: the level has the types whose shortest path is that long, and
those with a path that is no longer have been visited. -/
structure AtLevel (p : Program) (t : TypeName) (k : Nat) (visited : TypeSet)
    (level : List TypeName) : Prop where
  mem_level : ∀ u, u ∈ level ↔ p.ListingPath t k u ∧ ∀ n, p.ListingPath t n u → k ≤ n
  mem_visited : ∀ u, u ∈ visited ↔ ∃ n ≤ k, p.ListingPath t n u

/-- At the start only the interface itself is seen. -/
theorem atLevel_start (p : Program) (t : TypeName) : AtLevel p t 0 (.ofList [t]) [t] := by
  constructor
  · intro u
    rw [List.mem_singleton]
    constructor
    · rintro rfl
      exact ⟨.here, fun n _ => Nat.zero_le n⟩
    · rintro ⟨hpath, -⟩
      exact hpath.eq_of_zero
  · intro u
    rw [TypeName.mem_ofList_singleton]
    constructor
    · rintro rfl
      exact ⟨0, Nat.le_refl 0, .here⟩
    · rintro ⟨n, hn, hpath⟩
      obtain rfl := Nat.le_zero.mp hn
      exact hpath.eq_of_zero

/-- What lists a type of the level and has not been visited is one link farther. -/
theorem AtLevel.mem_next_iff (hr : h.Represents p) (hlevel : AtLevel p t k visited level) :
    u ∈ TypeName.fresh visited (level.flatMap h.listers)
      ↔ p.ListingPath t (k + 1) u ∧ ∀ n, p.ListingPath t n u → k + 1 ≤ n := by
  have hfresh : u ∈ TypeName.fresh visited (level.flatMap h.listers)
      ↔ (∃ v ∈ level, p.ListsInterface u v) ∧ u ∉ visited := by
    rw [TypeName.mem_fresh, List.mem_flatMap]
    exact and_congr_left' (exists_congr fun v => and_congr_right fun _ => lists_iff hr)
  rw [hfresh]
  constructor
  · rintro ⟨⟨v, hv, hlists⟩, hnew⟩
    refine ⟨.link hlists ((hlevel.mem_level v).mp hv).1, fun n hpath => ?_⟩
    by_contra hshort
    exact hnew ((hlevel.mem_visited u).mpr ⟨n, by omega, hpath⟩)
  · rintro ⟨hpath, hleast⟩
    have hnew : u ∉ visited := by
      intro hu
      rcases (hlevel.mem_visited u).mp hu with ⟨n, hn, hpath⟩
      have hlong := hleast n hpath
      omega
    cases hpath with
    | @link _ _ v hlists hrest =>
      -- a shorter path from `v` would make one from `u`
      have hv : v ∈ level := by
        refine (hlevel.mem_level v).mpr ⟨hrest, fun n hpath => ?_⟩
        have hlong := hleast (n + 1) (.link hlists hpath)
        omega
      exact ⟨⟨v, hv, hlists⟩, hnew⟩

/-- These types make the next level. -/
theorem atLevel_next (hr : h.Represents p) (hlevel : AtLevel p t k visited level) :
    AtLevel p t (k + 1) (visited.insertMany (TypeName.fresh visited (level.flatMap h.listers)))
      (TypeName.fresh visited (level.flatMap h.listers)) := by
  refine ⟨fun u => hlevel.mem_next_iff hr, fun u => ?_⟩
  rw [Std.TreeSet.mem_insertMany_list, List.contains_iff_mem, hlevel.mem_next_iff hr,
    hlevel.mem_visited]
  constructor
  · rintro (⟨n, hn, hpath⟩ | ⟨hpath, -⟩)
    · exact ⟨n, by omega, hpath⟩
    · exact ⟨k + 1, Nat.le_refl _, hpath⟩
  · rintro ⟨n, hn, hpath⟩
    by_cases hshort : ∃ m ≤ k, p.ListingPath t m u
    · exact .inl hshort
    · have hlong : ∀ m, p.ListingPath t m u → k + 1 ≤ m := by
        intro m hm
        by_contra hless
        exact hshort ⟨m, by omega, hm⟩
      obtain rfl : n = k + 1 := Nat.le_antisymm hn (hlong n hpath)
      exact .inr ⟨hpath, hlong⟩

/-- The search lists types in the order of their distances, from the distance of its first level
on. -/
theorem pairwise_levels (hr : h.Represents p) (hlevel : AtLevel p t k visited level) :
    (h.levels visited level).flatten.Pairwise (p.NoFarther t)
      ∧ ∀ u ∈ (h.levels visited level).flatten, ∀ n, p.ListingPath t n u → k ≤ n := by
  fun_induction levels h visited level generalizing k with
  | case1 visited => simp
  | case2 visited v vs next =>
    rename_i ih
    have hnear := fun u (hu : u ∈ v :: vs) => (hlevel.mem_level u).mp hu
    rcases ih (atLevel_next hr hlevel) with ⟨hrest, hfar⟩
    rw [List.flatten_cons]
    refine ⟨List.pairwise_append.mpr ⟨?_, hrest, ?_⟩, ?_⟩
    · refine List.pairwise_of_forall_mem_list ?_
      intro u hu w hw n hpath
      exact ⟨k, (hnear w hw).2 n hpath, (hnear u hu).1⟩
    · intro u hu w hw n hpath
      have hlong := hfar w hw n hpath
      exact ⟨k, by omega, (hnear u hu).1⟩
    · intro u hu n hpath
      rcases List.mem_append.mp hu with hu | hu
      · exact (hnear u hu).2 n hpath
      · have hlong := hfar u hu n hpath
        omega

/-! ## Implementations -/

section Represents

variable (hr : h.Represents p)
include hr

theorem reflTransGen_lists_iff :
    Relation.ReflTransGen h.Lists t u ↔ Relation.ReflTransGen p.ListsInterface u t := by
  have hswap : h.Lists = Function.swap p.ListsInterface := by
    funext x y
    exact propext (lists_iff hr)
  rw [hswap, Relation.reflTransGen_swap]

/-- The implementors of an interface are those that come to it over listings, and do not extend. -/
theorem mem_allImplementations_iff_reaches : u ∈ h.allImplementations t ↔ ∃ c, h.definition? u = some c
    ∧ c.isExtending h.options = false ∧ Relation.TransGen p.ListsInterface u t := by
  simp only [mem_allImplementations, reflTransGen_lists_iff hr, hr.definition?,
    Program.find?_eq_some_iff, Relation.TransGen.head'_iff]
  constructor
  · rintro ⟨v, hreaches, hu⟩
    rcases hr.mem_implementations_iff.mp hu with ⟨c, hc, hname, hlists, hextending⟩
    exact ⟨c, ⟨hc, hname⟩, hextending, v, ⟨c, hc, hname, hlists⟩, hreaches⟩
  · rintro ⟨c, ⟨hc, hname⟩, hextending, v, ⟨d, hd, hname', hlists⟩, hreaches⟩
    obtain rfl := Program.eq_of_name_eq hd hc (hname'.trans hname.symm)
    exact ⟨v, hreaches, hr.mem_implementations_iff.mpr ⟨d, hd, hname, hlists, hextending⟩⟩

/-- Of two implementations the first is no farther than the second. The second is found from each
interface that it lists, and from there only after the first: on its shortest path as well. -/
theorem pairwise_allImplementations : (h.allImplementations t).Pairwise fun u v =>
    ∀ n, 0 < n → p.ListingPath t n v → ∃ m, 0 < m ∧ m ≤ n ∧ p.ListingPath t m u := by
  have hlevels := (pairwise_levels hr (atLevel_start p t)).1
  have hlists : ∀ u v, u ∈ h.implementations v → p.ListsInterface u v :=
    fun u v hu => (lists_iff hr).mp (List.mem_append_left _ hu)
  refine (TypeName.pairwise_fresh ∅ _).imp_of_mem ?_
  intro u v _ hv hbefore n hpos hpath
  cases hpath with
  | here => exact absurd hpos (Nat.lt_irrefl 0)
  | @link n _ w hlink hrest =>
    have hw : w ∈ (h.levels (.ofList [t]) [t]).flatten := by
      rw [mem_levels_start, reflTransGen_lists_iff hr]
      exact Program.exists_listingPath_iff.mp ⟨n, hrest⟩
    have hvw : v ∈ h.implementations w := by
      rcases List.mem_flatMap.mp (TypeName.mem_fresh.mp hv).1 with ⟨x, -, hvx⟩
      exact mem_implementations_of_lists hr hvx hlink
    rcases List.append_of_mem hw with ⟨nearer, farther, hcut⟩
    rcases List.append_of_mem hvw with ⟨earlier, later, hplace⟩
    have hu : u ∈ nearer.flatMap h.implementations ++ earlier := by
      refine hbefore _ (later ++ farther.flatMap h.implementations) ?_
      rw [hcut, List.flatMap_append, List.flatMap_cons, hplace]
      simp
    rcases List.mem_append.mp hu with hu | hu
    · rcases List.mem_flatMap.mp hu with ⟨x, hx, hux⟩
      rw [hcut] at hlevels
      have hnear := (List.pairwise_append.mp hlevels).2.2 x hx w List.mem_cons_self
      rcases hnear n hrest with ⟨m, hm, hpath⟩
      exact ⟨m + 1, Nat.succ_pos m, by omega, .link (hlists u x hux) hpath⟩
    · have huw : u ∈ h.implementations w := by
        rw [hplace]
        exact List.mem_append_left _ hu
      exact ⟨n + 1, hpos, Nat.le_refl _, .link (hlists u w huw) hrest⟩

end Represents

/-! ## The closure -/

/-- The implementations of a type are the types from which a listing path leads to it, without the
interfaces among them where extension is modelled. -/
structure IsListingClosure (h : Hierarchy) (p : Program) (options : Options) (t : TypeName) :
    Prop where
  mem_iff : ∀ u, u ∈ h.allImplementations t ↔ ∃ c, h.definition? u = some c
    ∧ ¬ (c.isInterface ∧ options.interfaceExtension) ∧ Relation.TransGen p.ListsInterface u t
  nodup : (h.allImplementations t).Nodup
  /-- Every one of them has a distance. -/
  distance : ∀ u ∈ h.allImplementations t, ∃ n, p.AtDistance t n u
  /-- They come in the order of their distances. -/
  ordered : (h.allImplementations t).Pairwise fun u v =>
    ∀ m n, p.AtDistance t m u → p.AtDistance t n v → m ≤ n

/-- Whatever the listings, in circles or not, the search comes to an end with all implementations. To
model extension leaves the interfaces out, and nothing else. -/
theorem implementations_close_listings (p : Program) (options : Options) (t : TypeName) :
    IsListingClosure (build p options) p options t
    ∧ ∀ u, u ∈ (build p .standard).allImplementations t
      ↔ u ∈ (build p .literal).allImplementations t ∧ ¬ (build p .literal).isInterface u := by
  have hmem : ∀ options u, u ∈ (build p options).allImplementations t
      ↔ ∃ c, (build p options).definition? u = some c
        ∧ ¬ (c.isInterface ∧ options.interfaceExtension)
        ∧ Relation.TransGen p.ListsInterface u t := by
    intro options u
    rw [mem_allImplementations_iff_reaches (represents_build p options), options_build]
    simp [ClassDef.isExtending]
  have hr := represents_build p options
  refine ⟨⟨hmem options, TypeName.nodup_distinct _, ?_, ?_⟩, ?_⟩
  · intro u hu
    rcases (hmem options u).mp hu with ⟨c, -, -, hreaches⟩
    exact Program.exists_atDistance hreaches
  · refine (pairwise_allImplementations hr).imp ?_
    intro u v hnear m n hm hn
    rcases hnear n hn.1.1 hn.1.2 with ⟨m', hpos, hle, hpath⟩
    exact Nat.le_trans (hm.2 ⟨hpos, hpath⟩) hle
  · intro u
    rw [hmem, hmem, isInterface, (represents_build p .standard).definition?,
      (represents_build p .literal).definition?]
    cases p.find? u with
    | none => simp
    | some c => simp [Options.standard, Options.literal, and_comm]

end Hierarchy

end ClassHierarchy

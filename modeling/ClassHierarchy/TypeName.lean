import Std.Data.TreeSet
import Std.Data.TreeMap

/-!
# Type names

A type is known by its name and by nothing else: two types are the same type exactly when their
names have the same text. No text is excluded, the empty one included, and none is normalised.

* Type names are ordered by code point. The order is lawful (`Std.TransOrd`, `Std.LawfulEqOrd`), so
  type names can be the keys of the ordered maps and sets from which the hierarchy is built.
* `distinct` drops later repetitions from a list: it has the same members (`mem_distinct`), each once
  (`nodup_distinct`), in the order of their first places (`pairwise_fresh`).
* `countOutside` counts the names that a search has not visited yet; it falls with every visit
  (`countOutside_lt`).
-/

namespace ClassHierarchy

/-- The name of a type. -/
structure TypeName where
  text : String
  deriving DecidableEq, Repr, Inhabited

namespace TypeName

instance : Ord TypeName := ⟨compareOn text⟩

instance : Std.TransOrd TypeName := inferInstanceAs (Std.TransCmp (compareOn text))

instance : Std.LawfulEqOrd TypeName where
  eq_of_compare {a b} h := by
    have : a.text = b.text := Std.LawfulEqOrd.eq_of_compare (show compare a.text b.text = .eq from h)
    cases a
    cases b
    simp_all

/-- The name set apart from the text around it. -/
def describe (t : TypeName) : String :=
  "Type(" ++ t.text ++ ")"

/-- Ascending by code point; a name that occurs several times is kept as often. -/
def sort (ts : List TypeName) : List TypeName :=
  ts.mergeSort fun a b => (compare a b).isLE

/-- How each name of a list but the last compares with the next one. -/
def compareNeighbours (ts : List TypeName) : List Ordering :=
  ts.zipWith compare ts.tail

end TypeName

/-- A finite set of types. -/
abbrev TypeSet := Std.TreeSet TypeName

namespace TypeName

theorem mem_insert {seen : TypeSet} {t u : TypeName} : u ∈ seen.insert t ↔ u = t ∨ u ∈ seen := by
  rw [Std.TreeSet.mem_insert, Std.LawfulEqOrd.compare_eq_iff_eq, eq_comm]

theorem mem_ofList_singleton {t u : TypeName} : u ∈ (.ofList [t] : TypeSet) ↔ u = t := by
  rw [eq_comm (a := u)]
  simp

/-! ## First occurrences -/

/-- The names of a list that are not among `seen`, each where it occurs first. -/
def fresh (seen : TypeSet) : List TypeName → List TypeName
  | [] => []
  | t :: ts => if seen.contains t then fresh seen ts else t :: fresh (seen.insert t) ts

/-- The names of a list, each where it occurs first. -/
def distinct (ts : List TypeName) : List TypeName :=
  fresh ∅ ts

/-- The fresh types are those that were not seen. -/
theorem mem_fresh {seen : TypeSet} {ts : List TypeName} {t : TypeName} :
    t ∈ fresh seen ts ↔ t ∈ ts ∧ t ∉ seen := by
  induction ts generalizing seen with
  | nil => simp [fresh]
  | cons u us ih =>
    by_cases hu : u ∈ seen
    · -- `u` is passed over, and so is no candidate for `t`
      have : t ∉ seen → t ≠ u := fun ht h => ht (h ▸ hu)
      simp only [fresh, Std.TreeSet.contains_iff_mem, hu, if_true, ih, List.mem_cons]
      grind
    · simp only [fresh, Std.TreeSet.contains_iff_mem, hu, if_false, ih, List.mem_cons,
        Std.TreeSet.mem_insert, Std.LawfulEqOrd.compare_eq_iff_eq]
      grind

/-- A fresh type is kept once. -/
theorem nodup_fresh (seen : TypeSet) (ts : List TypeName) : (fresh seen ts).Nodup := by
  induction ts generalizing seen with
  | nil => simp [fresh]
  | cons u us ih =>
    rw [fresh]
    split
    · exact ih seen
    · refine List.nodup_cons.mpr ⟨?_, ih _⟩
      simp [mem_fresh]

/-- No type is lost with its repetitions. -/
theorem mem_distinct {ts : List TypeName} {t : TypeName} : t ∈ distinct ts ↔ t ∈ ts := by
  simp [distinct, mem_fresh]

theorem nodup_distinct (ts : List TypeName) : (distinct ts).Nodup :=
  nodup_fresh ∅ ts

/-- Of two names that are kept, all places of the second come after the first one. -/
theorem pairwise_fresh (seen : TypeSet) (ts : List TypeName) :
    (fresh seen ts).Pairwise fun t u => ∀ front back, ts = front ++ u :: back → t ∈ front := by
  induction ts generalizing seen with
  | nil => simp [fresh]
  | cons v vs ih =>
    -- the places of a name other than `v` come after `v`
    have hlater {t u : TypeName} (hother : u ≠ v)
        (hbefore : ∀ front back, vs = front ++ u :: back → t = v ∨ t ∈ front) :
        ∀ front back, v :: vs = front ++ u :: back → t ∈ front := by
      intro front back hcut
      rcases List.cons_eq_append_iff.mp hcut with ⟨-, hsame⟩ | ⟨rest, rfl, hcutRest⟩
      · exact absurd (List.cons.inj hsame).1 hother
      · exact List.mem_cons.mpr (hbefore rest back hcutRest)
    rw [fresh]
    split
    · rename_i hold
      refine (ih seen).imp_of_mem fun {t u} _ hkept hbefore => hlater ?_ fun front back hcut => ?_
      · rintro rfl
        exact (mem_fresh.mp hkept).2 (Std.TreeSet.contains_iff_mem.mp hold)
      · exact .inr (hbefore front back hcut)
    · have hother : ∀ u ∈ fresh (seen.insert v) vs, u ≠ v := by
        rintro u hkept rfl
        exact (mem_fresh.mp hkept).2 (mem_insert.mpr (.inl rfl))
      refine List.pairwise_cons.mpr ⟨fun u hkept => hlater (hother u hkept) fun _ _ _ => .inl rfl, ?_⟩
      refine (ih _).imp_of_mem fun {t u} _ hkept hbefore => hlater (hother u hkept) fun front back hcut => ?_
      exact .inr (hbefore front back hcut)

/-- What is kept depends on the members of the set only. -/
theorem fresh_congr {seen seen' : TypeSet} (hsame : ∀ t, t ∈ seen ↔ t ∈ seen') (ts : List TypeName) :
    fresh seen ts = fresh seen' ts := by
  induction ts generalizing seen seen' with
  | nil => rfl
  | cons t ts ih =>
    have hgrown : ∀ u, u ∈ seen.insert t ↔ u ∈ seen'.insert t := by
      intro u
      rw [mem_insert, mem_insert, hsame]
    simp only [fresh, Std.TreeSet.contains_iff_mem, hsame t, ih hsame, ih hgrown]

/-- Of the second of two lists, what is not in the first is kept too. -/
theorem fresh_append {seen seen' : TypeSet} {ts : List TypeName}
    (hboth : ∀ t, t ∈ seen' ↔ t ∈ seen ∨ t ∈ ts) (us : List TypeName) :
    fresh seen (ts ++ us) = fresh seen ts ++ fresh seen' us := by
  induction ts generalizing seen with
  | nil => exact fresh_congr (by simp [hboth]) us
  | cons t ts ih =>
    simp only [List.cons_append, fresh]
    split
    · rename_i hold
      apply ih
      intro u
      have := Std.TreeSet.contains_iff_mem.mp hold
      grind
    · rw [List.cons_append]
      congr 1
      apply ih
      intro u
      rw [hboth, mem_insert, List.mem_cons]
      grind

/-- Names that were seen before are passed over. -/
theorem fresh_append_of_mem {seen : TypeSet} {ts us : List TypeName} (hknown : ∀ t ∈ ts, t ∈ seen) :
    fresh seen (ts ++ us) = fresh seen us := by
  have hboth : ∀ t, t ∈ seen ↔ t ∈ seen ∨ t ∈ ts :=
    fun t => (or_iff_left_of_imp (hknown t)).symm
  have hnone : fresh seen ts = [] := by
    rw [List.eq_nil_iff_forall_not_mem]
    intro t hkept
    have := mem_fresh.mp hkept
    exact this.2 (hknown t this.1)
  rw [fresh_append hboth, hnone, List.nil_append]

/-- Names that were seen before, or that come first anyway, can be left out of the middle. -/
theorem fresh_append_of_seen {seen : TypeSet} {ts us vs : List TypeName}
    (hknown : ∀ u ∈ us, u ∈ seen ∨ u ∈ ts) : fresh seen (ts ++ us ++ vs) = fresh seen (ts ++ vs) := by
  have hboth : ∀ t, t ∈ seen.insertMany ts ↔ t ∈ seen ∨ t ∈ ts := by
    intro t
    rw [Std.TreeSet.mem_insertMany_list, List.contains_iff_mem]
  have hpassed : fresh (seen.insertMany ts) (us ++ vs) = fresh (seen.insertMany ts) vs :=
    fresh_append_of_mem fun u hu => (hboth u).mpr (hknown u hu)
  rw [List.append_assoc, fresh_append hboth, hpassed, fresh_append hboth]

/-- Repetitions in the middle of a list make no difference. -/
theorem distinct_append_of_subset {ts us vs : List TypeName} (hknown : ∀ u ∈ us, u ∈ ts) :
    distinct (ts ++ us ++ vs) = distinct (ts ++ vs) :=
  fresh_append_of_seen fun u hu => .inr (hknown u hu)

/-- What was not seen before and is not repeated is kept as it is. -/
theorem fresh_eq_self {seen : TypeSet} {ts : List TypeName} (hnodup : ts.Nodup)
    (hunseen : ∀ t ∈ ts, t ∉ seen) : fresh seen ts = ts := by
  induction ts generalizing seen with
  | nil => rfl
  | cons t ts ih =>
    rcases List.nodup_cons.mp hnodup with ⟨honce, hnodup⟩
    have hnew : ¬ seen.contains t := by simpa using hunseen t List.mem_cons_self
    have hrest : ∀ u ∈ ts, u ∉ seen.insert t := by
      intro u hu hold
      rcases mem_insert.mp hold with rfl | hold
      · exact honce hu
      · exact hunseen u (List.mem_cons_of_mem t hu) hold
    rw [fresh, if_neg hnew, ih hnodup hrest]

/-- The set of the names seen so far stands for a list, in which every name is compared with those
before it. -/
theorem fresh_eq_eraseDups (seen : TypeSet) (ts : List TypeName) :
    fresh seen ts = (ts.filter (· ∉ seen)).eraseDups := by
  induction ts generalizing seen with
  | nil => rfl
  | cons t ts ih =>
    by_cases ht : t ∈ seen
    · rw [fresh, if_pos (Std.TreeSet.contains_iff_mem.mpr ht), ih,
        List.filter_cons_of_neg (by simpa using ht)]
    · rw [fresh, if_neg (by simpa using ht), ih, List.filter_cons_of_pos (by simpa using ht),
        List.eraseDups_cons, List.filter_filter]
      congr 2
      refine List.filter_congr fun u _ => ?_
      rw [Bool.eq_iff_iff]
      simp [eq_comm (a := t)]

/-- The search with a set of seen types keeps what the library function keeps. -/
theorem distinct_eq_eraseDups (ts : List TypeName) : distinct ts = ts.eraseDups := by
  rw [distinct, fresh_eq_eraseDups, List.filter_eq_self.mpr]
  simp

/-! ## What is left to visit -/

/-- Fewer members of a list pass the stronger of two tests, if one of them passes the weaker only. -/
theorem countP_lt_countP {α : Type} {p q : α → Bool} {xs : List α} {x : α}
    (hweaker : ∀ y ∈ xs, p y → q y) (hlisted : x ∈ xs) (hfails : p x = false) (hpasses : q x = true) :
    xs.countP p < xs.countP q := by
  obtain ⟨front, back, rfl⟩ := List.append_of_mem hlisted
  have hfront : front.countP p ≤ front.countP q :=
    List.countP_mono_left fun y hy => hweaker y (by simp [hy])
  have hback : back.countP p ≤ back.countP q :=
    List.countP_mono_left fun y hy => hweaker y (by simp [hy])
  simp only [List.countP_append, List.countP_cons, hfails, hpasses, if_true, Bool.false_eq_true,
    if_false]
  omega

/-- How many names of a list are not in a set. -/
def countOutside (seen : TypeSet) (ts : List TypeName) : Nat :=
  ts.countP (· ∉ seen)

/-- A name that joins the set leaves fewer names outside, so a search that never visits a name twice
comes to its end. -/
theorem countOutside_lt {seen seen' : TypeSet} {ts : List TypeName} {t : TypeName}
    (hgrows : ∀ u ∈ seen, u ∈ seen') (hlisted : t ∈ ts) (hnew : t ∉ seen) (hjoins : t ∈ seen') :
    countOutside seen' ts < countOutside seen ts := by
  refine countP_lt_countP (fun u _ hu => ?_) hlisted (by simpa using hjoins) (by simpa using hnew)
  have : u ∉ seen' := by simpa using hu
  simpa using fun h => this (hgrows u h)

/-- A name that is not of the list does not count. -/
theorem countOutside_insert {seen : TypeSet} {ts : List TypeName} {t : TypeName}
    (hunlisted : t ∉ ts) : countOutside (seen.insert t) ts = countOutside seen ts := by
  apply List.countP_congr
  intro u hu
  have : t ≠ u := fun h => hunlisted (h ▸ hu)
  simp [this]

end TypeName

end ClassHierarchy

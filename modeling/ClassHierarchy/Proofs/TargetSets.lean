import ClassHierarchy.Proofs.OpenReceivers
import ClassHierarchy.Targets.Registers
import Mathlib.Data.Finset.Card

/-!
# Target sets and their insertions

A target set keeps its methods twice: in a list, in the order of insertion, and by identity. Both are
made of the same insertions, whichever operations brought them about, and every question to the set can
be answered from these insertions alone.

* `Op.insertions`, `Registers.insertions`: the insertions that a set goes back to. Operations that start
  a set over make an end of earlier ones, and a copy goes back to the insertions of its source.
* `apply_isBuiltFrom`, `after_isBuiltFrom`: what one operation and what a run of them makes of the sets.
* `Collects`: what a set says of its insertions.
-/

namespace ClassHierarchy

namespace Targets

variable {ms ns : List Method} {m : Method}

/-- The set is made of these insertions, in this order. -/
structure Collects (ts : Targets) (ms : List Method) : Prop where
  /-- No two methods of the list are the same. -/
  nodup : ts.toList.Pairwise fun m n => ¬ m.same n
  /-- The list and the identities have the same members. -/
  mem_members : ∀ i, i ∈ ts.members ↔ ∃ m ∈ ts.toList, m.id = i
  /-- A method that was inserted before is left out, whatever its modifiers. -/
  toList_eq : ts.toList = firstsBy Method.id ms
  size_eq : ts.size = (ms.map Method.id).toFinset.card
  contains_iff : ∀ m, ts.contains m ↔ ∃ n ∈ ms, n.same m
  isSome_single?_iff : ts.single?.isSome ↔ ms ≠ [] ∧ ∀ m ∈ ms, ∀ n ∈ ms, m.same n
  /-- The only method is the one that was inserted first. -/
  head?_of_single? : ∀ m, ts.single? = some m → ms.head? = some m

/-- Methods are the same if their identities are. -/
theorem same_iff_id {m n : Method} : m.same n ↔ m.id = n.id := by
  simp [Method.same]

/-- The identities of a set say what it contains. -/
theorem mem_members_iff (ts : Targets) (m : Method) : m.id ∈ ts.members ↔ ts.contains m := by
  rw [contains, Std.TreeSet.contains_iff_mem]

/-- A set contains what is the same as one of its insertions. -/
theorem contains_ofList_iff : (ofList ms).contains m ↔ ∃ n ∈ ms, n.same m := by
  simp only [contains_ofList, List.mem_map, same_iff_id]

/-- The size of a set is the number of different identities among its insertions. -/
theorem size_ofList (ms : List Method) : (ofList ms).size = (ms.map Method.id).toFinset.card := by
  have hids : (ms.map Method.id).toFinset = ((firstsBy Method.id ms).map Method.id).toFinset := by
    ext i
    rw [List.mem_toFinset, List.mem_toFinset, mem_map_firstsBy]
  rw [hids, List.toFinset_card_of_nodup (nodup_map_firstsBy _ _), List.length_map, size_eq_length,
    toList_ofList]

/-- Where all insertions are of one method, those after the first are left out. -/
theorem toList_ofList_eq_singleton_iff :
    (ofList ms).toList = [m] ↔ ms.head? = some m ∧ ∀ n ∈ ms, n.same m := by
  rw [toList_ofList]
  cases ms with
  | nil => simp [firstsBy]
  | cons n ms =>
    have hrest : (firstsBy Method.id ms).filter (·.id ≠ n.id) = [] ↔ ∀ k ∈ ms, k.id = n.id := by
      rw [List.filter_eq_nil_iff, ← forall_mem_firstsBy (P := (· = n.id))]
      simp
    rw [firstsBy, List.cons.injEq, List.head?_cons, Option.some.injEq, hrest]
    refine and_congr_right ?_
    rintro rfl
    simp [Method.same]

theorem single?_eq_some_iff {ts : Targets} : ts.single? = some m ↔ ts.toList = [m] := by
  unfold single?
  split <;> simp_all

/-- There is one target if there are insertions and all of them are the same. -/
theorem isSome_single?_ofList (ms : List Method) :
    (ofList ms).single?.isSome ↔ ms ≠ [] ∧ ∀ m ∈ ms, ∀ n ∈ ms, m.same n := by
  simp only [Option.isSome_iff_exists, single?_eq_some_iff, toList_ofList_eq_singleton_iff]
  constructor
  · rintro ⟨k, hhead, hsame⟩
    constructor
    · rintro rfl
      cases hhead
    · intro m hm n hn
      have hmk := same_iff_id.mp (hsame m hm)
      have hnk := same_iff_id.mp (hsame n hn)
      exact same_iff_id.mpr (hmk.trans hnk.symm)
  · rintro ⟨hne, hsame⟩
    rcases List.exists_cons_of_ne_nil hne with ⟨k, rest, rfl⟩
    exact ⟨k, rfl, fun n hn => hsame n hn k List.mem_cons_self⟩

/-- A set that is built by insertions collects them. -/
theorem collects_ofList (ms : List Method) : (ofList ms).Collects ms := by
  have hmembers : ∀ i, i ∈ (ofList ms).members ↔ ∃ m ∈ (ofList ms).toList, m.id = i := by
    intro i
    rw [← List.mem_map, toList_ofList, mem_map_firstsBy, ← contains_ofList ms ⟨i, {}⟩]
    exact mem_members_iff (ofList ms) ⟨i, {}⟩
  constructor
  case nodup =>
    rw [toList_ofList]
    simp only [same_iff_id]
    exact List.pairwise_map.mp (nodup_map_firstsBy Method.id ms)
  case mem_members => exact hmembers
  case toList_eq => exact toList_ofList ms
  case size_eq => exact size_ofList ms
  case contains_iff => exact fun m => contains_ofList_iff
  case isSome_single?_iff => exact isSome_single?_ofList ms
  case head?_of_single? =>
    intro m hsingle
    exact (toList_ofList_eq_singleton_iff.mp (single?_eq_some_iff.mp hsingle)).1

/-- Two sets are the same if each insertion of one is the same as some insertion of the other. -/
theorem same_ofList_iff : (ofList ms).same (ofList ns)
    ↔ (∀ m ∈ ms, ∃ n ∈ ns, m.same n) ∧ ∀ n ∈ ns, ∃ m ∈ ms, m.same n := by
  simp only [same_iff, contains_ofList_iff, same_iff_id]
  constructor
  · intro halike
    refine ⟨fun m hm => ?_, fun n hn => (halike n).mpr ⟨n, hn, rfl⟩⟩
    rcases (halike m).mp ⟨m, hm, rfl⟩ with ⟨n, hn, hid⟩
    exact ⟨n, hn, hid.symm⟩
  · rintro ⟨hleft, hright⟩ k
    constructor
    · rintro ⟨m, hm, hmk⟩
      rcases hleft m hm with ⟨n, hn, hmn⟩
      exact ⟨n, hn, hmn.symm.trans hmk⟩
    · rintro ⟨n, hn, hnk⟩
      rcases hright n hn with ⟨m, hm, hmn⟩
      exact ⟨m, hm, hmn.trans hnk⟩

/-- Insertions that come later are appended to those that were made. -/
theorem insertMany_ofList (ms ns : List Method) : (ofList ms).insertMany ns = ofList (ms ++ ns) :=
  List.foldl_append.symm

end Targets

/-! ## Runs of operations -/

namespace Registers

/-- The insertions that the set of a name goes back to after an operation on it. For every name
`inserted` tells them before the operation. -/
def Op.insertions (inserted : String → List Method) (name : String) : Op → List Method
  | .clear | .take => []
  | .ofOption m? => m?.toList
  | .ofList ms => ms
  | .insert m => inserted name ++ [m]
  | .insertMany ms => inserted name ++ ms
  | .copyOf source => inserted source
  | .contains _ | .toList | .sameAs _ => inserted name

/-- The insertions that the set of each name goes back to after a list of operations. -/
def insertions (ops : List (String × Op)) : String → List Method :=
  ops.foldl (fun inserted op => Function.update inserted op.1 (op.2.insertions inserted op.1))
    fun _ => []

/-- The sets after a list of operations. -/
def after (r : Registers) (ops : List (String × Op)) : Registers :=
  ops.foldl (fun r op => (r.apply op.1 op.2).2) r

/-- The set of every name is made of its insertions. -/
def IsBuiltFrom (r : Registers) (inserted : String → List Method) : Prop :=
  ∀ name, r.get name = .ofList (inserted name)

theorem isBuiltFrom_empty : IsBuiltFrom ∅ fun _ => [] :=
  get_empty

variable {r : Registers} {inserted : String → List Method}

/-- A set that is put under a name brings its insertions with it. -/
theorem IsBuiltFrom.set (hbuilt : r.IsBuiltFrom inserted) {name : String} {ts : Targets}
    {ms : List Method} (hts : ts = .ofList ms) :
    (r.set name ts).IsBuiltFrom (Function.update inserted name ms) := by
  intro other
  rw [get_set, Function.update_apply]
  by_cases hother : name = other
  · rw [if_pos hother, if_pos hother.symm, hts]
  · rw [if_neg hother, if_neg (Ne.symm hother)]
    exact hbuilt other

/-- An operation changes the set of its name only, as its insertions say. -/
theorem apply_isBuiltFrom (hbuilt : r.IsBuiltFrom inserted) (name : String) (op : Op) :
    (r.apply name op).2.IsBuiltFrom
      (Function.update inserted name (op.insertions inserted name)) := by
  have hidle : r.IsBuiltFrom (Function.update inserted name (inserted name)) := by
    rwa [Function.update_eq_self]
  cases op with
  | clear => exact hbuilt.set rfl
  | ofOption m? => exact hbuilt.set rfl
  | ofList ms => exact hbuilt.set rfl
  | insert m =>
    refine hbuilt.set ?_
    rw [hbuilt name]
    exact (Targets.ofList_concat (inserted name) m).symm
  | insertMany ms =>
    refine hbuilt.set ?_
    rw [hbuilt name]
    exact Targets.insertMany_ofList (inserted name) ms
  | take => exact hbuilt.set rfl
  | copyOf source => exact hbuilt.set (hbuilt source)
  | contains m => exact hidle
  | toList => exact hidle
  | sameAs other => exact hidle

/-- After any operations each set is built from the insertions that it goes back to. -/
theorem after_isBuiltFrom (ops : List (String × Op)) :
    (after ∅ ops).IsBuiltFrom (insertions ops) := by
  suffices hrun : ∀ (r : Registers) inserted, r.IsBuiltFrom inserted →
      (r.after ops).IsBuiltFrom (ops.foldl (fun inserted op =>
        Function.update inserted op.1 (op.2.insertions inserted op.1)) inserted) from
    hrun ∅ (fun _ => []) isBuiltFrom_empty
  induction ops with
  | nil => exact fun _ _ hbuilt => hbuilt
  | cons op ops ih => exact fun r inserted hbuilt => ih _ _ (apply_isBuiltFrom hbuilt op.1 op.2)

/-- After any operations, every set is made of its insertions, and what an operation gives back follows
from them as well. -/
theorem target_sets_collect_insertions (ops : List (String × Op)) :
    let r := after ∅ ops
    let inserted := insertions ops
    (∀ name, (r.get name).Collects (inserted name))
    -- an insertion tells whether the method is new
    ∧ (∀ name m, ∃ new, (r.apply name (.insert m)).1 = .flag new
        ∧ (new = true ↔ ¬ ∃ n ∈ inserted name, n.same m))
    ∧ (∀ ms ns : List Method, (Targets.ofList ms).insertMany ns = .ofList (ms ++ ns))
    ∧ ∀ name other, (r.get name).same (r.get other) = true
        ↔ (∀ m ∈ inserted name, ∃ n ∈ inserted other, m.same n)
          ∧ ∀ n ∈ inserted other, ∃ m ∈ inserted name, m.same n := by
  intro r inserted
  have hbuilt : r.IsBuiltFrom inserted := after_isBuiltFrom ops
  refine ⟨?_, ?_, Targets.insertMany_ofList, ?_⟩
  · intro name
    rw [hbuilt name]
    exact Targets.collects_ofList (inserted name)
  · intro name m
    refine ⟨_, rfl, ?_⟩
    rw [hbuilt name, ← Targets.contains_ofList_iff, Bool.not_eq_true', Bool.not_eq_true]
  · intro name other
    rw [hbuilt name, hbuilt other]
    exact Targets.same_ofList_iff

end Registers

end ClassHierarchy

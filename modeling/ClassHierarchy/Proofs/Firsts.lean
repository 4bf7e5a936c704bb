import Mathlib.Data.List.Nodup

/-!
# First occurrences

Definitions are told apart by the types they define, and methods by their identities. Where several
members of a list have the same key, the first of them counts; `firstsBy` drops the others.

* `firstsBy_concat`: a list that grows at its end gets a member more, unless the key is there
  already.
* `mem_map_firstsBy`, `nodup_map_firstsBy`: every key of the list is kept, and is kept once.
* `find?_firstsBy_eq_some`: the member found under a key of the list is the one that was kept.
-/

namespace ClassHierarchy

variable {α κ : Type} [DecidableEq κ] {key : α → κ} {k : κ} {x : α} {xs : List α}

/-- The members of a list whose key occurs nowhere before them. -/
def firstsBy (key : α → κ) : List α → List α
  | [] => []
  | x :: xs => x :: (firstsBy key xs).filter (key · ≠ key x)

/-- The members that are kept stay in their order. -/
theorem firstsBy_sublist (key : α → κ) (xs : List α) : (firstsBy key xs).Sublist xs := by
  induction xs with
  | nil => exact List.Sublist.refl _
  | cons x xs ih => exact ((List.filter_sublist).trans ih).cons_cons x

/-- No key is lost with the members that are left out. -/
theorem mem_map_firstsBy : k ∈ (firstsBy key xs).map key ↔ k ∈ xs.map key := by
  induction xs with
  | nil => rfl
  | cons x xs ih =>
    by_cases hk : k = key x
    · simp [firstsBy, hk]
    · -- the filter drops members with the key of `x` only
      have hkept : k ∈ ((firstsBy key xs).filter (key · ≠ key x)).map key
          ↔ k ∈ (firstsBy key xs).map key := by
        simp only [List.mem_map, List.mem_filter, decide_eq_true_eq]
        constructor
        · rintro ⟨y, ⟨hy, -⟩, rfl⟩
          exact ⟨y, hy, rfl⟩
        · rintro ⟨y, hy, rfl⟩
          exact ⟨y, ⟨hy, hk⟩, rfl⟩
      rw [firstsBy, List.map_cons, List.map_cons, List.mem_cons, List.mem_cons, hkept, ih]

/-- What is said of keys holds of all members if it holds of those that are kept. -/
theorem forall_mem_firstsBy {P : κ → Prop} :
    (∀ x ∈ firstsBy key xs, P (key x)) ↔ ∀ x ∈ xs, P (key x) := by
  have hkeys : ∀ ys : List α, (∀ y ∈ ys, P (key y)) ↔ ∀ k ∈ ys.map key, P k :=
    fun _ => List.forall_mem_map.symm
  simp only [hkeys, mem_map_firstsBy]

/-- A key is kept once. -/
theorem nodup_map_firstsBy (key : α → κ) (xs : List α) : ((firstsBy key xs).map key).Nodup := by
  induction xs with
  | nil => exact List.nodup_nil
  | cons x xs ih =>
    rw [firstsBy, List.map_cons, List.nodup_cons]
    constructor
    · simp
    · exact ih.sublist (List.filter_sublist.map key)

/-- Where all keys are different nothing is left out. -/
theorem firstsBy_eq_self (hnodup : (xs.map key).Nodup) : firstsBy key xs = xs := by
  induction xs with
  | nil => rfl
  | cons x xs ih =>
    obtain ⟨hnew, hnodup⟩ := List.nodup_cons.mp hnodup
    rw [firstsBy, ih hnodup, List.filter_eq_self.mpr]
    intro y hy
    have hne : key y ≠ key x := fun heq => hnew (List.mem_map.mpr ⟨y, hy, heq⟩)
    simpa using hne

/-- A last member is kept if its key is new. -/
theorem firstsBy_concat (key : α → κ) (xs : List α) (x : α) :
    firstsBy key (xs ++ [x])
      = if key x ∈ xs.map key then firstsBy key xs else firstsBy key xs ++ [x] := by
  induction xs with
  | nil => rfl
  | cons y ys ih =>
    rw [List.cons_append, firstsBy, ih, firstsBy, List.map_cons]
    by_cases hys : key x ∈ ys.map key
    · rw [if_pos hys, if_pos (List.mem_cons_of_mem _ hys)]
    · by_cases hy : key x = key y
      · have hmem : key x ∈ key y :: ys.map key := by simp [hy]
        rw [if_neg hys, if_pos hmem, List.filter_append]
        simp [hy]
      · have hmem : key x ∉ key y :: ys.map key := by
          rw [List.mem_cons]
          exact fun h => h.elim hy hys
        rw [if_neg hys, if_neg hmem, List.filter_append]
        simp [hy]

/-- A search by key finds the same with and without the members that are left out. -/
theorem find?_firstsBy : (firstsBy key xs).find? (key · = k) = xs.find? (key · = k) := by
  induction xs with
  | nil => rfl
  | cons x xs ih =>
    by_cases hk : key x = k
    · simp [firstsBy, hk]
    · have hkept : ((firstsBy key xs).filter (key · ≠ key x)).find? (key · = k)
          = (firstsBy key xs).find? (key · = k) := by
        rw [List.find?_filter]
        congr 1
        funext y
        by_cases hy : key y = k
        · simp [hy, Ne.symm hk]
        · simp [hy]
      rw [firstsBy, List.find?_cons_of_neg (by simpa using hk), hkept, ih,
        List.find?_cons_of_neg (by simpa using hk)]

/-- What a search by key finds is what was kept. -/
theorem find?_firstsBy_eq_some :
    xs.find? (key · = k) = some x ↔ x ∈ firstsBy key xs ∧ key x = k := by
  rw [← find?_firstsBy]
  constructor
  · intro hfound
    exact ⟨List.mem_of_find?_eq_some hfound, by simpa using List.find?_some hfound⟩
  · rintro ⟨hmem, rfl⟩
    obtain ⟨y, hy⟩ : ∃ y, (firstsBy key xs).find? (key · = key x) = some y := by
      rw [← Option.isSome_iff_exists, List.find?_isSome]
      exact ⟨x, hmem, by simp⟩
    -- no other member that was kept has the key of `x`
    have hkey : key y = key x := by simpa using List.find?_some hy
    have hinj := List.inj_on_of_nodup_map (nodup_map_firstsBy key xs)
    rw [hy, hinj (List.mem_of_find?_eq_some hy) hmem hkey]

end ClassHierarchy

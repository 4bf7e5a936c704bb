import ClassHierarchy.Program.Validation
import ClassHierarchy.Proofs.Chain

/-!
# The search for cycles

`Program.clearChains` climbs from every class and stops a climb at types that an earlier one has gone
over. What carries the search is that all these types have chains that end. A climb that comes back
to its own path then has found a cycle, for it has met no cleared type; and one that ends or meets a
cleared type has gone over types whose chains end too.

* `climbToCleared_ok`, `climbToCleared_error`: a single climb.
* `clearChains_error_iff`: the search fails for the first type whose chain never ends, with the first
  member of a cycle on it.
-/

namespace ClassHierarchy.Program

variable {links : Std.TreeMap TypeName TypeName} {next : TypeName → Option TypeName}
  (hlinks : ∀ t, links[t]? = next t) {cleared path path' : TypeSet} {t u : TypeName}
  {ts l : List TypeName}
include hlinks

/-! ## One climb -/

/-- The types of the path lead to the one that the climb has come to, so they end where it ends. -/
theorem climbToCleared_ok (hcleared : ∀ u ∈ cleared, Ends next u)
    (hpath : ∀ u ∈ path, Reaches next u t)
    (hok : climbToCleared links cleared path t = .ok path') :
    Ends next t ∧ ∀ u ∈ path', Ends next u := by
  fun_induction climbToCleared links cleared path t with
  | case1 path t hstop =>
    cases hok
    have hends : Ends next t := hcleared t (by simpa using hstop)
    exact ⟨hends, fun u hu => (ends_iff_of_reaches (hpath u hu)).mpr hends⟩
  | case2 => cases hok
  | case3 path t _ _ parent hlink ih =>
    have hparent : next t = some parent := hlinks t ▸ hlink
    have hgrown : ∀ u ∈ path.insert t, Reaches next u parent := by
      intro u hu
      rcases TypeName.mem_insert.mp hu with rfl | hu
      · exact .single hparent
      · exact (hpath u hu).tail hparent
    obtain ⟨hends, hmembers⟩ := ih hgrown hok
    exact ⟨(ends_iff_of_linked hparent).mpr hends, hmembers⟩
  | case4 path t _ _ hlink =>
    cases hok
    have hends : Ends next t := ends_of_none (hlinks t ▸ hlink)
    refine ⟨hends, fun u hu => ?_⟩
    rcases TypeName.mem_insert.mp hu with rfl | hu
    · exact hends
    · exact (ends_iff_of_reaches (hpath u hu)).mpr hends

/-- The path is what the climb has walked over, without repetition, so the type that is met again is
where it enters a cycle. -/
theorem climbToCleared_error {start : TypeName} (hwalk : Walk next start l t) (hnodup : l.Nodup)
    (hpath : ∀ u, u ∈ path ↔ u ∈ l) (herror : climbToCleared links cleared path t = .error u) :
    EntersCycle next start u := by
  fun_induction climbToCleared links cleared path t generalizing l with
  | case1 => cases herror
  | case2 path t _ hmet =>
    have hback : t ∈ l := (hpath t).mp (by simpa using hmet)
    cases herror
    exact entersCycle_of_rho hwalk hnodup hback
  | case3 path t _ hnew parent hlink ih =>
    have hparent : next t = some parent := hlinks t ▸ hlink
    -- the walk goes on over `t`, which it has not met before
    have hnew : t ∉ l := fun ht => hnew (by simpa using (hpath t).mpr ht)
    have hlonger : (l ++ [t]).Nodup := by
      refine List.nodup_append.mpr ⟨hnodup, by simp, ?_⟩
      rintro v hv w hw rfl
      exact hnew (List.mem_singleton.mp hw ▸ hv)
    refine ih (hwalk.concat hparent) hlonger ?_ herror
    intro v
    rw [TypeName.mem_insert, hpath, List.mem_append, List.mem_singleton, or_comm]
  | case4 => cases herror

/-- From types that are cleared a climb ends, or it enters a cycle and says where. -/
theorem climbToCleared_cases (hcleared : ∀ u ∈ cleared, Ends next u) (t : TypeName) :
    (∃ path, climbToCleared links cleared ∅ t = .ok path ∧ Ends next t
      ∧ ∀ u ∈ cleared ∪ path, Ends next u)
    ∨ ∃ u, climbToCleared links cleared ∅ t = .error u ∧ EntersCycle next t u := by
  cases hresult : climbToCleared links cleared ∅ t with
  | ok path =>
    obtain ⟨hends, hmembers⟩ := climbToCleared_ok hlinks hcleared (by simp) hresult
    refine .inl ⟨path, rfl, hends, fun u hu => ?_⟩
    rcases Std.TreeSet.mem_union_iff.mp hu with hu | hu
    · exact hcleared u hu
    · exact hmembers u hu
  | error u =>
    exact .inr ⟨u, rfl, climbToCleared_error hlinks .start List.nodup_nil (by simp) hresult⟩

/-! ## All climbs -/

/-- Types that were all cleared have chains that end. -/
theorem clearChains_ok {cleared' : TypeSet} (hcleared : ∀ u ∈ cleared, Ends next u)
    (hok : clearChains links cleared ts = .ok cleared') : ∀ t ∈ ts, Ends next t := by
  induction ts generalizing cleared with
  | nil => simp
  | cons t ts ih =>
    rw [clearChains] at hok
    rcases climbToCleared_cases hlinks hcleared t with
      ⟨path, hclimb, hends, hunion⟩ | ⟨u, hclimb, -⟩
    · rw [hclimb] at hok
      exact List.forall_mem_cons.mpr ⟨hends, ih hunion hok⟩
    · rw [hclimb] at hok
      cases hok

/-- The type in the report is where the chain of the first type without an end enters its cycle. -/
theorem clearChains_error_iff (hcleared : ∀ u ∈ cleared, Ends next u) :
    clearChains links cleared ts = .error u ↔ ∃ before t after, ts = before ++ t :: after
      ∧ (∀ v ∈ before, Ends next v) ∧ EntersCycle next t u := by
  induction ts generalizing cleared with
  | nil => simp [clearChains]
  | cons t ts ih =>
    rw [clearChains]
    rcases climbToCleared_cases hlinks hcleared t with
      ⟨path, hclimb, hends, hunion⟩ | ⟨u', hclimb, henters⟩
    · -- the chain of `t` ends, so the search goes on, and `t` is not the type it fails for
      simp only [hclimb, ih hunion]
      constructor
      · rintro ⟨before, v, after, rfl, hbefore, henters⟩
        exact ⟨t :: before, v, after, rfl, List.forall_mem_cons.mpr ⟨hends, hbefore⟩, henters⟩
      · rintro ⟨before, v, after, hsplit, hbefore, henters⟩
        cases before with
        | nil =>
          obtain ⟨rfl, rfl⟩ := List.cons.inj hsplit
          exact absurd hends henters.not_ends
        | cons w before =>
          obtain ⟨rfl, rfl⟩ := List.cons.inj hsplit
          exact ⟨before, v, after, rfl, (List.forall_mem_cons.mp hbefore).2, henters⟩
    · -- the search fails for `t`, and the chain of no type before it can be endless
      simp only [hclimb, Except.error.injEq]
      constructor
      · rintro rfl
        exact ⟨[], t, ts, rfl, by simp, henters⟩
      · rintro ⟨before, v, after, hsplit, hbefore, henters'⟩
        cases before with
        | nil =>
          obtain ⟨rfl, rfl⟩ := List.cons.inj hsplit
          exact henters.unique henters'
        | cons w before =>
          obtain ⟨rfl, rfl⟩ := List.cons.inj hsplit
          exact absurd (hbefore t List.mem_cons_self) henters.not_ends

end ClassHierarchy.Program

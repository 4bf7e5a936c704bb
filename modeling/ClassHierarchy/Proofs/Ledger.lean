import ClassHierarchy.Proofs.Closure
import Mathlib.Data.List.Dedup

/-!
# The ledger of a memo

The resolutions that share a memo account for what it holds. A resolution notes every question that the
memo could not answer, and remembers its answer for all of them at its end. So the misses are the
questions that were noted, and the entries are the different ones among them. Two resolutions that take
turns may both miss the same question, which then has one entry; a resolution that has the memo for
itself does not miss what another one has missed before it.

* `Accounts.step`: a step of a resolution is accounted for, whatever the others are at.
* `Accounts.size_le`, `Accounts.size_eq`: there are no more entries than misses, and at the end as many
  as there are different questions among the misses.
* `Pool.turn_distinct`, `Crew.finish_distinct`: while no two lookups are under way no question is missed
  twice.
-/

namespace ClassHierarchy

namespace Memo

variable {memo : Memo} {ls : List Lookup}

/-- The remembered questions, each of them once. -/
theorem exists_keys (memo : Memo) : ∃ keys : List Lookup, keys.Nodup ∧ keys.length = memo.size
    ∧ ∀ l, l ∈ keys ↔ memo.Remembers l.signature l.start := by
  refine ⟨memo.entries.keys, ?_, Std.TreeMap.length_keys, fun l => ?_⟩
  · refine List.Pairwise.imp ?_ Std.TreeMap.distinct_keys
    rintro a _ hne rfl
    exact hne Std.ReflCmp.compare_self
  · rw [Std.TreeMap.mem_keys, Remembers, find?, Std.TreeMap.isSome_getElem?_iff_mem]

/-- If all that is remembered is in a list, there are no more entries than its members. -/
theorem size_le_length (hentries : ∀ l : Lookup, memo.Remembers l.signature l.start → l ∈ ls) :
    memo.size ≤ ls.length := by
  rcases exists_keys memo with ⟨keys, hnodup, hlength, hkeys⟩
  rw [← hlength]
  exact (List.subperm_of_subset hnodup fun l hl => hentries l ((hkeys l).mp hl)).length_le

/-- If a list has just what is remembered, its different members are the entries. -/
theorem size_eq_length_dedup
    (hentries : ∀ l : Lookup, memo.Remembers l.signature l.start ↔ l ∈ ls) :
    memo.size = ls.dedup.length := by
  rcases exists_keys memo with ⟨keys, hnodup, hlength, hkeys⟩
  rw [← hlength]
  refine ((List.perm_ext_iff_of_nodup hnodup ls.nodup_dedup).mpr fun l => ?_).length_eq
  rw [hkeys, hentries, List.mem_dedup]

end Memo

/-! ## What a resolution adds -/

namespace Resolving

variable {h : Hierarchy} {r : Resolving} {memo : Memo} {s : Signature} {u : TypeName}

/-- The questions that the memo could not answer. -/
def missed (r : Resolving) : List Lookup :=
  r.noted.map (⟨r.signature, ·⟩)

/-- The climb is over, and it ended at a type that was remembered. -/
def AtRemembered (h : Hierarchy) (r : Resolving) : Prop :=
  match r.stage with
  | .remember _ _ | .done _ => r.Recalled h
  | _ => False

theorem mem_missed {l : Lookup} : l ∈ r.missed ↔ r.signature = l.signature ∧ l.start ∈ r.noted := by
  rcases l with ⟨s, t⟩
  simp [missed, and_comm]

theorem not_atRemembered_begin (t : TypeName) (s : Signature) : ¬ (begin t s).AtRemembered h :=
  nofun

/-- A climb that had to end where it did, at a type that it scanned, came to no other type. -/
theorem Exhausted.not_recalled (hexhausted : r.Exhausted h) : ¬ r.Recalled h := by
  rcases hexhausted with ⟨passed, t, hnoted, -, hlast⟩
  rintro ⟨v, hwalk, hdeclared⟩
  rw [hnoted] at hwalk hdeclared
  rcases hwalk.split with ⟨b, -, hrest⟩
  cases hrest with
  | step hparent _ =>
    -- the last type has a parent and declares nothing, so the climb would have gone on
    rcases hlast with hlast | hroot
    · exact hlast (hdeclared t (by simp))
    · rw [hroot] at hparent
      cases hparent

/-- A step notes one type more, or none. -/
theorem noted_step_prefix : r.noted <+: (r.step h memo).1.noted := by
  apply step_cases (motive := fun next => r.noted <+: next.1.noted)
  case miss =>
    intro t _ _ _
    exact List.prefix_append r.noted [t]
  all_goals
    intros
    exact List.prefix_rfl

/-- What was missed once stays on the list. -/
theorem missed_step_subset : r.missed ⊆ (r.step h memo).1.missed := by
  intro l hl
  rw [mem_missed] at hl ⊢
  have hsignature : (r.step h memo).1.signature = r.signature :=
    congrArg Lookup.signature (question_step h r memo)
  exact ⟨hsignature.trans hl.1, noted_step_prefix.subset hl.2⟩

/-- A miss is counted for every type that is noted. -/
theorem step_misses (r : Resolving) (memo : Memo) :
    (r.step h memo).2.misses + r.missed.length
      = memo.misses + (r.step h memo).1.missed.length := by
  apply step_cases (motive := fun next =>
    next.2.misses + r.missed.length = memo.misses + next.1.missed.length)
  case miss =>
    intro t _ _ _
    simp only [Memo.count, missed, List.length_map, List.length_append, List.length_singleton,
      Bool.false_eq_true, if_false]
    omega
  all_goals
    intros
    rfl

open Classical in
/-- A hit is counted where the climb ends at a remembered type. -/
theorem step_hits (hclimbs : r.Climbs h) (memo : Memo) :
    (r.step h memo).2.hits + (if r.AtRemembered h then 1 else 0)
      = memo.hits + if (r.step h memo).1.AtRemembered h then 1 else 0 := by
  have hgoes (next : Resolving × Memo) (hhits : next.2.hits = memo.hits)
      (hiff : next.1.AtRemembered h ↔ r.AtRemembered h) :
      next.2.hits + (if r.AtRemembered h then 1 else 0)
        = memo.hits + if next.1.AtRemembered h then 1 else 0 := by
    simp only [hhits, hiff]
  apply step_cases (motive := fun next =>
    next.2.hits + (if r.AtRemembered h then 1 else 0)
      = memo.hits + if next.1.AtRemembered h then 1 else 0)
  case hit =>
    intro t answer hstage _ _
    simp only [Climbs, hstage] at hclimbs
    have hbefore : ¬ r.AtRemembered h := by simp [AtRemembered, hstage]
    have hafter : AtRemembered h { r with stage := .remember answer r.noted } := ⟨t, hclimbs⟩
    rw [if_neg hbefore, if_pos hafter]
    rfl
  case miss | skip | absent | parent =>
    intros
    refine hgoes _ rfl ?_
    simp [AtRemembered, *]
  case fault =>
    intro t fault hstage hdeclared
    have hexhausted := hclimbs.exhausted_of_scan hstage (by simp [hdeclared])
    exact hgoes _ rfl (iff_of_false hexhausted.not_recalled (by simp [AtRemembered, hstage]))
  case found =>
    intro t m hstage hdeclared
    have hexhausted := hclimbs.exhausted_of_scan hstage (by simp [hdeclared])
    exact hgoes _ rfl (iff_of_false hexhausted.not_recalled (by simp [AtRemembered, hstage]))
  case root =>
    intro t hstage hroot
    have hexhausted := hclimbs.exhausted_of_root hstage hroot
    exact hgoes _ rfl (iff_of_false hexhausted.not_recalled (by simp [AtRemembered, hstage]))
  case insert =>
    intro answer t left hstage
    refine hgoes _ rfl ?_
    simp only [AtRemembered, hstage]
    exact .rfl
  case finish =>
    intro answer hstage
    refine hgoes _ rfl ?_
    simp only [AtRemembered, hstage]
    exact .rfl
  case ended =>
    intro outcome _
    rfl

/-- A climb that ended at a type did so because the type was remembered. -/
theorem step_recalled (hclimbs : r.Climbs h)
    (hrecalled : r.AtRemembered h → ∃ t, r.CameBy h r.noted t ∧ memo.Remembers r.signature t)
    (hat : (r.step h memo).1.AtRemembered h) :
    ∃ t, (r.step h memo).1.CameBy h (r.step h memo).1.noted t
      ∧ (r.step h memo).2.Remembers (r.step h memo).1.signature t := by
  revert hat
  apply step_cases (motive := fun next => next.1.AtRemembered h →
    ∃ t, next.1.CameBy h next.1.noted t ∧ next.2.Remembers next.1.signature t)
  case hit =>
    intro t answer hstage _ hfound _
    simp only [Climbs, hstage] at hclimbs
    exact ⟨t, hclimbs, by simp [Memo.Remembers, hfound]⟩
  case fault =>
    intro t fault hstage hdeclared hat
    exact absurd hat (hclimbs.exhausted_of_scan hstage (by simp [hdeclared])).not_recalled
  case found =>
    intro t m hstage hdeclared hat
    exact absurd hat (hclimbs.exhausted_of_scan hstage (by simp [hdeclared])).not_recalled
  case root =>
    intro t hstage hroot hat
    exact absurd hat (hclimbs.exhausted_of_root hstage hroot).not_recalled
  case insert =>
    intro answer t left hstage hat
    simp only [AtRemembered, hstage] at hrecalled
    rcases hrecalled hat with ⟨v, hcame, hmemo⟩
    exact ⟨v, hcame, Memo.remembers_insert.mpr (.inr hmemo)⟩
  case finish =>
    intro answer hstage hat
    simp only [AtRemembered, hstage] at hrecalled
    exact hrecalled hat
  case ended =>
    intro outcome _
    exact hrecalled
  case miss | skip | absent | parent =>
    intros
    contradiction

/-- What a step remembers was missed. -/
theorem step_entries (hkept : r.Kept memo) {l : Lookup}
    (hl : (r.step h memo).2.Remembers l.signature l.start) :
    memo.Remembers l.signature l.start ∨ l ∈ (r.step h memo).1.missed := by
  revert hl
  apply step_cases (motive := fun next => next.2.Remembers l.signature l.start →
    memo.Remembers l.signature l.start ∨ l ∈ next.1.missed)
  case hit | miss =>
    intros
    refine .inl ?_
    simpa only [Memo.Remembers, Memo.find?_count] using ‹_›
  case insert =>
    intro answer t left hstage hl
    simp only [Kept, hstage] at hkept
    rcases Memo.remembers_insert.mp hl with ⟨hsignature, rfl⟩ | hl
    · exact .inr (mem_missed.mpr ⟨hsignature, hkept.1 List.mem_cons_self⟩)
    · exact .inl hl
  all_goals
    intros
    exact .inl ‹_›

/-- The resolution has noted no type. -/
def Blank (r : Resolving) : Prop :=
  r.noted = [] ∧ ∀ answer left, r.stage = .remember answer left → left = []

/-- Without a memo a step notes nothing and remembers nothing. -/
theorem step_blank (hoff : h.options.memoize = false) (hblank : r.Blank) :
    (r.step h memo).1.Blank ∧ (r.step h memo).2 = memo := by
  rcases hblank with ⟨hnoted, hleft⟩
  apply step_cases (motive := fun next => next.1.Blank ∧ next.2 = memo)
  case hit | miss =>
    intros
    simp_all
  case insert =>
    intro answer t left hstage
    cases hleft answer (t :: left) hstage
  case ended =>
    intro outcome _
    exact ⟨⟨hnoted, hleft⟩, rfl⟩
  all_goals
    intros
    exact ⟨⟨hnoted, by simp [hnoted]⟩, rfl⟩

end Resolving

/-! ## What a ledger accounts for -/

namespace Hierarchy

variable {h : Hierarchy} {p : Program} {memo : Memo} {rs rs' : List Resolving}

open Classical in
/-- How many of the resolutions came to a remembered type. -/
noncomputable def recalls (h : Hierarchy) (rs : List Resolving) : Nat :=
  rs.countP fun r => decide (r.AtRemembered h)

open Classical in
theorem recalls_cons (r : Resolving) (rs : List Resolving) :
    h.recalls (r :: rs) = h.recalls rs + if r.AtRemembered h then 1 else 0 := by
  by_cases hat : r.AtRemembered h <;> simp [recalls, hat]

theorem recalls_perm (hperm : rs.Perm rs') : h.recalls rs = h.recalls rs' :=
  hperm.countP_eq _

/-- All that the memo has counted and remembered since it was empty comes from these resolutions, and
none of them has failed. -/
structure Accounts (h : Hierarchy) (memo : Memo) (rs : List Resolving) : Prop extends
    h.Tracks memo rs where
  answered : ∀ r ∈ rs, ∀ outcome, r.outcome? = some outcome → ∃ answer, outcome = .ok answer
  misses : memo.misses = (rs.flatMap Resolving.missed).length
  hits : memo.hits = h.recalls rs
  /-- What is remembered was missed before. -/
  entries : ∀ l : Lookup, memo.Remembers l.signature l.start → l ∈ rs.flatMap Resolving.missed
  /-- The type at which a climb ended is still remembered. -/
  recalled : ∀ r ∈ rs, r.AtRemembered h →
    ∃ t, r.CameBy h r.noted t ∧ memo.Remembers r.signature t

/-- An empty memo has counted nothing. -/
theorem accounts_empty : h.Accounts ∅ [] where
  climbs := by simp
  kept := by simp
  answered := by simp
  misses := rfl
  hits := rfl
  entries l hl := by simp [Memo.Remembers] at hl
  recalled := by simp

theorem Accounts.perm (haccounts : h.Accounts memo rs) (hperm : rs.Perm rs') :
    h.Accounts memo rs' where
  toTracks := haccounts.toTracks.perm hperm
  answered r hmem := haccounts.answered r (hperm.mem_iff.mpr hmem)
  misses := haccounts.misses.trans (hperm.flatMap_right _).length_eq
  hits := haccounts.hits.trans (recalls_perm hperm)
  entries l hl := (hperm.flatMap_right _).mem_iff.mp (haccounts.entries l hl)
  recalled r hmem := haccounts.recalled r (hperm.mem_iff.mpr hmem)

/-- A new resolution has asked nothing yet. -/
theorem Accounts.begin (haccounts : h.Accounts memo rs) (t : TypeName) (s : Signature) :
    h.Accounts memo (.begin t s :: rs) where
  toTracks := haccounts.toTracks.begin t s
  answered := List.forall_mem_cons.mpr ⟨nofun, haccounts.answered⟩
  misses := haccounts.misses
  hits := by
    rw [recalls_cons, if_neg (Resolving.not_atRemembered_begin t s), Nat.add_zero, haccounts.hits]
  entries := haccounts.entries
  recalled := List.forall_mem_cons.mpr
    ⟨fun hat => absurd hat (Resolving.not_atRemembered_begin t s), haccounts.recalled⟩

section Step

variable (hon : h.options.memoize = true) (hr : h.Represents p) (hreceivers : p.HasReceivers)
include hon hr hreceivers

/-- A step of a resolution is accounted for, whatever the others are at. -/
theorem Accounts.step {r : Resolving} (haccounts : h.Accounts memo (r :: rs)) :
    h.Accounts (r.step h memo).2 ((r.step h memo).1 :: rs) := by
  have hclimbs := haccounts.climbs r List.mem_cons_self
  have hkept := haccounts.kept r List.mem_cons_self
  rcases List.forall_mem_cons.mp haccounts.answered with ⟨hanswered, hothersAnswered⟩
  rcases List.forall_mem_cons.mp haccounts.recalled with ⟨hrecalled, hothersRecalled⟩
  constructor
  case toTracks => exact haccounts.toTracks.step hon
  case answered =>
    refine List.forall_mem_cons.mpr ⟨fun outcome houtcome => ?_, hothersAnswered⟩
    have hsafe : r.Safe p := by
      intro outcome houtcome
      rcases hanswered outcome houtcome with ⟨answer, rfl⟩
      exact failsOnly_ok answer
    exact (Resolving.step_safe hr hsafe outcome houtcome).exists_ok hreceivers.not_fault
  case misses =>
    have hmisses := haccounts.misses
    have hstep := Resolving.step_misses (h := h) r memo
    simp only [List.flatMap_cons, List.length_append] at hmisses ⊢
    omega
  case hits =>
    have hhits := haccounts.hits
    have hstep := Resolving.step_hits hclimbs memo
    rw [recalls_cons] at hhits ⊢
    omega
  case entries =>
    intro l hl
    rcases Resolving.step_entries hkept hl with hl | hl
    · have hl := haccounts.entries l hl
      simp only [List.flatMap_cons, List.mem_append] at hl ⊢
      exact hl.imp_left fun hl => Resolving.missed_step_subset hl
    · exact List.mem_append_left _ hl
  case recalled =>
    refine List.forall_mem_cons.mpr ⟨fun hat => ?_, fun other hother hat => ?_⟩
    · exact Resolving.step_recalled hclimbs hrecalled hat
    · rcases hothersRecalled other hother hat with ⟨t, hcame, hmemo⟩
      exact ⟨t, hcame, Resolving.remembers_step hmemo⟩

end Step

/-- There are no more entries than misses. -/
theorem Accounts.size_le (haccounts : h.Accounts memo rs) : memo.size ≤ memo.misses := by
  rw [haccounts.misses]
  exact Memo.size_le_length haccounts.entries

/-- What a resolution has missed is remembered when it has ended. -/
theorem Accounts.remembers {r : Resolving} (haccounts : h.Accounts memo rs) (hmem : r ∈ rs)
    (hended : r.outcome?.isSome) {l : Lookup} (hl : l ∈ r.missed) :
    memo.Remembers l.signature l.start := by
  rcases Option.isSome_iff_exists.mp hended with ⟨outcome, houtcome⟩
  rcases haccounts.answered r hmem outcome houtcome with ⟨answer, rfl⟩
  have hkept := haccounts.kept r hmem
  simp only [Resolving.Kept, Resolving.outcome?_eq_some_iff.mp houtcome] at hkept
  rcases Resolving.mem_missed.mp hl with ⟨hsignature, hstart⟩
  rw [← hsignature]
  exact hkept l.start (List.mem_cons_of_mem _ hstart)

/-- When all resolutions have ended, there are as many entries as different questions were missed. -/
theorem Accounts.size_eq (haccounts : h.Accounts memo rs) (hended : ∀ r ∈ rs, r.outcome?.isSome) :
    memo.size = (rs.flatMap Resolving.missed).dedup.length := by
  refine Memo.size_eq_length_dedup fun l => ⟨haccounts.entries l, fun hl => ?_⟩
  rcases List.mem_flatMap.mp hl with ⟨r, hmem, hl⟩
  exact haccounts.remembers hmem (hended r hmem) hl

/-- There are as many entries as misses just if no question was missed twice. -/
theorem Accounts.size_eq_misses_iff (haccounts : h.Accounts memo rs)
    (hended : ∀ r ∈ rs, r.outcome?.isSome) :
    memo.size = memo.misses ↔ (rs.flatMap Resolving.missed).Nodup := by
  rw [haccounts.size_eq hended, haccounts.misses, ← List.dedup_eq_self]
  exact ⟨(List.dedup_sublist _).eq_of_length, congrArg List.length⟩

/-- The climb of a resolution that has ended was over at a remembered type just if it came to one. -/
theorem Accounts.atRemembered_iff {r : Resolving} (haccounts : h.Accounts memo rs) (hmem : r ∈ rs)
    (hended : r.outcome?.isSome) :
    r.AtRemembered h ↔ ∃ t, r.CameBy h r.noted t ∧ memo.Remembers r.signature t := by
  refine ⟨haccounts.recalled r hmem, fun ⟨t, hcame, _⟩ => ?_⟩
  rcases Option.isSome_iff_exists.mp hended with ⟨outcome, houtcome⟩
  simp only [Resolving.AtRemembered, Resolving.outcome?_eq_some_iff.mp houtcome]
  exact ⟨t, hcame⟩

/-- A resolution that has the memo for itself misses nothing that was missed before. -/
theorem Accounts.distinct_step (hr : h.Represents p) (hacyclic : p.Acyclic) {r : Resolving}
    (haccounts : h.Accounts memo (r :: rs)) (hended : ∀ other ∈ rs, other.outcome?.isSome)
    (hdistinct : ((r :: rs).flatMap Resolving.missed).Nodup) :
    (((r.step h memo).1 :: rs).flatMap Resolving.missed).Nodup := by
  have hclimbs := haccounts.climbs r List.mem_cons_self
  apply Resolving.step_cases (motive := fun next =>
    ((next.1 :: rs).flatMap Resolving.missed).Nodup)
  case miss =>
    intro t hstage _ hunknown
    simp only [Resolving.Climbs, hstage] at hclimbs
    have hnew : ⟨r.signature, t⟩ ∉ (r :: rs).flatMap Resolving.missed := by
      rw [List.flatMap_cons, List.mem_append, not_or]
      constructor
      · rw [Resolving.mem_missed]
        exact fun hl => hclimbs.1.not_mem_of_ends (hr.ends hacyclic r.start) hl.2
      · -- the others have ended, and so what they missed is remembered
        intro hl
        rcases List.mem_flatMap.mp hl with ⟨other, hother, hl⟩
        have hmemo := haccounts.remembers (List.mem_cons_of_mem r hother) (hended other hother) hl
        simp [Memo.Remembers, hunknown] at hmemo
    have hmissed : Resolving.missed ⟨r.start, r.signature, r.noted ++ [t], .scan t⟩
        = r.missed ++ [⟨r.signature, t⟩] := List.map_append
    rw [List.flatMap_cons, hmissed, List.append_assoc, List.singleton_append, List.nodup_middle]
    exact List.nodup_cons.mpr ⟨hnew, hdistinct⟩
  all_goals
    intros
    exact hdistinct

end Hierarchy

/-! ## One lookup at a time -/

/-- The questions that resolutions of the pool have missed. -/
abbrev Pool.missed (pool : Pool) : List Lookup :=
  pool.resolutions.flatMap Resolving.missed

/-- While no two lookups are under way no question is missed twice. There may have been lookups before,
which have ended. -/
theorem Pool.turn_distinct {h : Hierarchy} {p : Program} {pool : Pool} {old : List Resolving}
    {turn : Turn} (hr : h.Represents p) (hacyclic : p.Acyclic) (hone : pool.AtMostOne)
    (hold : ∀ r ∈ old, r.outcome?.isSome) (haccounts : h.Accounts pool.memo (old ++ pool.resolutions))
    (hdistinct : ((old ++ pool.resolutions).flatMap Resolving.missed).Nodup) :
    ((old ++ (pool.turn h turn).resolutions).flatMap Resolving.missed).Nodup := by
  cases turn with
  | begin t s => simpa [turn, Resolving.missed, Resolving.begin] using hdistinct
  | forget => exact hdistinct
  | advance i =>
    cases hi : pool.resolutions[i]? with
    | none => rwa [turn_advance_of_none hi]
    | some r =>
      rcases turn_advance_perm (h := h) hi with ⟨hbefore, hafter⟩
      cases hended : pool.outcome? i with
      | some outcome => rwa [turn_advance_of_ended hended]
      | none =>
        have hothers : ∀ other ∈ old ++ pool.resolutions.eraseIdx i, other.outcome?.isSome := by
          refine List.forall_mem_append.mpr ⟨hold, fun other hother => ?_⟩
          rcases List.mem_eraseIdx_iff_getElem?.mp hother with ⟨j, hne, hj⟩
          rw [← Option.ne_none_iff_isSome]
          intro hnone
          refine hne (hone j i ?_ ?_)
          · exact ⟨(List.getElem?_eq_some_iff.mp hj).1, by simp [outcome?, hj, hnone]⟩
          · exact ⟨(List.getElem?_eq_some_iff.mp hi).1, hended⟩
        have hperm : ∀ {rs : List Resolving} {r}, rs.Perm (r :: pool.resolutions.eraseIdx i) →
            (old ++ rs).Perm (r :: (old ++ pool.resolutions.eraseIdx i)) :=
          fun hrs => (hrs.append_left old).trans List.perm_middle
        refine ((hperm hafter).flatMap_right _).nodup_iff.mpr ?_
        exact (haccounts.perm (hperm hbefore)).distinct_step hr hacyclic hothers
          (((hperm hbefore).flatMap_right _).nodup_iff.mp hdistinct)

namespace Crew

variable {α : Type} {h : Hierarchy} {p : Program} {crew : Crew α} {old : List Resolving}

/-- In the steps of the crew in this order, and when it is let come to its end after them, there are no
two lookups under way. -/
def Apart (h : Hierarchy) (crew : Crew α) (turns : List Nat) : Prop :=
  crew.workers.length ≤ 1
    ∨ (∀ front, front <+: turns → (crew.run h front).pool.AtMostOne)
      ∧ ∀ i, ¬ (crew.run h turns).pool.UnderWay i

section Accounts

variable (hr : h.Represents p) (hacyclic : p.Acyclic) (hcrew : crew.Coherent)

include hcrew in
/-- A worker alone has one lookup under way at most. -/
theorem atMostOne_of_alone (halone : crew.workers.length ≤ 1) (turns : List Nat) :
    (crew.run h turns).pool.AtMostOne := by
  refine (run_coherent hcrew turns).atMostOne (k := 0) fun k hk => ?_
  have hnone : (crew.run h turns).workers[k]? = none :=
    List.getElem?_eq_none (by rw [length_run]; omega)
  rw [slot?, hnone]
  rfl

include hr hacyclic hcrew in
/-- Lookups that do not overlap are made in an order of steps in which no two of them are under way. -/
theorem Apart.exists_turns {turns : List Nat} (hapart : crew.Apart h turns)
    (hbounded : crew.pool.Bounded h) :
    ∃ all, (crew.run h all).pool = ((crew.run h turns).finish h).2
      ∧ ∀ front, front <+: all → (crew.run h front).pool.AtMostOne := by
  obtain ⟨more, hpool, -, hone⟩ := Crew.exists_turns hr hacyclic (run_coherent (h := h) hcrew turns)
    (run_bounded hr hacyclic hbounded turns)
  refine ⟨turns ++ more, by rw [run_append, hpool], fun front hfront => ?_⟩
  rcases hapart with halone | ⟨hturns, hidle⟩
  · exact atMostOne_of_alone hcrew halone front
  · rcases hfront with ⟨rest, hfront⟩
    rcases List.append_eq_append_iff.mp hfront with ⟨between, hbetween, -⟩ | ⟨begun, rfl, hbegun⟩
    · exact hturns front ⟨between, hbetween.symm⟩
    · rw [run_append]
      refine hone (fun k => ?_) begun ⟨rest, hbegun.symm⟩
      -- who waits has a lookup under way
      rw [← Option.not_isSome_iff_eq_none, Option.isSome_iff_exists]
      rintro ⟨i, hi⟩
      rcases Option.bind_eq_some_iff.mp hi with ⟨w, hw, hslot⟩
      exact hidle i ((run_coherent hcrew turns).asked k w i hw hslot).1

variable (hreceivers : p.HasReceivers) (hon : h.options.memoize = true)
  (haccounts : h.Accounts crew.pool.memo (old ++ crew.pool.resolutions))
include hr hreceivers hon haccounts

/-- What a crew does is accounted for, together with what was done before. -/
theorem run_accounts (turns : List Nat) :
    h.Accounts (crew.run h turns).pool.memo (old ++ (crew.run h turns).pool.resolutions) := by
  rcases run_pool (h := h) crew turns with ⟨more, hmore, hpool⟩
  rw [hpool]
  refine Pool.run_keeps (fun memo rs => h.Accounts memo (old ++ rs)) ?_ ?_ ?_ hmore haccounts
  · intro memo rs rs' hperm haccounts
    exact haccounts.perm (hperm.append_left old)
  · intro memo rs t s haccounts
    exact (haccounts.begin t s).perm List.perm_middle.symm
  · intro memo r rs haccounts
    exact ((haccounts.perm List.perm_middle).step hon hr hreceivers).perm List.perm_middle.symm

include hacyclic

/-- While no two lookups are under way no question is missed twice. -/
theorem run_distinct (hold : ∀ r ∈ old, r.outcome?.isSome)
    (hdistinct : ((old ++ crew.pool.resolutions).flatMap Resolving.missed).Nodup) {turns : List Nat}
    (hone : ∀ front, front <+: turns → (crew.run h front).pool.AtMostOne) :
    ((old ++ (crew.run h turns).pool.resolutions).flatMap Resolving.missed).Nodup := by
  induction turns using List.reverseRecOn with
  | nil => exact hdistinct
  | append_singleton turns k ih =>
    have hbefore := ih fun front hfront => hone front (hfront.trans (List.prefix_append turns [k]))
    rw [run_append, run_cons, run_nil]
    rcases advance_pool (h := h) (crew.run h turns) k with hpool | ⟨turn, -, hpool⟩
    · rwa [hpool]
    · rw [hpool]
      exact Pool.turn_distinct hr hacyclic (hone turns (List.prefix_append turns [k])) hold
        (run_accounts hr hreceivers hon haccounts turns) hbefore

end Accounts

end Crew

/-! ## The lookups of a crew -/

namespace Plan

variable {α β : Type} {f : α → Plan β} {ls ls' : List Lookup}

/-- The lookups that a plan makes if none of them finds a method. -/
def lookups : Plan α → List Lookup
  | done _ => []
  | ask l next => l :: (next none).lookups

/-- The plan makes these lookups, whatever their answers are, and then has a result. -/
def Makes : Plan α → List Lookup → Prop
  | done outcome, ls => ls = [] ∧ ∃ x, outcome = .ok x
  | ask l next, ls => ∃ rest, ls = l :: rest ∧ ∀ answer, (next answer).Makes rest

/-- A plan that makes the same lookups whatever their answers are makes them if none finds a method.
-/
theorem Makes.lookups_eq {plan : Plan α} (hplan : plan.Makes ls) : plan.lookups = ls := by
  induction plan generalizing ls with
  | done outcome => exact hplan.1.symm
  | ask l next ih =>
    rcases hplan with ⟨rest, rfl, hnext⟩
    exact congrArg (l :: ·) (ih none (hnext none))

theorem makes_pure (x : α) : (pure x : Plan α).Makes [] :=
  ⟨rfl, x, rfl⟩

theorem makes_lookup (l : Lookup) : (lookup l).Makes [l] :=
  ⟨[], rfl, makes_pure⟩

/-- A plan makes its lookups and then those of what comes next. -/
theorem Makes.bind {plan : Plan α} (hplan : plan.Makes ls) (hf : ∀ x, (f x).Makes ls') :
    (plan >>= f).Makes (ls ++ ls') := by
  induction plan generalizing ls with
  | done outcome =>
    rcases hplan with ⟨rfl, x, rfl⟩
    exact hf x
  | ask l next ih =>
    rcases hplan with ⟨rest, rfl, hnext⟩
    exact ⟨rest ++ ls', rfl, fun answer => ih answer (hnext answer)⟩

/-- Plans in a row make their lookups in a row. -/
theorem makes_mapM {g : α → List Lookup} (hf : ∀ x, (f x).Makes (g x)) (xs : List α) :
    (xs.mapM f).Makes (xs.flatMap g) := by
  induction xs with
  | nil => exact makes_pure []
  | cons x xs ih =>
    rw [List.mapM_cons, List.flatMap_cons]
    refine (hf x).bind fun y => ?_
    rw [← List.append_nil (xs.flatMap g)]
    exact ih.bind fun ys => makes_pure (y :: ys)

end Plan

/-- The lookups that a worker has not begun yet. -/
def Worker.todo {α : Type} (w : Worker α) : List Lookup :=
  if w.slot.isSome then w.plan.lookups.tail else w.plan.lookups

namespace Crew

variable {α : Type} {h : Hierarchy} {p : Program} {crew : Crew α} {ls : List Lookup}

/-- The lookups that the crew has made and those that it has still to make are these. -/
structure Makes (crew : Crew α) (ls : List Lookup) : Prop where
  plans : ∀ w ∈ crew.workers, w.plan.Makes w.plan.lookups
  perm : (crew.pool.questions ++ crew.workers.flatMap Worker.todo).Perm ls

/-- A step makes a lookup that was still to be made, or none. -/
theorem advance_makes {k : Nat} (hcrew : crew.Makes ls)
    (hanswered : ∀ r ∈ (crew.advance h k).pool.resolutions, ∀ outcome, r.outcome? = some outcome →
      ∃ answer, outcome = .ok answer) : (crew.advance h k).Makes ls := by
  cases hw : crew.workers[k]? with
  | none => rwa [advance_of_none hw]
  | some w =>
    rw [advance_of_some hw] at hanswered ⊢
    have hplan := hcrew.plans w (List.mem_of_getElem? hw)
    -- one worker steps, and the lookups of the others stay as they are
    have hset (next : Worker α × Pool) (hnext : next.1.plan.Makes next.1.plan.lookups)
        (htodo : next.2.questions ++ next.1.todo = crew.pool.questions ++ w.todo) :
        Makes ⟨next.2, crew.workers.set k next.1⟩ ls := by
      rcases List.getElem?_eq_some_iff.mp hw with ⟨hlt, rfl⟩
      refine ⟨fun w' hw' => ?_, ?_⟩
      · rcases List.mem_or_eq_of_mem_set hw' with hw' | rfl
        · exact hcrew.plans w' hw'
        · exact hnext
      · have hbefore := (List.getElem_cons_eraseIdx_perm hlt).flatMap_right Worker.todo
        have hafter := (List.set_perm_cons_eraseIdx hlt next.1).flatMap_right Worker.todo
        refine .trans ?_ ((hbefore.append_left crew.pool.questions).trans hcrew.perm)
        refine (hafter.append_left next.2.questions).trans (.of_eq ?_)
        rw [List.flatMap_cons, List.flatMap_cons, ← List.append_assoc, htodo, List.append_assoc]
    revert hanswered
    apply Worker.step_cases (motive := fun next => (∀ r ∈ next.2.resolutions, ∀ outcome,
      r.outcome? = some outcome → ∃ answer, outcome = .ok answer) →
      Makes ⟨next.2, crew.workers.set k next.1⟩ ls)
    case idle =>
      intro outcome _ _
      exact hset (w, crew.pool) hplan rfl
    case begins =>
      intro l next hask hslot _
      refine hset (⟨w.plan, some crew.pool.resolutions.length⟩, _) hplan ?_
      simp [Worker.todo, hask, hslot, Plan.lookups, Pool.turn, Pool.questions, Resolving.question,
        Resolving.begin]
    case waits =>
      intro l next i _ _ _ _
      refine hset (w, _) hplan ?_
      rw [Pool.questions_advance]
    case resumes =>
      intro l next i outcome hask hslot hended hanswered
      rcases Option.bind_eq_some_iff.mp hended with ⟨r, hi, hr⟩
      rcases hanswered r (List.mem_of_getElem? hi) outcome hr with ⟨answer, rfl⟩
      rw [hask] at hplan
      rcases hplan with ⟨rest, hlookups, hnext⟩
      have hrest := (hnext answer).lookups_eq
      have hnext' : (next answer).Makes (next answer).lookups := hrest.symm ▸ hnext answer
      refine hset ({ plan := next answer }, _) hnext' ?_
      rw [Pool.questions_advance]
      simp only [Worker.todo, hask, hslot, hlookups, hrest, Option.isSome_some, Option.isSome_none,
        if_true, List.tail_cons]
      rfl

section Makes

variable {old : List Resolving} (hr : h.Represents p) (hreceivers : p.HasReceivers)
  (hon : h.options.memoize = true)
  (haccounts : h.Accounts crew.pool.memo (old ++ crew.pool.resolutions)) (hmakes : crew.Makes ls)
include hr hreceivers hon haccounts hmakes

/-- In the course of the work lookups are begun that were still to be made, and no others. -/
theorem run_makes (turns : List Nat) : (crew.run h turns).Makes ls := by
  induction turns using List.reverseRecOn with
  | nil => exact hmakes
  | append_singleton turns k ih =>
    have hafter := run_accounts hr hreceivers hon haccounts (turns ++ [k])
    rw [run_append, run_cons, run_nil] at hafter ⊢
    exact advance_makes ih fun r hmem => hafter.answered r (List.mem_append_right old hmem)

end Makes

/-! ## A crew from its first steps to its end -/

section Finish

variable {old : List Resolving} {memo : Memo} (hr : h.Represents p) (hacyclic : p.Acyclic)
  (hreceivers : p.HasReceivers) (hon : h.options.memoize = true) (hnew : crew.pool = { memo })
  (hcrew : crew.Coherent) (haccounts : h.Accounts memo old) (turns : List Nat)
include hr hacyclic hreceivers hon hnew hcrew haccounts

/-- What a crew has done is accounted for, together with what was done before, and all its lookups have
ended. -/
theorem finish_accounts : let pool := ((crew.run h turns).finish h).2
    h.Accounts pool.memo (old ++ pool.resolutions) ∧ ∀ r ∈ pool.resolutions, r.outcome?.isSome := by
  have hstart : h.Accounts crew.pool.memo (old ++ crew.pool.resolutions) := by
    simpa [hnew] using haccounts
  have hbounded := run_bounded hr hacyclic (hnew ▸ Pool.all_of_memo trivial) turns
  have hcoherent := run_coherent (h := h) hcrew turns
  rcases exists_turns hr hacyclic hcoherent hbounded with ⟨more, hpool, -⟩
  refine ⟨?_, Pool.not_underWay_iff_ended.mp (finish_ended hr hacyclic hcoherent hbounded)⟩
  rw [← hpool, ← run_append]
  exact run_accounts hr hreceivers hon hstart (turns ++ more)

/-- The lookups that a crew has made are those of its plans, in some order. -/
theorem finish_questions (hmakes : crew.Makes ls) :
    ((crew.run h turns).finish h).2.questions.Perm ls := by
  have hstart : h.Accounts crew.pool.memo (old ++ crew.pool.resolutions) := by
    simpa [hnew] using haccounts
  obtain ⟨more, hpool, hplans, -⟩ := exists_turns hr hacyclic (run_coherent (h := h) hcrew turns)
    (run_bounded hr hacyclic (hnew ▸ Pool.all_of_memo trivial) turns)
  rw [← run_append] at hpool hplans
  have hend := (run_makes hr hreceivers hon hstart hmakes (turns ++ more)).perm
  have htodo : (crew.run h (turns ++ more)).workers.flatMap Worker.todo = [] := by
    refine List.flatMap_eq_nil_iff.mpr fun w hw => ?_
    -- a plan that is done has no lookups left
    have hplan := List.mem_map_of_mem (f := Worker.plan) hw
    rw [hplans] at hplan
    rcases List.mem_map.mp hplan with ⟨outcome, -, hdone⟩
    simp [Worker.todo, ← hdone, Plan.lookups]
  rwa [htodo, List.append_nil, hpool] at hend

/-- Lookups that do not overlap miss nothing that was missed before. -/
theorem finish_distinct (hold : ∀ r ∈ old, r.outcome?.isSome)
    (hdistinct : (old.flatMap Resolving.missed).Nodup) (hapart : crew.Apart h turns) :
    ((old ++ ((crew.run h turns).finish h).2.resolutions).flatMap Resolving.missed).Nodup := by
  have hstart : h.Accounts crew.pool.memo (old ++ crew.pool.resolutions) := by
    simpa [hnew] using haccounts
  obtain ⟨all, hall, hone⟩ :=
    hapart.exists_turns hr hacyclic hcrew (hnew ▸ Pool.all_of_memo trivial)
  rw [← hall]
  exact run_distinct hr hacyclic hreceivers hon hstart hold (by simpa [hnew] using hdistinct) hone

end Finish

end Crew

end ClassHierarchy

import ClassHierarchy.Proofs.SharedWork

/-!
# Memos without gaps

A climb is remembered for all types that it scanned, and it stops where the answer is remembered
already. Together the two leave no gaps: from a remembered type upwards everything is remembered, up to
the type that lists the method.

Where resolutions take turns there are gaps for some time. A resolution may find an answer for a high
type that another one has just remembered, and end before that one has remembered it for the types
between. But what is not remembered yet is about to be: some resolution that has found its answer has
the type on its list. When all of them have ended no gap is left.

* `ClosedUpward.of_chain`: without gaps, the way to the method is remembered.
* `Resolving.step_closed`, `Covered.step`: no step of a resolution leaves a type uncovered, whatever the
  others are at.
* `Gapless.resolve`, `Gapless.remembers`: a resolution that is made in one piece leaves no gaps, and its
  start is remembered.
* `Gapless.run_crew_covered`, `Gapless.batch`: no type is left uncovered while a batch is carried out,
  and there are no gaps after it.
-/

namespace ClassHierarchy

/-- The memo has an answer to the signature for the type. -/
def Memo.Remembers (memo : Memo) (s : Signature) (t : TypeName) : Prop :=
  (memo.find? s t).isSome

/-- One more question is remembered, and those before it still are. -/
theorem Memo.remembers_insert {memo : Memo} {s r : Signature} {t u : TypeName}
    {answer : Option Method} :
    (memo.insert s t answer).Remembers r u ↔ s = r ∧ t = u ∨ memo.Remembers r u := by
  rw [Remembers, find?_insert]
  split <;> simp [*, Remembers]

namespace Hierarchy

variable {h : Hierarchy} {p : Program} {memo later : Memo} {s : Signature} {t u : TypeName}

/-! ## Types without gaps -/

/-- The type has a definition that lists a method which answers the signature. One without a receiver is
a fault, and no answer. -/
def ListsAnswer (h : Hierarchy) (t : TypeName) (s : Signature) : Prop :=
  ∃ c, h.definition? t = some c ∧ ∃ m ∈ c.methods, m.answers s = .ok true

/-- The parent of a type that has the property has it too, unless the type lists a method which answers
the signature. -/
def ClosedUpward (h : Hierarchy) (s : Signature) (has : TypeName → Prop) : Prop :=
  ∀ t, has t → h.ListsAnswer t s ∨ h.superclass? t = none
    ∨ ∃ u, h.superclass? t = some u ∧ has u

/-- From a remembered type upwards everything is remembered, up to the type that lists the method. -/
def Gapless (h : Hierarchy) (memo : Memo) : Prop :=
  ∀ s, h.ClosedUpward s (memo.Remembers s)

/-- A method that is found is listed and answers; those before it have no say. -/
theorem mem_of_findM?_answers {ms : List Method} {m : Method}
    (hfound : ms.findM? (·.answers s) = (.ok (some m) : Except Fault (Option Method))) :
    m ∈ ms ∧ m.answers s = .ok true := by
  induction ms with
  | nil => cases hfound
  | cons n ms ih =>
    rw [List.findM?] at hfound
    cases hanswers : n.answers s with
    | error fault =>
      rw [hanswers] at hfound
      cases hfound
    | ok answers =>
      rw [hanswers] at hfound
      cases answers with
      | true =>
        cases hfound
        exact ⟨List.mem_cons_self, hanswers⟩
      | false => exact (ih hfound).imp_left (List.mem_cons_of_mem n)

/-- A type that declares a method lists an answer. -/
theorem listsAnswer_of_declared {m : Method} (hdeclared : h.declared t s = .ok (some m)) :
    h.ListsAnswer t s := by
  unfold declared at hdeclared
  cases hdefined : h.definition? t with
  | none =>
    rw [hdefined] at hdeclared
    cases hdeclared
  | some c =>
    rw [hdefined] at hdeclared
    exact ⟨c, hdefined, m, mem_of_findM?_answers hdeclared⟩

theorem ClosedUpward.congr {has has' : TypeName → Prop} (hclosed : h.ClosedUpward s has)
    (hiff : ∀ u, has' u ↔ has u) : h.ClosedUpward s has' := by
  rwa [funext fun u => propext (hiff u)]

/-- Along a chain of parents the property goes up to the first type that lists an answer. -/
theorem ClosedUpward.of_chain {has : TypeName → Prop} (hclosed : h.ClosedUpward s has)
    {nearer farther : List TypeName} (hchain : Chain h.superclass? t (nearer ++ u :: farther))
    (hnearer : ∀ b ∈ nearer, ¬ h.ListsAnswer b s) (ht : has t) : has u := by
  generalize hl : nearer ++ u :: farther = l at hchain
  induction hchain generalizing nearer with
  | last _ =>
    cases nearer with
    | nil =>
      cases hl
      exact ht
    | cons b nearer => simp at hl
  | link hsome _ ih =>
    cases nearer with
    | nil =>
      cases hl
      exact ht
    | cons b nearer =>
      rcases List.cons.inj hl with ⟨rfl, hrest⟩
      rcases List.forall_mem_cons.mp hnearer with ⟨hb, hnearer⟩
      -- the type does not list an answer and has a parent, so the property goes on to the parent
      rcases hclosed b ht with hanswer | hnone | ⟨v, hv, hhas⟩
      · exact absurd hanswer hb
      · rw [hnone] at hsome
        cases hsome
      · obtain rfl := linked_unique hsome hv
        exact ih hnearer hhas hrest

/-- More types leave no gap, if the parent of each of them is there. -/
theorem ClosedUpward.add {ts : List TypeName} {has : TypeName → Prop}
    (hclosed : h.ClosedUpward s has)
    (hts : ∀ t ∈ ts, h.ListsAnswer t s ∨ h.superclass? t = none
      ∨ ∃ u, h.superclass? t = some u ∧ (has u ∨ u ∈ ts)) :
    h.ClosedUpward s fun u => has u ∨ u ∈ ts := by
  intro t ht
  rcases ht with ht | ht
  · rcases hclosed t ht with hanswer | hroot | ⟨u, hu, hhas⟩
    · exact .inl hanswer
    · exact .inr (.inl hroot)
    · exact .inr (.inr ⟨u, hu, .inl hhas⟩)
  · exact hts t ht

/-- Where nothing is remembered there is nothing to close. -/
theorem gapless_empty : h.Gapless ∅ := by
  intro s t ht
  simp [Memo.Remembers] at ht

/-- Where the answer is remembered there is nothing to climb. -/
theorem outcome_resolve_of_remembers (hon : h.options.memoize = true) (hmemo : memo.Remembers s t) :
    ∃ answer, (h.resolve t s).outcome memo = (.ok answer, { memo with hits := memo.hits + 1 }) := by
  rcases Option.isSome_iff_exists.mp hmemo with ⟨answer, hanswer⟩
  refine ⟨answer, ?_⟩
  have hclimb : h.climb s (memo.find? s) t = ⟨[], true, .ok answer⟩ := by
    rw [climb, climbWithin, hanswer]
  rw [outcome_resolve hon, hclimb]
  rfl

end Hierarchy

/-! ## Resolutions that take turns -/

namespace Resolving

variable {h : Hierarchy} {r : Resolving} {memo : Memo} {s : Signature} {u : TypeName}

/-- From the start over these types, none of which declares a method, the resolution came to the type. -/
def CameBy (h : Hierarchy) (r : Resolving) (passed : List TypeName) (t : TypeName) : Prop :=
  Walk h.superclass? r.start passed t ∧ ∀ b ∈ passed, h.declared b r.signature = .ok none

/-- The climb did not scan the last type that it came to. -/
def Recalled (h : Hierarchy) (r : Resolving) : Prop :=
  ∃ t, r.CameBy h r.noted t

/-- The climb could not go on from the last type that it scanned. -/
def Exhausted (h : Hierarchy) (r : Resolving) : Prop :=
  ∃ passed t, r.noted = passed ++ [t] ∧ r.CameBy h passed t
    ∧ (h.declared t r.signature ≠ .ok none ∨ h.superclass? t = none)

/-- The noted types are those on the way up, and the way goes no further than the climb. -/
def Climbs (h : Hierarchy) (r : Resolving) : Prop :=
  match r.stage with
  | .ask t => r.CameBy h r.noted t
  | .scan t => ∃ passed, r.noted = passed ++ [t] ∧ r.CameBy h passed t
  | .ascend t => ∃ passed, r.noted = passed ++ [t] ∧ r.CameBy h passed t
      ∧ h.declared t r.signature = .ok none
  | .remember _ _ | .done _ => r.Recalled h ∨ r.Exhausted h

/-- A resolution that has found an answer has remembered it for its start and the noted types, or is
about to, and remembers it for no others. -/
def Kept (memo : Memo) (r : Resolving) : Prop :=
  match r.stage with
  | .remember _ left => left ⊆ r.noted
      ∧ ∀ t ∈ r.start :: r.noted, memo.Remembers r.signature t ∨ t ∈ left
  | .done (.ok _) => ∀ t ∈ r.start :: r.noted, memo.Remembers r.signature t
  | _ => True

/-- The resolution has found an answer, and is about to remember it for the type. -/
def Promises (r : Resolving) (s : Signature) (u : TypeName) : Prop :=
  r.signature = s ∧ ∃ answer left, r.stage = .remember answer left ∧ u ∈ left

theorem promises_remember {start : TypeName} {noted left : List TypeName} {answer : Option Method}
    {r : Signature} : Promises ⟨start, r, noted, .remember answer left⟩ s u ↔ r = s ∧ u ∈ left := by
  simp [Promises]

/-- A resolution that has ended owes nothing to any type. -/
theorem not_promises_of_ended (hended : r.outcome?.isSome) : ¬ r.Promises s u := by
  rintro ⟨-, answer, left, hstage, -⟩
  simp [outcome?, hstage] at hended

/-- A new resolution has come to its start, over no type. -/
theorem climbs_begin (t : TypeName) (s : Signature) : (begin t s).Climbs h :=
  ⟨.start, by simp [begin]⟩

/-- The way up begins with the start. -/
theorem CameBy.start_mem {passed : List TypeName} {t : TypeName} (hcame : r.CameBy h passed t) :
    r.start ∈ passed ++ [t] := by
  simpa using hcame.1.start_mem

/-- A climb ends at a type that it has scanned, unless it finds nothing there. -/
theorem Climbs.exhausted_of_scan {t : TypeName} (hclimbs : r.Climbs h) (hstage : r.stage = .scan t)
    (hdeclared : h.declared t r.signature ≠ .ok none) : r.Exhausted h := by
  simp only [Climbs, hstage] at hclimbs
  rcases hclimbs with ⟨passed, hnoted, hcame⟩
  exact ⟨passed, t, hnoted, hcame, .inl hdeclared⟩

/-- A climb ends at a type without a parent. -/
theorem Climbs.exhausted_of_root {t : TypeName} (hclimbs : r.Climbs h) (hstage : r.stage = .ascend t)
    (hroot : h.superclass? t = none) : r.Exhausted h := by
  simp only [Climbs, hstage] at hclimbs
  rcases hclimbs with ⟨passed, hnoted, hcame, -⟩
  exact ⟨passed, t, hnoted, hcame, .inr hroot⟩

/-- A step takes the climb on, or ends it. -/
theorem step_climbs (hon : h.options.memoize = true) (hclimbs : r.Climbs h) :
    (r.step h memo).1.Climbs h := by
  apply step_cases (motive := fun next => next.1.Climbs h)
  case hit =>
    intro t answer hstage _ _
    simp only [Climbs, hstage] at hclimbs
    exact .inl ⟨t, hclimbs⟩
  case miss =>
    intro t hstage _ _
    simp only [Climbs, hstage] at hclimbs
    exact ⟨r.noted, rfl, hclimbs⟩
  case skip =>
    intro t _ hoff
    rw [hon] at hoff
    cases hoff
  case fault =>
    intro t fault hstage hdeclared
    exact .inr (hclimbs.exhausted_of_scan hstage (by simp [hdeclared]))
  case found =>
    intro t m hstage hdeclared
    exact .inr (hclimbs.exhausted_of_scan hstage (by simp [hdeclared]))
  case absent =>
    intro t hstage hdeclared
    simp only [Climbs, hstage] at hclimbs
    rcases hclimbs with ⟨passed, hnoted, hcame⟩
    exact ⟨passed, hnoted, hcame, hdeclared⟩
  case parent =>
    intro t v hstage hparent
    simp only [Climbs, hstage] at hclimbs
    rcases hclimbs with ⟨passed, hnoted, hcame, hdeclared⟩
    simp only [Climbs, hnoted]
    refine ⟨hcame.1.concat hparent, fun b hb => ?_⟩
    rcases List.mem_append.mp hb with hb | hb
    · exact hcame.2 b hb
    · rwa [List.mem_singleton.mp hb]
  case root =>
    intro t hstage hroot
    exact .inr (hclimbs.exhausted_of_root hstage hroot)
  case insert =>
    intro answer t left hstage
    simp only [Climbs, hstage] at hclimbs
    exact hclimbs
  case finish =>
    intro answer hstage
    simp only [Climbs, hstage] at hclimbs
    exact hclimbs
  case ended =>
    intro outcome _
    exact hclimbs

/-- A step forgets nothing. -/
theorem remembers_step (hmemo : memo.Remembers s u) : (r.step h memo).2.Remembers s u := by
  apply step_cases (motive := fun next => next.2.Remembers s u)
  case hit | miss =>
    intros
    rwa [Memo.Remembers, Memo.find?_count]
  case insert =>
    intro answer t left _
    exact Memo.remembers_insert.mpr (.inr hmemo)
  all_goals
    intros
    exact hmemo

/-- With a step a resolution keeps what it owes to its start and the noted types. -/
theorem step_kept (hclimbs : r.Climbs h) (hkept : r.Kept memo) :
    (r.step h memo).1.Kept (r.step h memo).2 := by
  apply step_cases (motive := fun next => next.1.Kept next.2)
  case hit =>
    intro t answer hstage _ hfound
    simp only [Climbs, hstage] at hclimbs
    refine ⟨List.Subset.refl _, List.forall_mem_cons.mpr ⟨?_, fun b hb => .inr hb⟩⟩
    rcases hclimbs.1.start_mem with hstart | hstart
    · exact .inr hstart
    · exact .inl (by simp [Memo.Remembers, hstart, hfound])
  case found =>
    intro t m hstage _
    simp only [Climbs, hstage] at hclimbs
    rcases hclimbs with ⟨passed, hnoted, hcame⟩
    refine ⟨List.Subset.refl _, List.forall_mem_cons.mpr ⟨?_, fun b hb => .inr hb⟩⟩
    exact .inr (hnoted ▸ hcame.start_mem)
  case root =>
    intro t hstage _
    simp only [Climbs, hstage] at hclimbs
    rcases hclimbs with ⟨passed, hnoted, hcame, -⟩
    refine ⟨List.Subset.refl _, List.forall_mem_cons.mpr ⟨?_, fun b hb => .inr hb⟩⟩
    exact .inr (hnoted ▸ hcame.start_mem)
  case insert =>
    intro answer t left hstage
    simp only [Kept, hstage] at hkept
    refine ⟨List.Subset.trans (List.subset_cons_self t left) hkept.1, fun b hb => ?_⟩
    rw [Memo.remembers_insert]
    rcases hkept.2 b hb with hmemo | hleft
    · exact .inl (.inr hmemo)
    · rcases List.mem_cons.mp hleft with rfl | hleft
      · exact .inl (.inl ⟨rfl, rfl⟩)
      · exact .inr hleft
  case finish =>
    intro answer hstage
    simpa [Kept, hstage] using hkept
  case ended =>
    intro outcome _
    exact hkept
  all_goals
    intros
    trivial

/-- What one resolution owes it still owes, or has done, when another takes a step. -/
theorem Kept.step {other : Resolving} (hkept : other.Kept memo) : other.Kept (r.step h memo).2 := by
  unfold Kept at hkept ⊢
  split at hkept
  · exact ⟨hkept.1, fun t ht => (hkept.2 t ht).imp_left remembers_step⟩
  · exact fun t ht => remembers_step (hkept t ht)
  · trivial

/-- With a step of a resolution no gap opens that is not about to be closed. Others may be about to close
some. -/
theorem step_closed {has : Signature → TypeName → Prop} (hclimbs : r.Climbs h)
    (hclosed : ∀ s, h.ClosedUpward s fun u => (memo.Remembers s u ∨ r.Promises s u) ∨ has s u) :
    ∀ s, h.ClosedUpward s fun u =>
      ((r.step h memo).2.Remembers s u ∨ (r.step h memo).1.Promises s u) ∨ has s u := by
  -- the memo and this resolution cover the same types as before
  have hsame (next : Resolving × Memo)
      (hiff : ∀ s u, next.2.Remembers s u ∨ next.1.Promises s u
        ↔ memo.Remembers s u ∨ r.Promises s u) (s : Signature) :
      h.ClosedUpward s fun u => (next.2.Remembers s u ∨ next.1.Promises s u) ∨ has s u :=
    (hclosed s).congr fun u => or_congr_left (hiff s u)
  -- an answer is found, and covers the noted types, too
  have hgain (answer : Option Method) (after : Memo) (hpromises : ∀ s u, ¬ r.Promises s u)
      (hiff : ∀ s u, after.Remembers s u ↔ memo.Remembers s u)
      (hnoted : ∀ b ∈ r.noted, h.ListsAnswer b r.signature ∨ h.superclass? b = none
        ∨ ∃ u, h.superclass? b = some u ∧ (memo.Remembers r.signature u ∨ u ∈ r.noted))
      (s : Signature) : h.ClosedUpward s fun u => (after.Remembers s u
        ∨ Promises { r with stage := .remember answer r.noted } s u) ∨ has s u := by
    by_cases hs : r.signature = s
    · subst hs
      have hadd := (hclosed r.signature).add fun b hb => by
        rcases hnoted b hb with hanswer | hroot | ⟨u, hu, hhas⟩
        · exact .inl hanswer
        · exact .inr (.inl hroot)
        · exact .inr (.inr ⟨u, hu, hhas.imp_left fun hmemo => .inl (.inl hmemo)⟩)
      refine hadd.congr fun u => ?_
      simp only [hiff, hpromises, promises_remember, true_and, or_false]
      tauto
    · exact (hclosed s).congr fun u => by simp [hiff, hpromises, promises_remember, hs]
  -- the parents of the types on the way are on the way, up to the last one
  have hway {passed : List TypeName} {t : TypeName} (hcame : r.CameBy h passed t)
      (hlast : h.ListsAnswer t r.signature ∨ h.superclass? t = none) :
      ∀ b ∈ passed ++ [t], h.ListsAnswer b r.signature ∨ h.superclass? b = none
        ∨ ∃ u, h.superclass? b = some u ∧ (memo.Remembers r.signature u ∨ u ∈ passed ++ [t]) := by
    intro b hb
    rcases List.mem_append.mp hb with hb | hb
    · rcases hcame.1.exists_next hb with ⟨u, hu, hmem⟩
      exact .inr (.inr ⟨u, hu, .inr (by simpa using hmem)⟩)
    · rw [List.mem_singleton.mp hb]
      exact hlast.imp_right .inl
  apply step_cases (motive := fun next => ∀ s, h.ClosedUpward s fun u =>
    (next.2.Remembers s u ∨ next.1.Promises s u) ∨ has s u)
  case hit =>
    intro t answer hstage _ hfound
    simp only [Climbs, hstage] at hclimbs
    refine hgain answer _ (by simp [Promises, hstage]) (by simp [Memo.Remembers]) fun b hb => ?_
    rcases hclimbs.1.exists_next hb with ⟨v, hv, hmem⟩
    refine .inr (.inr ⟨v, hv, ?_⟩)
    rcases hmem with hmem | rfl
    · exact .inr hmem
    · exact .inl (by simp [Memo.Remembers, hfound])
  case miss =>
    intro t hstage _ _
    exact hsame _ (by simp [Promises, hstage, Memo.Remembers])
  case skip =>
    intro t hstage _
    exact hsame _ (by simp [Promises, hstage])
  case fault =>
    intro t fault hstage _
    exact hsame _ (by simp [Promises, hstage])
  case found =>
    intro t m hstage hdeclared
    simp only [Climbs, hstage] at hclimbs
    rcases hclimbs with ⟨passed, hnoted, hcame⟩
    refine hgain (some m) memo (by simp [Promises, hstage]) (fun _ _ => .rfl) ?_
    rw [hnoted]
    exact hway hcame (.inl (Hierarchy.listsAnswer_of_declared hdeclared))
  case absent =>
    intro t hstage _
    exact hsame _ (by simp [Promises, hstage])
  case root =>
    intro t hstage hroot
    simp only [Climbs, hstage] at hclimbs
    rcases hclimbs with ⟨passed, hnoted, hcame, -⟩
    refine hgain none memo (by simp [Promises, hstage]) (fun _ _ => .rfl) ?_
    rw [hnoted]
    exact hway hcame (.inr hroot)
  case parent =>
    intro t v hstage _
    exact hsame _ (by simp [Promises, hstage])
  case insert =>
    intro answer t left hstage
    refine hsame _ fun s u => ?_
    rw [Memo.remembers_insert, promises_remember, Promises, hstage]
    constructor
    · rintro ((⟨rfl, rfl⟩ | hmemo) | ⟨rfl, hu⟩)
      · exact .inr ⟨rfl, answer, t :: left, rfl, List.mem_cons_self⟩
      · exact .inl hmemo
      · exact .inr ⟨rfl, answer, t :: left, rfl, List.mem_cons_of_mem t hu⟩
    · rintro (hmemo | ⟨rfl, _, _, ⟨⟩, hu⟩)
      · exact .inl (.inr hmemo)
      · rcases List.mem_cons.mp hu with rfl | hu
        · exact .inl (.inl ⟨rfl, rfl⟩)
        · exact .inr ⟨rfl, hu⟩
  case finish =>
    intro answer hstage
    exact hsame _ (by simp [Promises, hstage])
  case ended =>
    intro outcome _
    exact hclosed

end Resolving

/-- Nothing is forgotten while the memo is not emptied. -/
theorem Pool.remembers_run {h : Hierarchy} {pool : Pool} {turns : List Turn} {s : Signature}
    {u : TypeName} (hturns : .forget ∉ turns) (hmemo : pool.memo.Remembers s u) :
    (pool.run h turns).memo.Remembers s u := by
  have hall : (pool.run h turns).All (·.Remembers s u) (fun _ => True) :=
    run_all (fun _ _ => trivial) (fun _ _ hmemo _ => ⟨trivial, Resolving.remembers_step hmemo⟩) turns
      (fun hforget => absurd hforget hturns) ⟨hmemo, fun _ _ => trivial⟩
  exact hall.1

namespace Hierarchy

variable {h : Hierarchy} {p : Program} {memo later : Memo} {s : Signature} {t u : TypeName}
  {rs rs' : List Resolving}

/-- The resolutions are climbing, and what they have found is remembered, or about to be. -/
structure Tracks (h : Hierarchy) (memo : Memo) (rs : List Resolving) : Prop where
  climbs : ∀ r ∈ rs, r.Climbs h
  kept : ∀ r ∈ rs, r.Kept memo

/-- There are no gaps but those that some resolution is about to close. -/
structure Covered (h : Hierarchy) (memo : Memo) (rs : List Resolving) : Prop extends
    h.Tracks memo rs where
  closed : ∀ s, h.ClosedUpward s fun u => memo.Remembers s u ∨ ∃ r ∈ rs, r.Promises s u

theorem Tracks.perm (htracks : h.Tracks memo rs) (hperm : rs.Perm rs') : h.Tracks memo rs' where
  climbs r hmem := htracks.climbs r (hperm.mem_iff.mpr hmem)
  kept r hmem := htracks.kept r (hperm.mem_iff.mpr hmem)

theorem Tracks.begin (htracks : h.Tracks memo rs) (t : TypeName) (s : Signature) :
    h.Tracks memo (.begin t s :: rs) where
  climbs := List.forall_mem_cons.mpr ⟨Resolving.climbs_begin t s, htracks.climbs⟩
  kept := List.forall_mem_cons.mpr ⟨trivial, htracks.kept⟩

/-- A step of one resolution keeps what all of them have found. -/
theorem Tracks.step (hon : h.options.memoize = true) {r : Resolving}
    (htracks : h.Tracks memo (r :: rs)) : h.Tracks (r.step h memo).2 ((r.step h memo).1 :: rs) := by
  rcases List.forall_mem_cons.mp htracks.climbs with ⟨hclimbs, hothersClimb⟩
  rcases List.forall_mem_cons.mp htracks.kept with ⟨hkept, hothersKept⟩
  constructor
  case climbs => exact List.forall_mem_cons.mpr ⟨Resolving.step_climbs hon hclimbs, hothersClimb⟩
  case kept =>
    refine List.forall_mem_cons.mpr ⟨Resolving.step_kept hclimbs hkept, fun other hother => ?_⟩
    exact (hothersKept other hother).step

theorem Covered.perm (hcovered : h.Covered memo rs) (hperm : rs.Perm rs') : h.Covered memo rs' where
  toTracks := hcovered.toTracks.perm hperm
  closed s := (hcovered.closed s).congr fun u => by simp only [hperm.mem_iff]

/-- A new resolution has found nothing yet, so it opens no gap. -/
theorem Covered.begin (hcovered : h.Covered memo rs) (t : TypeName) (s : Signature) :
    h.Covered memo (.begin t s :: rs) where
  toTracks := hcovered.toTracks.begin t s
  closed r := (hcovered.closed r).congr fun u => by simp [Resolving.Promises, Resolving.begin]

/-- A step of a resolution leaves no type uncovered, whatever the others are at. -/
theorem Covered.step (hon : h.options.memoize = true) {r : Resolving}
    (hcovered : h.Covered memo (r :: rs)) :
    h.Covered (r.step h memo).2 ((r.step h memo).1 :: rs) := by
  refine ⟨hcovered.toTracks.step hon, fun s => ?_⟩
  have hothers (s : Signature) : h.ClosedUpward s fun u =>
      (memo.Remembers s u ∨ r.Promises s u) ∨ ∃ other ∈ rs, other.Promises s u :=
    (hcovered.closed s).congr fun u => by simp [or_assoc]
  have hclosed := Resolving.step_closed (hcovered.climbs r List.mem_cons_self) hothers s
  exact hclosed.congr fun u => by simp [or_assoc]

/-- Without gaps there is nothing that a resolution would have to close. -/
theorem Gapless.covered (hgapless : h.Gapless memo) : h.Covered memo [] where
  climbs := by simp
  kept := by simp
  closed s := (hgapless s).congr fun u => by simp

/-- When all resolutions have ended, nothing is left to be closed. -/
theorem Covered.gapless (hcovered : h.Covered memo rs) (hended : ∀ r ∈ rs, r.outcome?.isSome) :
    h.Gapless memo := by
  intro s
  refine (hcovered.closed s).congr fun u => (or_iff_left ?_).symm
  rintro ⟨r, hmem, hpromises⟩
  exact Resolving.not_promises_of_ended (hended r hmem) hpromises

/-! ## Without gaps at the end -/

section Memoize

variable (hon : h.options.memoize = true) (hr : h.Represents p) (hacyclic : p.Acyclic)
include hon hr hacyclic

omit hon in
/-- What is remembered stays so, whatever is resolved. -/
theorem remembers_resolve (hmemo : memo.Remembers s u) (t : TypeName) (r : Signature) :
    ((h.resolve t r).outcome memo).2.Remembers s u := by
  rcases Pool.exists_run_resolve hr (hr.ends hacyclic t) r { memo } with ⟨turns, noted, hturns, hrun⟩
  have hlater : (({ memo } : Pool).run h turns).memo.Remembers s u := Pool.remembers_run hturns hmemo
  rwa [hrun] at hlater

omit hon in
/-- What is remembered stays so, whatever a batch does. -/
theorem remembers_batch (hmemo : memo.Remembers s u) (sites : List CallSite) (sharing : Sharing) :
    (h.batch sites sharing memo).2.memo.Remembers s u := by
  rcases batch_pool hr hacyclic sites sharing memo with ⟨turns, hturns, hpool⟩
  rw [hpool]
  exact Pool.remembers_run hturns hmemo

/-- A resolution that is made in one piece leaves no type uncovered. -/
theorem Covered.resolve (hcovered : h.Covered memo rs) (t : TypeName) (s : Signature) :
    ∃ noted, h.Covered ((h.resolve t s).outcome memo).2
      (⟨t, s, noted, .done ((h.resolve t s).outcome memo).1⟩ :: rs) :=
  Pool.resolve_keeps h.Covered (fun _ _ _ hperm hcovered => hcovered.perm hperm)
    (fun _ _ t s hcovered => hcovered.begin t s) (fun _ _ _ hcovered => hcovered.step hon) hr
    (hr.ends hacyclic t) s hcovered

/-- A resolution that has the memo for itself leaves no gaps, whether it finds a method, finds none
or meets a fault. -/
theorem Gapless.resolve (hgapless : h.Gapless memo) (t : TypeName) (s : Signature) :
    h.Gapless ((h.resolve t s).outcome memo).2 := by
  rcases hgapless.covered.resolve hon hr hacyclic t s with ⟨noted, hcovered⟩
  exact hcovered.gapless (by simp [Resolving.outcome?])

/-- What was resolved is remembered. -/
theorem Gapless.remembers (hgapless : h.Gapless memo) {answer : Option Method}
    (hfound : ((h.resolve t s).outcome memo).1 = .ok answer) :
    ((h.resolve t s).outcome memo).2.Remembers s t := by
  rcases hgapless.covered.resolve hon hr hacyclic t s with ⟨noted, hcovered⟩
  have hkept := hcovered.kept _ List.mem_cons_self
  simp only [Resolving.Kept, hfound] at hkept
  exact hkept t List.mem_cons_self

omit hr hacyclic in
/-- Whatever turns are taken on a memo without gaps, no type is left uncovered. -/
theorem Gapless.run_covered (hgapless : h.Gapless memo) {turns : List Turn} (hturns : .forget ∉ turns) :
    h.Covered (({ memo } : Pool).run h turns).memo (({ memo } : Pool).run h turns).resolutions :=
  Pool.run_keeps h.Covered (fun _ _ _ hperm hcovered => hcovered.perm hperm)
    (fun _ _ t s hcovered => hcovered.begin t s) (fun _ _ _ hcovered => hcovered.step hon) hturns
    hgapless.covered

omit hr hacyclic in
/-- While the workers of a batch are at work no type is left uncovered. -/
theorem Gapless.run_crew_covered (hgapless : h.Gapless memo) (sites : List CallSite)
    (shares turns : List Nat) : let pool := ((h.crew sites shares memo).run h turns).pool
    h.Covered pool.memo pool.resolutions := by
  rcases Crew.run_pool (h := h) (h.crew sites shares memo) turns with ⟨more, hmore, hpool⟩
  rw [hpool]
  exact hgapless.run_covered hon hmore

/-- When a batch is over no type is left uncovered. -/
theorem Gapless.batch_covered (hgapless : h.Gapless memo) (sites : List CallSite)
    (sharing : Sharing) : h.Covered (h.batch sites sharing memo).2.memo
      (h.batch sites sharing memo).2.resolutions := by
  rcases batch_pool hr hacyclic sites sharing memo with ⟨turns, hturns, hpool⟩
  rw [hpool]
  exact hgapless.run_covered hon hturns

/-- When a batch is over there are no gaps, though there may have been some in the meantime. -/
theorem Gapless.batch (hgapless : h.Gapless memo) (sites : List CallSite) (sharing : Sharing) :
    h.Gapless (h.batch sites sharing memo).2.memo :=
  (hgapless.batch_covered hon hr hacyclic sites sharing).gapless
    (Pool.not_underWay_iff_ended.mp (batch_ended hr hacyclic sites sharing memo))

/-- What a lookup of the batch has found is remembered when the batch is over. -/
theorem Gapless.batch_remembers (hgapless : h.Gapless memo) {sites : List CallSite}
    {sharing : Sharing} {r : Resolving} (hmem : r ∈ (h.batch sites sharing memo).2.resolutions)
    {answer : Option Method} (hfound : r.outcome? = some (.ok answer)) :
    (h.batch sites sharing memo).2.memo.Remembers r.signature r.start := by
  have hkept := (hgapless.batch_covered hon hr hacyclic sites sharing).kept r hmem
  simp only [Resolving.Kept, Resolving.outcome?_eq_some_iff.mp hfound] at hkept
  exact hkept r.start List.mem_cons_self

end Memoize

end Hierarchy

end ClassHierarchy

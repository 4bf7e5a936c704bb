import ClassHierarchy.Proofs.OpenReceivers
import ClassHierarchy.Resolution.Interleaved
import Mathlib.Data.List.Perm.Basic

/-!
# Resolutions that take turns do not disagree

A resolution may miss an answer for a low type, find one for a higher type that another resolution
has just remembered, and pass it on to types that a third one is writing or that were forgotten
meanwhile. No order of the steps makes a difference to what is answered and remembered.

* `step_sound`: between its steps, a resolution stands for its start and for all the types it has
  noted. They mean the same, so the answer for one of them may be remembered for all.
* `step_endsWithin`: every step brings a resolution closer to its end, whatever the memo says.
* `leads_resolve`: a resolution whose steps follow each other directly is `Hierarchy.resolve`.
* `interleaved_resolutions_agree`: what a pool remembers and answers is what resolutions without a
  memo find.
-/

namespace ClassHierarchy

variable {h : Hierarchy} {p : Program} {r : Resolving} {memo : Memo} {t : TypeName} {s : Signature}

namespace Resolving

/-! ## One step -/

/-- All that the next step of a resolution can be. -/
theorem step_cases {motive : Resolving × Memo → Prop}
    (hit : ∀ t answer, r.stage = .ask t → h.options.memoize = true →
      memo.find? r.signature t = some answer →
      motive ({ r with stage := .remember answer r.noted }, memo.count true))
    (miss : ∀ t, r.stage = .ask t → h.options.memoize = true → memo.find? r.signature t = none →
      motive ({ r with noted := r.noted ++ [t], stage := .scan t }, memo.count false))
    (skip : ∀ t, r.stage = .ask t → h.options.memoize = false →
      motive ({ r with stage := .scan t }, memo))
    (fault : ∀ t fault, r.stage = .scan t → h.declared t r.signature = .error fault →
      motive ({ r with stage := .done (.error fault) }, memo))
    (found : ∀ t m, r.stage = .scan t → h.declared t r.signature = .ok (some m) →
      motive ({ r with stage := .remember (some m) r.noted }, memo))
    (absent : ∀ t, r.stage = .scan t → h.declared t r.signature = .ok none →
      motive ({ r with stage := .ascend t }, memo))
    (parent : ∀ t u, r.stage = .ascend t → h.superclass? t = some u →
      motive ({ r with stage := .ask u }, memo))
    (root : ∀ t, r.stage = .ascend t → h.superclass? t = none →
      motive ({ r with stage := .remember none r.noted }, memo))
    (insert : ∀ answer t left, r.stage = .remember answer (t :: left) →
      motive ({ r with stage := .remember answer left }, memo.insert r.signature t answer))
    (finish : ∀ answer, r.stage = .remember answer [] →
      motive ({ r with stage := .done (.ok answer) }, memo))
    (ended : ∀ outcome, r.stage = .done outcome → motive (r, memo)) :
    motive (r.step h memo) := by
  unfold step
  cases hstage : r.stage with
  | ask t =>
    cases hmemoize : h.options.memoize with
    | false => simpa using skip t hstage hmemoize
    | true =>
      cases hfound : memo.find? r.signature t with
      | some answer => simpa [Memo.consult, hfound] using hit t answer hstage hmemoize hfound
      | none => simpa [Memo.consult, hfound] using miss t hstage hmemoize hfound
  | scan t =>
    cases hdeclared : h.declared t r.signature with
    | error f => simpa only [hdeclared] using fault t f hstage hdeclared
    | ok method? =>
      cases method? with
      | some m => simpa only [hdeclared] using found t m hstage hdeclared
      | none => simpa only [hdeclared] using absent t hstage hdeclared
  | ascend t =>
    cases hparent : h.superclass? t with
    | some u => simpa only [hparent] using parent t u hstage hparent
    | none => simpa only [hparent] using root t hstage hparent
  | remember answer left =>
    cases left with
    | nil => exact finish answer hstage
    | cons t left => exact insert answer t left hstage
  | done outcome => exact ended outcome hstage

/-! ## What a resolution stands for -/

/-- The start and the types that wait for an answer mean what the stage is about to find, or has
found. -/
def Sound (h : Hierarchy) (r : Resolving) : Prop :=
  match r.stage with
  | .ask t | .scan t =>
    ∀ u ∈ r.start :: r.noted, h.lookup u r.signature = h.lookup t r.signature
  | .ascend t =>
    h.declared t r.signature = .ok none
      ∧ ∀ u ∈ r.start :: r.noted, h.lookup u r.signature = h.lookup t r.signature
  | .remember answer left => ∀ u ∈ r.start :: left, h.lookup u r.signature = .ok answer
  | .done outcome => h.lookup r.start r.signature = outcome

/-- A new resolution stands for the lookup that it was asked for. -/
theorem sound_begin (t : TypeName) (s : Signature) : (begin t s).Sound h := by
  intro u hu
  rw [List.mem_singleton.mp hu]
  rfl

/-- A step of a resolution keeps what it stands for, and keeps an honest memo honest. -/
theorem step_sound (hr : h.Represents p) (hacyclic : p.Acyclic) (hhonest : h.Honest memo)
    (hsound : r.Sound h) : (r.step h memo).1.Sound h ∧ h.Honest (r.step h memo).2 := by
  apply step_cases (motive := fun next => next.1.Sound h ∧ h.Honest next.2)
  case hit =>
    intro t answer hstage _ hfound
    simp only [Sound, hstage] at hsound
    -- the memo is honest whoever has written it
    have hanswer := hhonest _ _ _ hfound
    exact ⟨fun u hu => (hsound u hu).trans hanswer, hhonest.count _⟩
  case miss =>
    intro t hstage _ _
    simp only [Sound, hstage] at hsound
    refine ⟨fun u hu => ?_, hhonest.count _⟩
    rcases List.mem_append.mp (show u ∈ (r.start :: r.noted) ++ [t] from hu) with hu | hu
    · exact hsound u hu
    · rw [List.mem_singleton.mp hu]
  case skip =>
    intro t hstage _
    simp only [Sound, hstage] at hsound
    exact ⟨hsound, hhonest⟩
  case fault =>
    intro t fault hstage hdeclared
    simp only [Sound, hstage] at hsound
    exact ⟨(hsound r.start List.mem_cons_self).trans (Hierarchy.lookup_of_fault hdeclared), hhonest⟩
  case found =>
    intro t m hstage hdeclared
    simp only [Sound, hstage] at hsound
    exact ⟨fun u hu => (hsound u hu).trans (Hierarchy.lookup_of_found hdeclared), hhonest⟩
  case absent =>
    intro t hstage hdeclared
    simp only [Sound, hstage] at hsound
    exact ⟨⟨hdeclared, hsound⟩, hhonest⟩
  case parent =>
    intro t u hstage hparent
    simp only [Sound, hstage] at hsound
    have hlookup := Hierarchy.lookup_of_parent hr (hr.ends hacyclic t) hsound.1 hparent
    exact ⟨fun v hv => (hsound.2 v hv).trans hlookup, hhonest⟩
  case root =>
    intro t hstage hroot
    simp only [Sound, hstage] at hsound
    have hlookup := Hierarchy.lookup_of_root hsound.1 hroot
    exact ⟨fun u hu => (hsound.2 u hu).trans hlookup, hhonest⟩
  case insert =>
    intro answer t left hstage
    simp only [Sound, hstage] at hsound
    obtain ⟨hstart, ht, hleft⟩ : _ ∧ _ ∧ _ := by simpa only [List.forall_mem_cons] using hsound
    exact ⟨List.forall_mem_cons.mpr ⟨hstart, hleft⟩, hhonest.insert ht⟩
  case finish =>
    intro answer hstage
    simp only [Sound, hstage] at hsound
    exact ⟨hsound r.start List.mem_cons_self, hhonest⟩
  case ended =>
    intro outcome _
    exact ⟨hsound, hhonest⟩

/-! ## How far a resolution is from its end -/

/-- The resolution ends within so many steps of its own. Every type of the chain ahead takes three
steps, and one more to remember its answer; so does every type noted before. -/
def EndsWithin (h : Hierarchy) (n : Nat) (r : Resolving) : Prop :=
  match r.stage with
  | .ask t => ∃ l, Chain h.superclass? t l ∧ 4 * l.length + r.noted.length + 1 ≤ n
  | .scan t => ∃ l, Chain h.superclass? t l ∧ 4 * l.length + r.noted.length ≤ n + 1
  | .ascend t => ∃ l, Chain h.superclass? t l ∧ 4 * l.length + r.noted.length ≤ n + 2
  | .remember _ left => left.length + 1 ≤ n
  | .done _ => True

/-- Without cycles a new resolution ends within the bound: there are four steps at most for each
type of its chain. -/
theorem endsWithin_begin (hr : h.Represents p) (hacyclic : p.Acyclic) (t : TypeName)
    (s : Signature) : (begin t s).EndsWithin h (stepBound h) := by
  obtain ⟨l, hl⟩ := hr.ends hacyclic t
  have hlen := hr.chain_length_le hl
  refine ⟨l, hl, ?_⟩
  simp only [begin, stepBound, List.length_nil]
  omega

/-- A resolution that ends within some steps ends within more. -/
theorem EndsWithin.mono {n m : Nat} (hends : r.EndsWithin h n) (hle : n ≤ m) :
    r.EndsWithin h m := by
  unfold EndsWithin at hends ⊢
  cases hstage : r.stage with
  | done outcome => trivial
  | remember answer left =>
    simp only [hstage] at hends ⊢
    omega
  | ask t | scan t | ascend t =>
    simp only [hstage] at hends ⊢
    obtain ⟨l, hl, hlen⟩ := hends
    exact ⟨l, hl, by omega⟩

/-- A resolution without any steps left has ended. -/
theorem EndsWithin.done (hends : r.EndsWithin h 0) : ∃ outcome, r.stage = .done outcome := by
  unfold EndsWithin at hends
  cases hstage : r.stage with
  | done outcome => exact ⟨outcome, rfl⟩
  | remember answer left =>
    simp only [hstage] at hends
    omega
  | ask t | scan t | ascend t =>
    simp only [hstage] at hends
    obtain ⟨l, hl, hlen⟩ := hends
    have hpos := hl.length_pos
    omega

/-- A step brings a resolution closer to its end, and one that has ended stays so. -/
theorem step_endsWithin {n : Nat} (hends : r.EndsWithin h n) :
    (r.step h memo).1.EndsWithin h (n - 1) := by
  apply step_cases (motive := fun next => next.1.EndsWithin h (n - 1))
  case hit =>
    intro t answer hstage _ _
    simp only [EndsWithin, hstage] at hends
    obtain ⟨l, hl, hlen⟩ := hends
    have hpos := hl.length_pos
    simp only [EndsWithin]
    omega
  case miss =>
    intro t hstage _ _
    simp only [EndsWithin, hstage] at hends
    obtain ⟨l, hl, hlen⟩ := hends
    refine ⟨l, hl, ?_⟩
    simp only [List.length_append, List.length_singleton]
    omega
  case skip =>
    intro t hstage _
    simp only [EndsWithin, hstage] at hends
    obtain ⟨l, hl, hlen⟩ := hends
    simp only [EndsWithin]
    exact ⟨l, hl, by omega⟩
  case fault =>
    intro t fault _ _
    trivial
  case found =>
    intro t m hstage _
    simp only [EndsWithin, hstage] at hends
    obtain ⟨l, hl, hlen⟩ := hends
    have hpos := hl.length_pos
    simp only [EndsWithin]
    omega
  case absent =>
    intro t hstage _
    simp only [EndsWithin, hstage] at hends
    obtain ⟨l, hl, hlen⟩ := hends
    have hpos := hl.length_pos
    simp only [EndsWithin]
    exact ⟨l, hl, by omega⟩
  case parent =>
    intro t u hstage hparent
    simp only [EndsWithin, hstage] at hends
    obtain ⟨l, hl, hlen⟩ := hends
    cases hl with
    | last hnone => rw [hnone] at hparent; cases hparent
    | link hsome hrest =>
      obtain rfl := linked_unique hparent hsome
      rw [List.length_cons] at hlen
      have hpos := hrest.length_pos
      simp only [EndsWithin]
      exact ⟨_, hrest, by omega⟩
  case root =>
    intro t hstage _
    simp only [EndsWithin, hstage] at hends
    obtain ⟨l, hl, hlen⟩ := hends
    have hpos := hl.length_pos
    simp only [EndsWithin]
    omega
  case insert =>
    intro answer t left hstage
    simp only [EndsWithin, hstage, List.length_cons] at hends
    simp only [EndsWithin]
    omega
  case finish =>
    intro answer _
    trivial
  case ended =>
    intro outcome hstage
    simp only [EndsWithin, hstage]

/-! ## Steps that follow each other directly -/

/-- Some steps of a resolution, with nothing between them. -/
def Leads (h : Hierarchy) : Resolving × Memo → Resolving × Memo → Prop :=
  Relation.ReflTransGen fun now next => now.1.step h now.2 = next

section Leads

variable {start u : TypeName} {noted left : List TypeName} {answer : Option Method}
  {last : Resolving × Memo}

/-- A found answer is remembered for all types that are left. -/
theorem leads_remember :
    Leads h (⟨start, s, noted, .remember answer left⟩, memo)
      (⟨start, s, noted, .done (.ok answer)⟩, memo.insertAll s left answer) := by
  induction left generalizing memo with
  | nil => exact .single rfl
  | cons t left ih => exact .head rfl ih

theorem leads_of_fault {fault : Fault} (hdeclared : h.declared t s = .error fault) :
    Leads h (⟨start, s, noted, .scan t⟩, memo)
      (⟨start, s, noted, .done (.error fault)⟩, memo) := by
  refine .single ?_
  simp only [step, hdeclared]

theorem leads_of_found {m : Method} (hdeclared : h.declared t s = .ok (some m)) :
    Leads h (⟨start, s, noted, .scan t⟩, memo)
      (⟨start, s, noted, .done (.ok (some m))⟩, memo.insertAll s noted (some m)) := by
  refine .head ?_ leads_remember
  simp only [step, hdeclared]

theorem leads_of_absent (hdeclared : h.declared t s = .ok none)
    (hleads : Leads h (⟨start, s, noted, .ascend t⟩, memo) last) :
    Leads h (⟨start, s, noted, .scan t⟩, memo) last := by
  refine .head ?_ hleads
  simp only [step, hdeclared]

theorem leads_of_root (hroot : h.superclass? t = none) :
    Leads h (⟨start, s, noted, .ascend t⟩, memo)
      (⟨start, s, noted, .done (.ok none)⟩, memo.insertAll s noted none) := by
  refine .head ?_ leads_remember
  simp only [step, hroot]

theorem leads_of_parent (hparent : h.superclass? t = some u)
    (hleads : Leads h (⟨start, s, noted, .ask u⟩, memo) last) :
    Leads h (⟨start, s, noted, .ascend t⟩, memo) last := by
  refine .head ?_ hleads
  simp only [step, hparent]

/-- A remembered answer ends the climb, and is remembered for the noted types. -/
theorem leads_of_hit (hon : h.options.memoize = true) (hfound : memo.find? s t = some answer) :
    Leads h (⟨start, s, noted, .ask t⟩, memo)
      (⟨start, s, noted, .done (.ok answer)⟩, (memo.count true).insertAll s noted answer) := by
  refine .head ?_ leads_remember
  simp [step, hon, Memo.consult, hfound]

/-- A type without a remembered answer is noted and scanned. -/
theorem leads_of_miss (hon : h.options.memoize = true) (hunknown : memo.find? s t = none)
    (hleads : Leads h (⟨start, s, noted ++ [t], .scan t⟩, memo.count false) last) :
    Leads h (⟨start, s, noted, .ask t⟩, memo) last := by
  refine .head ?_ hleads
  simp [step, hon, Memo.consult, hunknown]

theorem leads_of_skip (hoff : h.options.memoize = false)
    (hleads : Leads h (⟨start, s, noted, .scan t⟩, memo) last) :
    Leads h (⟨start, s, noted, .ask t⟩, memo) last := by
  refine .head ?_ hleads
  simp [step, hoff]

end Leads

/-- A resolution that has noted some types and comes to this one goes on like the climb, and all in
all it leaves what a climb over the noted types, too, would have left. -/
def Follows (h : Hierarchy) (start : TypeName) (s : Signature) (memo : Memo) (t : TypeName)
    (c : Climb) : Prop :=
  ∀ noted, Leads h
    (⟨start, s, noted, .ask t⟩, { memo with misses := memo.misses + noted.length })
    (⟨start, s, noted ++ c.scanned, .done c.outcome⟩,
      memo.record s { c with scanned := noted ++ c.scanned })

theorem count_misses (noted : List TypeName) (t : TypeName) :
    Memo.count { memo with misses := memo.misses + noted.length } false
      = { memo with misses := memo.misses + (noted ++ [t]).length } := by
  simp [Memo.count, Nat.add_assoc]

/-- With a memo, the steps of a resolution follow the climb that uses it. -/
theorem follows_climb (hr : h.Represents p) (hends : Ends h.superclass? t)
    (hon : h.options.memoize = true) (start : TypeName) (s : Signature) (memo : Memo) :
    Follows h start s memo t (h.climb s (memo.find? s) t) := by
  apply Hierarchy.climb_induction (motive := Follows h start s memo) hr hends
  case recalled =>
    intro t answer hfound noted
    have hhit : Memo.find? { memo with misses := memo.misses + noted.length } s t = some answer :=
      hfound
    simpa [Memo.record, Memo.count] using leads_of_hit hon hhit
  case fault =>
    intro t fault hunknown hdeclared noted
    refine leads_of_miss hon hunknown ?_
    rw [count_misses noted t]
    exact leads_of_fault hdeclared
  case found =>
    intro t m hunknown hdeclared noted
    refine leads_of_miss hon hunknown ?_
    rw [count_misses noted t]
    exact leads_of_found hdeclared
  case root =>
    intro t hunknown hdeclared hroot noted
    refine leads_of_miss hon hunknown ?_
    rw [count_misses noted t]
    exact leads_of_absent hdeclared (leads_of_root hroot)
  case parent =>
    intro t u hunknown hdeclared hparent _ ih noted
    refine leads_of_miss hon hunknown ?_
    rw [count_misses noted t]
    refine leads_of_absent hdeclared (leads_of_parent hparent ?_)
    -- one type more is noted, and one less is left to the climb
    simpa [Climb.after] using ih (noted ++ [t])

/-- Without a memo, the steps of a resolution are those of a lookup. -/
theorem leads_lookup (hr : h.Represents p) (hends : Ends h.superclass? t)
    (hoff : h.options.memoize = false) (start : TypeName) (s : Signature) (memo : Memo) :
    Leads h (⟨start, s, [], .ask t⟩, memo) (⟨start, s, [], .done (h.lookup t s)⟩, memo) := by
  apply Hierarchy.climb_induction (motive := fun t c =>
    Leads h (⟨start, s, [], .ask t⟩, memo) (⟨start, s, [], .done c.outcome⟩, memo)) hr hends
  case recalled =>
    intro t answer hknown
    cases hknown
  case fault =>
    intro t fault _ hdeclared
    exact leads_of_skip hoff (leads_of_fault hdeclared)
  case found =>
    intro t m _ hdeclared
    exact leads_of_skip hoff (leads_of_found hdeclared)
  case root =>
    intro t _ hdeclared hroot
    exact leads_of_skip hoff (leads_of_absent hdeclared (leads_of_root hroot))
  case parent =>
    intro t u _ hdeclared hparent _ ih
    exact leads_of_skip hoff (leads_of_absent hdeclared (leads_of_parent hparent ih))

/-- Taken without interruption, the steps of a resolution have the outcome of `Hierarchy.resolve`, and
leave the memo as it does. -/
theorem leads_resolve (hr : h.Represents p) (hends : Ends h.superclass? t) (s : Signature)
    (memo : Memo) :
    ∃ noted, Leads h (begin t s, memo)
      (⟨t, s, noted, .done ((h.resolve t s).outcome memo).1⟩, ((h.resolve t s).outcome memo).2) := by
  cases hmemoize : h.options.memoize with
  | true =>
    rw [Hierarchy.outcome_resolve hmemoize]
    exact ⟨_, follows_climb hr hends hmemoize t s memo []⟩
  | false =>
    rw [Hierarchy.outcome_resolve_unmemoized hmemoize]
    exact ⟨[], leads_lookup hr hends hmemoize t s memo⟩

end Resolving

/-! ## Pools -/

namespace Pool

variable {pool : Pool}

/-- The memo has one property and every resolution another. -/
def All (good : Memo → Prop) (fine : Resolving → Prop) (pool : Pool) : Prop :=
  good pool.memo ∧ ∀ r ∈ pool.resolutions, fine r

section All

variable {good : Memo → Prop} {fine : Resolving → Prop} (hbegin : ∀ t s, fine (.begin t s))
  (hstep : ∀ r memo, good memo → fine r → fine (r.step h memo).1 ∧ good (r.step h memo).2)
include hbegin hstep

/-- What new resolutions have and every step keeps is kept by a turn, if the empty memo has it in case
the memo is emptied. -/
theorem turn_all (turn : Turn) (hforget : turn = .forget → good ∅) (hpool : pool.All good fine) :
    (pool.turn h turn).All good fine := by
  rcases hpool with ⟨hmemo, hresolutions⟩
  cases turn with
  | begin t s =>
    refine ⟨hmemo, fun r hr => ?_⟩
    rcases List.mem_append.mp hr with hr | hr
    · exact hresolutions r hr
    · rw [List.mem_singleton.mp hr]
      exact hbegin t s
  | advance i =>
    cases hi : pool.resolutions[i]? with
    | none => exact (turn_advance_of_none hi).symm ▸ ⟨hmemo, hresolutions⟩
    | some r =>
      rcases hstep r pool.memo hmemo (hresolutions r (List.mem_of_getElem? hi)) with ⟨hnext, hgood⟩
      rw [turn_advance_of_some hi]
      refine ⟨hgood, fun r' hr' => ?_⟩
      rcases List.mem_or_eq_of_mem_set hr' with hr' | rfl
      · exact hresolutions r' hr'
      · exact hnext
  | forget => exact ⟨hforget rfl, hresolutions⟩

/-- So it is kept by any turns. -/
theorem run_all (turns : List Turn) (hforget : .forget ∈ turns → good ∅)
    (hpool : pool.All good fine) : (pool.run h turns).All good fine := by
  refine List.foldlRecOn turns _ hpool fun now hnow turn hturn => ?_
  refine turn_all hbegin hstep turn ?_ hnow
  rintro rfl
  exact hforget hturn

end All

/-- A pool without resolutions has only its memo. -/
theorem all_of_memo {good : Memo → Prop} {fine : Resolving → Prop} (hgood : good memo) :
    ({ memo } : Pool).All good fine :=
  ⟨hgood, fun _ hr => absurd hr List.not_mem_nil⟩

/-- Steps that follow each other directly are turns of one resolution. -/
theorem run_leads {i : Nat} {last : Resolving × Memo} (hi : pool.resolutions[i]? = some r)
    (hleads : Resolving.Leads h (r, pool.memo) last) :
    ∃ n, pool.run h (.replicate n (.advance i)) = ⟨last.2, pool.resolutions.set i last.1⟩ := by
  obtain ⟨hlt, rfl⟩ := List.getElem?_eq_some_iff.mp hi
  induction hleads with
  | refl => exact ⟨0, by rw [List.set_getElem_self]; rfl⟩
  | @tail mid last _ hstep ih =>
    obtain ⟨n, hrun⟩ := ih
    refine ⟨n + 1, ?_⟩
    have hmid : (⟨mid.2, pool.resolutions.set i mid.1⟩ : Pool).resolutions[i]? = some mid.1 :=
      List.getElem?_set_self hlt
    rw [List.replicate_succ', run_append, hrun, run_cons, run_nil, turn_advance_of_some hmid, ← hstep,
      List.set_set]

/-- A resolution that is made in one piece is turns in a pool, too. -/
theorem exists_run_resolve {t : TypeName} (hr : h.Represents p) (hends : Ends h.superclass? t)
    (s : Signature) (pool : Pool) :
    ∃ turns noted, .forget ∉ turns ∧ pool.run h turns
      = ⟨((h.resolve t s).outcome pool.memo).2, pool.resolutions
          ++ [⟨t, s, noted, .done ((h.resolve t s).outcome pool.memo).1⟩]⟩ := by
  obtain ⟨noted, hleads⟩ := Resolving.leads_resolve hr hends s pool.memo
  have hi : (pool.turn h (.begin t s)).resolutions[pool.resolutions.length]? = some (.begin t s) := by
    simp [turn]
  obtain ⟨n, hrun⟩ := run_leads hi hleads
  refine ⟨.begin t s :: .replicate n (.advance pool.resolutions.length), noted, by simp, ?_⟩
  rw [run_cons, hrun]
  simp [turn]

/-- A step puts one resolution in place of another, and the others stay. -/
theorem turn_advance_perm {i : Nat} (hi : pool.resolutions[i]? = some r) :
    pool.resolutions.Perm (r :: pool.resolutions.eraseIdx i)
      ∧ (pool.turn h (.advance i)).resolutions.Perm
          ((r.step h pool.memo).1 :: pool.resolutions.eraseIdx i) := by
  obtain ⟨hlt, rfl⟩ := List.getElem?_eq_some_iff.mp hi
  rw [turn_advance_of_some hi]
  exact ⟨(List.getElem_cons_eraseIdx_perm hlt).symm, List.set_perm_cons_eraseIdx hlt _⟩

section Keeps

variable (inv : Memo → List Resolving → Prop)
  (hperm : ∀ memo rs rs', rs.Perm rs' → inv memo rs → inv memo rs')
  (hbegin : ∀ memo rs t s, inv memo rs → inv memo (.begin t s :: rs))
  (hstep : ∀ memo r rs, inv memo (r :: rs) → inv (r.step h memo).2 ((r.step h memo).1 :: rs))
include hperm hbegin hstep

/-- What a new resolution does not change, and a step of any resolution keeps whatever others there are,
is kept by a turn that does not empty the memo. -/
theorem turn_keeps {turn : Turn} (hturn : turn ≠ .forget) (hinv : inv pool.memo pool.resolutions) :
    inv (pool.turn h turn).memo (pool.turn h turn).resolutions := by
  cases turn with
  | begin t s =>
    exact hperm _ _ _ (List.perm_append_singleton _ _).symm (hbegin _ _ t s hinv)
  | advance i =>
    cases hi : pool.resolutions[i]? with
    | none => rwa [turn_advance_of_none hi]
    | some r =>
      obtain ⟨hbefore, hafter⟩ := turn_advance_perm (h := h) hi
      have hmemo : (pool.turn h (.advance i)).memo = (r.step h pool.memo).2 := by
        rw [turn_advance_of_some hi]
      rw [hmemo]
      exact hperm _ _ _ hafter.symm (hstep _ _ _ (hperm _ _ _ hbefore hinv))
  | forget => exact absurd rfl hturn

/-- So it is kept by any turns that do not empty the memo. -/
theorem run_keeps {turns : List Turn} (hturns : .forget ∉ turns)
    (hinv : inv pool.memo pool.resolutions) :
    inv (pool.run h turns).memo (pool.run h turns).resolutions := by
  induction turns generalizing pool with
  | nil => exact hinv
  | cons turn turns ih =>
    rw [List.mem_cons, not_or] at hturns
    exact ih hturns.2 (turn_keeps inv hperm hbegin hstep (Ne.symm hturns.1) hinv)

/-- So it is kept by a resolution that is made in one piece, and is there at its end. -/
theorem resolve_keeps {t : TypeName} {rs : List Resolving} (hr : h.Represents p)
    (hends : Ends h.superclass? t) (s : Signature) (hinv : inv memo rs) :
    ∃ noted, inv ((h.resolve t s).outcome memo).2
      (⟨t, s, noted, .done ((h.resolve t s).outcome memo).1⟩ :: rs) := by
  obtain ⟨turns, noted, hturns, hrun⟩ := exists_run_resolve hr hends s ⟨memo, rs⟩
  refine ⟨noted, hperm _ _ _ (List.perm_append_singleton _ _) ?_⟩
  have hpool : inv (⟨memo, rs⟩ : Pool).memo (⟨memo, rs⟩ : Pool).resolutions := hinv
  have hkept := run_keeps inv hperm hbegin hstep hturns hpool
  rwa [hrun] at hkept

end Keeps

/-- A turn adds the question that it begins, and changes no other. -/
theorem turn_questions (turn : Turn) :
    (pool.turn h turn).resolutions.map Resolving.question
      = pool.resolutions.map Resolving.question ++ turn.begun?.toList := by
  cases turn with
  | begin t s => simp [Pool.turn, Turn.begun?, Resolving.question, Resolving.begin]
  | advance i =>
    cases hi : pool.resolutions[i]? with
    | none => simp [turn_advance_of_none hi, Turn.begun?]
    | some r =>
      rcases List.getElem?_eq_some_iff.mp hi with ⟨hlt, rfl⟩
      -- a step leaves the question in its place as it was
      rw [turn_advance_of_some hi, List.map_set, Resolving.question_step, ← List.map_set,
        List.set_getElem_self]
      simp [Turn.begun?]
  | forget => simp [Pool.turn, Turn.begun?]

/-- The resolutions of a pool are those that were begun, in order. -/
theorem run_questions (turns : List Turn) :
    (pool.run h turns).resolutions.map Resolving.question
      = pool.resolutions.map Resolving.question ++ turns.filterMap Turn.begun? := by
  induction turns generalizing pool with
  | nil => simp
  | cons turn turns ih =>
    rw [run_cons, ih, turn_questions, List.append_assoc]
    cases hbegun : turn.begun? <;> simp [hbegun]

/-- A turn takes a resolution one step on if it is its own, and no other turn touches it. -/
theorem turn_endsWithin {i n : Nat} (hi : pool.resolutions[i]? = some r)
    (hends : r.EndsWithin h n) (turn : Turn) :
    ∃ r', (pool.turn h turn).resolutions[i]? = some r'
      ∧ r'.EndsWithin h (n - [turn].count (.advance i)) := by
  have hlt : i < pool.resolutions.length := (List.getElem?_eq_some_iff.mp hi).1
  cases turn with
  | begin t s =>
    -- a new resolution goes behind those that are there
    refine ⟨r, ?_, by simpa using hends⟩
    simp [Pool.turn, List.getElem?_append_left hlt, hi]
  | forget => exact ⟨r, hi, by simpa using hends⟩
  | advance j =>
    by_cases hij : j = i
    · subst hij
      rw [turn_advance_of_some hi]
      exact ⟨_, List.getElem?_set_self hlt, by simpa using Resolving.step_endsWithin hends⟩
    · have hcount : [Turn.advance j].count (.advance i) = 0 := by simp [hij]
      rw [hcount]
      cases hj : pool.resolutions[j]? with
      | none => exact ⟨r, by rw [turn_advance_of_none hj, hi], hends⟩
      | some other =>
        rw [turn_advance_of_some hj]
        exact ⟨r, by rw [List.getElem?_set_ne hij, hi], hends⟩

/-- However the others are scheduled, a resolution comes closer to its end with its own steps. -/
theorem run_endsWithin {i n : Nat} (hi : pool.resolutions[i]? = some r)
    (hends : r.EndsWithin h n) (turns : List Turn) :
    ∃ r', (pool.run h turns).resolutions[i]? = some r'
      ∧ r'.EndsWithin h (n - turns.count (.advance i)) := by
  induction turns generalizing pool r n with
  | nil => exact ⟨r, hi, hends⟩
  | cons turn turns ih =>
    rcases turn_endsWithin hi hends turn with ⟨r', hi', hends'⟩
    rcases ih hi' hends' with ⟨last, hlast, hlastEnds⟩
    refine ⟨last, hlast, ?_⟩
    rwa [List.count_cons, Nat.add_comm, ← Nat.sub_sub, ← List.count_singleton]

/-- Every resolution of the pool ends within the steps that suffice for any. -/
abbrev Bounded (h : Hierarchy) (pool : Pool) : Prop :=
  pool.All (fun _ => True) (Resolving.EndsWithin h (Resolving.stepBound h))

/-- No step takes a resolution further from its end. -/
theorem step_bounded {n : Nat} (r : Resolving) (memo : Memo) (_ : True) (hends : r.EndsWithin h n) :
    (r.step h memo).1.EndsWithin h n ∧ True :=
  ⟨(Resolving.step_endsWithin hends).mono (Nat.sub_le _ _), trivial⟩

section Acyclic

variable (hr : h.Represents p) (hacyclic : p.Acyclic)
include hr hacyclic

/-- The memo of a pool stays honest, and its resolutions keep what they stand for. -/
theorem run_sound (hpool : pool.All h.Honest (Resolving.Sound h)) (turns : List Turn) :
    (pool.run h turns).All h.Honest (Resolving.Sound h) :=
  run_all Resolving.sound_begin (fun _ _ => Resolving.step_sound hr hacyclic) turns
    (fun _ => Hierarchy.honest_empty) hpool

/-- No resolution of a pool is ever further from its end than a new one. -/
theorem run_bounded (hpool : pool.Bounded h) (turns : List Turn) : (pool.run h turns).Bounded h :=
  run_all (Resolving.endsWithin_begin hr hacyclic) step_bounded turns (fun _ => trivial) hpool

/-- A resolution that gets enough turns ends. -/
theorem run_ends (turns more : List Turn) {i : Nat}
    (hi : i < (({} : Pool).run h turns).resolutions.length)
    (hmore : Resolving.stepBound h ≤ more.count (.advance i)) :
    ∃ r outcome, (({} : Pool).run h (turns ++ more)).resolutions[i]? = some r
      ∧ r.stage = .done outcome := by
  have hbounded := (run_bounded hr hacyclic (all_of_memo trivial) turns).2 _ (List.getElem_mem hi)
  rcases run_endsWithin (List.getElem?_eq_getElem hi) hbounded more with ⟨r, hlast, hends⟩
  rw [Nat.sub_eq_zero_of_le hmore] at hends
  rcases hends.done with ⟨outcome, houtcome⟩
  rw [run_append]
  exact ⟨r, outcome, hlast, houtcome⟩

end Acyclic

end Pool

/-- Whatever turns are taken, resolutions on one hierarchy remember and answer what resolutions on
another, without a memo, find. -/
structure TurnsAgree (h plain : Hierarchy) : Prop where
  /-- Left to itself, a resolution does what it does in one piece. -/
  alone : ∀ t s memo, ∃ noted, Resolving.Leads h (.begin t s, memo)
    (⟨t, s, noted, .done ((h.resolve t s).outcome memo).1⟩, ((h.resolve t s).outcome memo).2)
  /-- The resolutions are those that were begun. -/
  questions : ∀ turns, (({} : Pool).run h turns).resolutions.map Resolving.question
    = turns.filterMap Turn.begun?
  /-- A remembered answer is the one found without a memo. -/
  entries : ∀ turns s t answer, (({} : Pool).run h turns).memo.find? s t = some answer →
    ((plain.resolve t s).outcome ∅).1 = .ok answer
  /-- A resolution that has ended has the answer found without a memo. -/
  outcomes : ∀ turns, ∀ r ∈ (({} : Pool).run h turns).resolutions, ∀ outcome,
    r.stage = .done outcome →
      ∃ answer, outcome = .ok answer
        ∧ ((plain.resolve r.start r.signature).outcome ∅).1 = .ok answer
  /-- A resolution ends, however often others step in. -/
  progress : ∀ turns more i, i < (({} : Pool).run h turns).resolutions.length →
    Resolving.stepBound h ≤ more.count (.advance i) →
      ∃ r outcome, (({} : Pool).run h (turns ++ more)).resolutions[i]? = some r
        ∧ r.stage = .done outcome

/-- Resolutions that share a memo agree with resolutions without one, in every order of their steps
and whenever the memo is emptied. -/
theorem interleaved_resolutions_agree (p : Program) (options : Options) (hacyclic : p.Acyclic)
    (hreceivers : p.HasReceivers) :
    TurnsAgree (.build p options) (.build p { options with memoize := false }) := by
  have hr := Hierarchy.represents_build p options
  have hr' := Hierarchy.represents_build p { options with memoize := false }
  have hsound := Pool.run_sound hr hacyclic (Pool.all_of_memo Hierarchy.honest_empty)
  have hplain : ∀ t s,
      (((Hierarchy.build p { options with memoize := false }).resolve t s).outcome ∅).1
        = (Hierarchy.build p options).lookup t s := by
    intro t s
    rw [Hierarchy.outcome_resolve_empty hr' hacyclic, Hierarchy.lookup_congr hr hr']
  constructor
  case alone =>
    intro t s memo
    exact Resolving.leads_resolve hr (hr.ends hacyclic t) s memo
  case questions =>
    intro turns
    exact Pool.run_questions turns
  case entries =>
    intro turns s t answer hfound
    rw [hplain]
    exact (hsound turns).1 s t answer hfound
  case outcomes =>
    intro turns r hmem outcome hstage
    have hlookup := (hsound turns).2 r hmem
    simp only [Resolving.Sound, hstage] at hlookup
    -- all methods have a receiver, so no fault can be the outcome
    rcases Hierarchy.exists_lookup hr hacyclic hreceivers r.signature with ⟨runs, hruns⟩
    refine ⟨runs r.start, ?_, ?_⟩
    · rw [← hlookup, hruns]
    · rw [hplain, hruns]
  case progress =>
    intro turns more i hi hmore
    exact Pool.run_ends hr hacyclic turns more hi hmore

section Example

open Shapes

/-- Two resolutions ask for the same area. Each misses the answer for a disk; the memo is emptied after
the first has remembered it; and the second finds the answer for a shape, which the first has
remembered after that. -/
def crossing : List Turn :=
  [.begin disk area, .begin disk area,
    -- both ask about the disk, scan it and go on to the shape
    .advance 0, .advance 0, .advance 0, .advance 1, .advance 1, .advance 1,
    .advance 0, .advance 0, .advance 0, .forget, .advance 0, .advance 0,
    .advance 1, .advance 1, .advance 1]

/-- Both resolutions find the area of a shape, as one without a memo does. -/
theorem interleaved_resolutions_agree_crossing :
    let pool := ({} : Pool).run (.build program) crossing
    let found := some (Method.declaredBy shape area)
    program.Acyclic ∧ program.HasReceivers
    ∧ pool.resolutions.map Resolving.stage = [.done (.ok found), .done (.ok found)]
    ∧ pool.memo.hits = 1 ∧ pool.memo.find? area disk = some found
    ∧ (((Hierarchy.build program { memoize := false }).resolve disk area).outcome ∅).1
        = .ok found := by
  intro pool found
  have hacyclic : program.Acyclic := acyclic_programWith _
  have hreceivers : program.HasReceivers := by decide
  have hstages : pool.resolutions.map Resolving.stage = [.done (.ok found), .done (.ok found)] := by
    rfl
  have hfound : pool.memo.find? area disk = some found := by decide +kernel
  have hagree := interleaved_resolutions_agree program {} hacyclic hreceivers
  exact ⟨hacyclic, hreceivers, hstages, by decide +kernel, hfound,
    hagree.entries crossing _ _ _ hfound⟩

end Example

end ClassHierarchy

import ClassHierarchy.Proofs.Ledger
import ClassHierarchy.Proofs.NearestAncestor
import ClassHierarchy.Proofs.Remembrance
import Mathlib.Data.List.DropRight

/-!
# Memo accounts

A session keeps one memo for all its requests. Every request is carried out by a crew: most of them by
one worker, which makes its lookups one after the other, and a batch by as many as share it. So what the
memo of a session has counted since it was last emptied is accounted for by the resolutions of all crews
since then.

* `finish_asker`: a worker alone does to the memo what the lookups do when they are made one after the
  other.
* `Request.exists_crew`: a request is carried out by a crew that makes its lookups.
* `ledger_accounts`: the resolutions since the memo was last emptied account for what it holds.
* `ledger_distinct`: where lookups do not overlap no question is missed twice, so there are as many
  entries as misses.

Every listed method has a receiver here: a climb that meets a fault has its misses counted, and nothing
is remembered of it.
-/

namespace ClassHierarchy

namespace Hierarchy

variable {h : Hierarchy} {p : Program} {memo : Memo} {s : Signature} {t : TypeName}
  {known : TypeName → Option (Option Method)}

/-! ## Climbs -/

/-- Up from the type, over types that are not known and declare no method, one comes to a known type. -/
def ComesToKnown (h : Hierarchy) (s : Signature) (known : TypeName → Option (Option Method))
    (t : TypeName) : Prop :=
  ∃ passed u, Walk h.superclass? t passed u
    ∧ (∀ b ∈ passed, known b = none ∧ h.declared b s = .ok none) ∧ (known u).isSome

/-- Who starts at a known type has come to one. -/
theorem comesToKnown_of_known {answer : Option Method} (hknown : known t = some answer) :
    h.ComesToKnown s known t :=
  ⟨[], t, .start, by simp, by simp [hknown]⟩

/-- From a type that is not known, the way goes on over its parent. -/
theorem comesToKnown_iff_of_unknown (hunknown : known t = none) : h.ComesToKnown s known t
    ↔ h.declared t s = .ok none ∧ ∃ u, h.superclass? t = some u ∧ h.ComesToKnown s known u := by
  constructor
  · rintro ⟨passed, v, hwalk, hpassed, hv⟩
    cases hwalk with
    | start =>
      rw [hunknown] at hv
      cases hv
    | step hparent hrest =>
      rcases List.forall_mem_cons.mp hpassed with ⟨ht, hpassed⟩
      exact ⟨ht.2, _, hparent, _, v, hrest, hpassed, hv⟩
  · rintro ⟨hdeclared, u, hparent, passed, v, hwalk, hpassed, hv⟩
    exact ⟨t :: passed, v, .step hparent hwalk,
      List.forall_mem_cons.mpr ⟨⟨hunknown, hdeclared⟩, hpassed⟩, hv⟩

/-- A climb ends at a known type just if it comes to one. -/
theorem climb_recalled_iff (hr : h.Represents p) (hends : Ends h.superclass? t) :
    (h.climb s known t).recalled = true ↔ h.ComesToKnown s known t := by
  apply climb_induction
    (motive := fun t c => c.recalled = true ↔ h.ComesToKnown s known t) hr hends
  case recalled =>
    intro t answer hknown
    exact iff_of_true rfl (comesToKnown_of_known hknown)
  case fault =>
    intro t fault hunknown hdeclared
    simp [comesToKnown_iff_of_unknown hunknown, hdeclared]
  case found =>
    intro t m hunknown hdeclared
    simp [comesToKnown_iff_of_unknown hunknown, hdeclared]
  case root =>
    intro t hunknown _ hroot
    simp [comesToKnown_iff_of_unknown hunknown, hroot]
  case parent =>
    intro t u hunknown hdeclared hparent _ ih
    rw [comesToKnown_iff_of_unknown hunknown]
    simp only [hdeclared, hparent, Option.some.injEq, exists_eq_left', true_and]
    exact ih

/-- On its way up the lookup comes to a type that is remembered, and to none before it that lists a
method with the signature. -/
def EndsRemembered (h : Hierarchy) (memo : Memo) (l : Lookup) : Prop :=
  ∃ passed u, Walk h.superclass? l.start passed u
    ∧ (∀ b ∈ passed, ¬ memo.Remembers l.signature b ∧ ¬ h.ListsMethod b l.signature)
    ∧ memo.Remembers l.signature u

/-- With receivers a lookup ends at a remembered type just if it comes to a known one: a type declares
nothing if it lists no method with the signature. -/
theorem endsRemembered_iff (hr : h.Represents p) (hreceivers : p.HasReceivers) (memo : Memo)
    (l : Lookup) :
    h.EndsRemembered memo l ↔ h.ComesToKnown l.signature (memo.find? l.signature) l.start := by
  simp only [EndsRemembered, ComesToKnown, declared_eq hr hreceivers, Except.ok.injEq,
    declared?_eq_none_iff hr, Memo.Remembers, Option.not_isSome_iff_eq_none]

open Classical in
/-- A lookup that is made in one piece adds one hit or none. -/
theorem hits_resolve (hr : h.Represents p) (hacyclic : p.Acyclic) (hreceivers : p.HasReceivers)
    (hon : h.options.memoize = true) (l : Lookup) (memo : Memo) :
    ((h.resolve l.start l.signature).outcome memo).2.hits
      = memo.hits + if h.EndsRemembered memo l then 1 else 0 := by
  have hiff : (h.climb l.signature (memo.find? l.signature) l.start).recalled = true
      ↔ h.EndsRemembered memo l := by
    rw [climb_recalled_iff hr (hr.ends hacyclic l.start), endsRemembered_iff hr hreceivers]
  rw [outcome_resolve hon, Memo.hits_record]
  by_cases hends : h.EndsRemembered memo l
  · rw [hiff.mpr hends, if_pos hends]
    rfl
  · rw [Bool.eq_false_iff.mpr (mt hiff.mp hends), if_neg hends]
    rfl

end Hierarchy

/-! ## Requests as crews -/

/-- Lookups one after the other, only for what they do to the memo. -/
def Plan.ofLookups : List Lookup → Plan Unit
  | [] => pure ()
  | l :: ls => .ask l fun _ => ofLookups ls

theorem Plan.makes_ofLookups (ls : List Lookup) : (ofLookups ls).Makes ls := by
  induction ls with
  | nil => exact makes_pure ()
  | cons l ls ih => exact ⟨ls, rfl, fun _ => ih⟩

namespace Hierarchy

variable {h : Hierarchy} {p : Program}

/-- A worker alone that makes lookups. -/
def asker (memo : Memo) (ls : List Lookup) : Crew Unit :=
  ⟨{ memo }, [{ plan := .ofLookups ls }]⟩

section Acyclic

variable (hr : h.Represents p) (hacyclic : p.Acyclic)
include hr hacyclic

omit hr hacyclic in
theorem asker_coherent (memo : Memo) (ls : List Lookup) : (asker memo ls).Coherent :=
  Crew.coherent_of_new memo [.ofLookups ls]

omit hr hacyclic in
theorem asker_makes (memo : Memo) (ls : List Lookup) : (asker memo ls).Makes ls := by
  have hplan := Plan.makes_ofLookups ls
  constructor
  case plans => simpa [asker, hplan.lookups_eq] using hplan
  case perm => exact .of_eq (by simp [asker, Worker.todo, hplan.lookups_eq])

omit hr hacyclic in
/-- A worker alone has no two lookups under way. -/
theorem asker_apart (memo : Memo) (ls : List Lookup) : (asker memo ls).Apart h [] :=
  .inl (by simp [asker])

/-- Nobody disturbs the lookups, so each of them ends as one that is made in one piece. -/
theorem finish_ofLookups (ls : List Lookup) (pool : Pool) :
    ((Plan.ofLookups ls).finish h none pool).2.memo = ((h.askAll ls).outcome pool.memo).2 := by
  induction ls generalizing pool with
  | nil => rfl
  | cons l ls ih =>
    rcases Pool.settle_begin hr hacyclic (t := l.start) l.signature pool with ⟨noted, hsettled⟩
    have houtcome : ((pool.turn h (.begin l.start l.signature)).settle h pool.resolutions.length
          (Resolving.stepBound h)).outcome? pool.resolutions.length
        = some ((h.resolve l.start l.signature).outcome pool.memo).1 := by
      rw [hsettled]
      simp [Pool.outcome?, Resolving.outcome?]
    rw [Plan.ofLookups, Plan.finish_ask_none, askAll_cons, Query.outcome_bind, outcome_ask]
    simp only [Plan.finish, Option.getD_some, Option.isSome_some, if_true, houtcome]
    cases ((h.resolve l.start l.signature).outcome pool.memo).1 with
    | error fault => exact congrArg Pool.memo hsettled
    | ok answer =>
      refine (ih _).trans ?_
      rw [hsettled]
      rfl

/-- A worker alone leaves the memo as the lookups do, made one after the other. -/
theorem finish_asker (ls : List Lookup) (memo : Memo) :
    ((asker memo ls).finish h).2.memo = ((h.askAll ls).outcome memo).2 :=
  finish_ofLookups hr hacyclic ls { memo }

/-- Lookups that are made one after the other are accounted for, and miss nothing that was missed
before. -/
theorem askAll_accounts (hreceivers : p.HasReceivers) (hon : h.options.memoize = true) {memo : Memo}
    {old : List Resolving} (haccounts : h.Accounts memo old) (hold : ∀ r ∈ old, r.outcome?.isSome)
    (ls : List Lookup) :
    ∃ rs, h.Accounts ((h.askAll ls).outcome memo).2 (old ++ rs) ∧ (∀ r ∈ rs, r.outcome?.isSome)
      ∧ ((old.flatMap Resolving.missed).Nodup → ((old ++ rs).flatMap Resolving.missed).Nodup) := by
  have hcrew := asker_coherent memo ls
  obtain ⟨hafter, hended⟩ :=
    Crew.finish_accounts hr hacyclic hreceivers hon rfl hcrew haccounts []
  rw [← finish_asker hr hacyclic ls memo]
  refine ⟨_, hafter, hended, fun hdistinct => ?_⟩
  exact Crew.finish_distinct hr hacyclic hreceivers hon rfl hcrew haccounts [] hold hdistinct
    (asker_apart memo ls)

/-- The dispatch of a call site makes its lookups, whatever they find. -/
theorem callPlan_makes (site : CallSite) :
    (h.callPlan site).Makes (gathered (h.lookupsFor site)) := by
  obtain ⟨ls, hls⟩ : ∃ ls, h.lookupsFor site = .ok ls := by
    unfold lookupsFor
    cases site.policy with
    | above declaring => exact ⟨_, rfl⟩
    | exact receiver => exact ⟨_, rfl⟩
    | below bound =>
      rcases allSubclasses_eq hr (hacyclic (h.enumerationStart site.kind bound)) with ⟨types, htypes, -⟩
      refine ⟨types.map fun u => ⟨site.signature, u⟩, ?_⟩
      simp only [lookupsBelow, htypes]
      rfl
  have hmakes := (Plan.makes_mapM Plan.makes_lookup ls).bind fun found =>
    Plan.makes_pure (CallTarget.ofTargets site.signature (.ofList (found.filterMap id)))
  rw [List.append_nil, List.flatMap_singleton'] at hmakes
  rw [callPlan, hls]
  exact hmakes

/-- However the sites are shared, the workers of a batch make the lookups of all of them. -/
theorem crew_makes (sites : List CallSite) (shares : List Nat) (memo : Memo) :
    (h.crew sites shares memo).Makes (sites.flatMap fun site => gathered (h.lookupsFor site)) := by
  have hpart (part : List CallSite) := Plan.makes_mapM (callPlan_makes hr hacyclic) part
  constructor
  case plans =>
    intro w hw
    rcases List.mem_map.mp hw with ⟨part, -, rfl⟩
    exact (hpart part).lookups_eq.symm ▸ hpart part
  case perm =>
    refine .of_eq ?_
    conv_rhs => rw [← flatten_cut shares sites, ← List.flatMap_id, List.flatMap_assoc]
    simp [crew, Pool.questions, Worker.todo, List.flatMap_map, (hpart _).lookups_eq]

end Acyclic

end Hierarchy

namespace Request

variable {h : Hierarchy} {p : Program} {memo : Memo} {request : Request}

/-- The request asks the memo by hand. -/
def isConsult : Request → Bool
  | .consult _ _ => true
  | _ => false

/-- The pool in which the lookups of a request are made. -/
def pool (h : Hierarchy) (memo : Memo) : Request → Pool
  | .callTargets sites sharing => (h.batch sites sharing memo).2
  | request => ((Hierarchy.asker memo (request.lookups h)).finish h).2

/-- The lookups of the request are made one after the other. -/
def Apart (h : Hierarchy) (memo : Memo) : Request → Prop
  | .callTargets sites sharing => (h.crew sites sharing.shares memo).Apart h sharing.turns
  | _ => True

theorem apart_of_not_isBatch (hbatch : ¬ request.isBatch) : request.Apart h memo := by
  cases request with
  | callTargets => exact absurd rfl hbatch
  | _ => trivial

section Acyclic

variable (hr : h.Represents p) (hacyclic : p.Acyclic)
include hr hacyclic

/-- The pool of a request has the memo that the request leaves. -/
theorem memo_pool (hconsult : ¬ request.isConsult) (hforget : request ≠ .forget) :
    (request.pool h memo).memo = request.memoAfter h memo := by
  by_cases hbatch : request.isBatch
  · cases request with
    | callTargets => rfl
    | _ => cases hbatch
  · have hpool : request.pool h memo = ((Hierarchy.asker memo (request.lookups h)).finish h).2 := by
      cases request with
      | callTargets => exact absurd rfl hbatch
      | _ => rfl
    rw [hpool, Hierarchy.finish_asker hr hacyclic, memoAfter_of_not_isBatch hbatch]
    split
    · rfl
    · rename_i hres
      rw [lookups_eq_nil h hres]
      cases request with
      | consult t s => exact absurd rfl hconsult
      | forget => exact absurd rfl hforget
      | _ => rfl

/-- A request is carried out by a crew that makes its lookups. -/
theorem exists_crew (memo : Memo) (request : Request) :
    ∃ (α : Type) (crew : Crew α) (turns : List Nat), crew.pool = { memo } ∧ crew.Coherent
      ∧ crew.Makes (request.lookups h) ∧ request.pool h memo = ((crew.run h turns).finish h).2
      ∧ (request.Apart h memo → crew.Apart h turns) := by
  by_cases hbatch : request.isBatch
  · cases request with
    | callTargets sites sharing =>
      exact ⟨_, h.crew sites sharing.shares memo, sharing.turns, rfl,
        Hierarchy.crew_coherent h sites sharing.shares memo,
        Hierarchy.crew_makes hr hacyclic sites sharing.shares memo, rfl, id⟩
    | _ => cases hbatch
  · refine ⟨_, Hierarchy.asker memo (request.lookups h), [], rfl,
      Hierarchy.asker_coherent memo _, Hierarchy.asker_makes memo _, ?_,
      fun _ => Hierarchy.asker_apart memo _⟩
    cases request with
    | callTargets => exact absurd rfl hbatch
    | _ => rfl

section Accounts

variable (hreceivers : p.HasReceivers) (hon : h.options.memoize = true) {old : List Resolving}
  (haccounts : h.Accounts memo old)
include hreceivers hon haccounts

/-- What a request does is accounted for, together with what was done before it. -/
theorem pool_accounts (request : Request) :
    h.Accounts (request.pool h memo).memo (old ++ (request.pool h memo).resolutions)
      ∧ (∀ r ∈ (request.pool h memo).resolutions, r.outcome?.isSome)
      ∧ (request.pool h memo).questions.Perm (request.lookups h) := by
  rcases exists_crew hr hacyclic memo request with ⟨α, crew, turns, hnew, hcrew, hmakes, hpool, -⟩
  obtain ⟨hafter, hended⟩ :=
    Crew.finish_accounts hr hacyclic hreceivers hon hnew hcrew haccounts turns
  rw [hpool]
  exact ⟨hafter, hended,
    Crew.finish_questions hr hacyclic hreceivers hon hnew hcrew haccounts turns hmakes⟩

/-- Where its lookups do not overlap a request misses nothing that was missed before. -/
theorem pool_distinct (hold : ∀ r ∈ old, r.outcome?.isSome)
    (hdistinct : (old.flatMap Resolving.missed).Nodup) (hapart : request.Apart h memo) :
    ((old ++ (request.pool h memo).resolutions).flatMap Resolving.missed).Nodup := by
  rcases exists_crew hr hacyclic memo request with ⟨α, crew, turns, hnew, hcrew, -, hpool, hcrewApart⟩
  rw [hpool]
  exact Crew.finish_distinct hr hacyclic hreceivers hon hnew hcrew haccounts turns hold hdistinct
    (hcrewApart hapart)

end Accounts

end Acyclic

end Request

/-! ## Sessions -/

namespace Session

open Hierarchy

variable {h : Hierarchy} {p : Program}

/-- The memo after a request, and all resolutions since it was last emptied. -/
def enter (h : Hierarchy) (ledger : Pool) (request : Request) : Pool :=
  if request = .forget then {} else
    let pool := request.pool h ledger.memo
    { memo := pool.memo, resolutions := ledger.resolutions ++ pool.resolutions }

/-- The memo after requests that begin with an empty one, and all resolutions since it was last
emptied. -/
def ledger (h : Hierarchy) (requests : List Request) : Pool :=
  requests.foldl (enter h) {}

/-- The lookups that requests have made since the memo was last emptied. -/
def recentLookups (h : Hierarchy) (requests : List Request) : List Lookup :=
  (requests.rtakeWhile (· ≠ .forget)).flatMap (Request.lookups h)

theorem ledger_concat (requests : List Request) (request : Request) :
    ledger h (requests ++ [request]) = enter h (ledger h requests) request :=
  List.foldl_append

/-- A request that does not empty the memo adds its resolutions to those before it. -/
theorem enter_of_ne_forget {request : Request} (hforget : request ≠ .forget) (ledger : Pool) :
    enter h ledger request = ⟨(request.pool h ledger.memo).memo,
      ledger.resolutions ++ (request.pool h ledger.memo).resolutions⟩ :=
  if_neg hforget

section Acyclic

variable (hr : h.Represents p) (hacyclic : p.Acyclic)
include hr hacyclic

/-- The ledger has the memo of the session. -/
theorem ledger_memo {session : Session} (hsession : session.hierarchy = h)
    (hempty : session.memo = ∅) {requests : List Request}
    (hrequests : ∀ request ∈ requests, request.isInquiry ∧ ¬ request.isConsult) :
    (ledger h requests).memo = (session.after requests).memo := by
  rw [(after_memo hr hacyclic hsession fun r hmem => (hrequests r hmem).1).2, hempty]
  induction requests using List.reverseRecOn with
  | nil => rfl
  | append_singleton requests request ih =>
    rcases List.forall_mem_append.mp hrequests with ⟨hbefore, hlast⟩
    rcases hlast request (List.mem_singleton_self request) with ⟨-, hconsult⟩
    rw [List.foldl_append, ← ih hbefore, ledger_concat]
    by_cases hforget : request = .forget
    · subst hforget
      rfl
    · rw [enter_of_ne_forget hforget]
      exact Request.memo_pool hr hacyclic hconsult hforget

variable (hreceivers : p.HasReceivers) (hon : h.options.memoize = true)
include hreceivers hon

/-- The resolutions since the memo was last emptied account for what it holds. They are those of the
requests, and have all ended. -/
theorem ledger_accounts (requests : List Request) :
    h.Accounts (ledger h requests).memo (ledger h requests).resolutions
      ∧ (∀ r ∈ (ledger h requests).resolutions, r.outcome?.isSome)
      ∧ (ledger h requests).questions.Perm (recentLookups h requests) := by
  induction requests using List.reverseRecOn with
  | nil => exact ⟨accounts_empty, by simp [ledger], .refl _⟩
  | append_singleton requests request ih =>
    rw [ledger_concat, recentLookups, List.rtakeWhile_concat]
    by_cases hforget : request = .forget
    · subst hforget
      exact ⟨accounts_empty, by simp [enter], .refl _⟩
    · rcases ih with ⟨hbefore, hended, hquestions⟩
      obtain ⟨hafter, hlast, hlookups⟩ :=
        Request.pool_accounts hr hacyclic hreceivers hon hbefore request
      rw [enter_of_ne_forget hforget, if_pos (by simpa using hforget), List.flatMap_append,
        List.flatMap_singleton, Pool.questions, List.map_append]
      exact ⟨hafter, List.forall_mem_append.mpr ⟨hended, hlast⟩, hquestions.append hlookups⟩

/-- Where the lookups of each request do not overlap no question is missed twice. -/
theorem ledger_distinct {requests : List Request} (hapart : ∀ before request,
      before ++ [request] <+: requests → request.Apart h (ledger h before).memo) :
    (ledger h requests).missed.Nodup := by
  induction requests using List.reverseRecOn with
  | nil => exact List.nodup_nil
  | append_singleton requests request ih =>
    have hbefore := ih fun before r hfront => hapart before r (hfront.trans (List.prefix_append _ _))
    rw [ledger_concat]
    by_cases hforget : request = .forget
    · subst hforget
      exact List.nodup_nil
    · rcases ledger_accounts hr hacyclic hreceivers hon requests with ⟨haccounts, hended, -⟩
      rw [enter_of_ne_forget hforget]
      exact Request.pool_distinct hr hacyclic hreceivers hon haccounts hended hbefore
        (hapart requests request List.prefix_rfl)

end Acyclic

/-- Without a memo nothing is remembered and nothing is counted. -/
theorem after_unmemoized (hr : h.Represents p) (hacyclic : p.Acyclic)
    (hoff : h.options.memoize = false) {session : Session} (hsession : session.hierarchy = h)
    (hempty : session.memo = ∅) {requests : List Request}
    (hrequests : ∀ request ∈ requests, request.isInquiry ∧ ¬ request.isConsult) :
    (session.after requests).memo = ∅ := by
  refine Eq.symm (after_keeps hr hacyclic hsession (fun r hmem => (hrequests r hmem).1) ?_ ?_ ?_
    (fun _ => rfl) hempty.symm)
  · intro memo t s hmemo
    rwa [outcome_resolve_unmemoized hoff]
  · intro memo sites sharing hmemo
    have hblank (r : Resolving) (now : Memo) (hnow : ∅ = now) (hr : r.Blank) :
        (r.step h now).1.Blank ∧ ∅ = (r.step h now).2 := by
      rcases Resolving.step_blank hoff hr with ⟨hnext, hsame⟩
      exact ⟨hnext, hnow.trans hsame.symm⟩
    exact (batch_all hr hacyclic (fun t s => ⟨rfl, nofun⟩) hblank hmemo sites sharing).1
  · intro t s hmem
    exact absurd rfl (hrequests _ hmem).2

/-- The lookups that requests have made since the memo was last emptied account for what it has counted.
The entries are the different questions that were missed, so there are no more entries than misses, and
as many where no two lookups overlap. The hits are the lookups that ended at a remembered type. Without
a memo nothing is counted. -/
theorem memo_accounts_for_lookups (p : Program) (options : Options) (hacyclic : p.Acyclic)
    (hreceivers : p.HasReceivers) (requests : List Request)
    (hrequests : ∀ request ∈ requests, request.isInquiry ∧ ¬ request.isConsult) :
    let h := build p options
    let memo := ((start p options).after requests).memo
    let made := ledger h requests
    (options.memoize = true →
      -- these are the lookups that were made, and all of them have ended
      made.memo = memo ∧ made.questions.Perm (recentLookups h requests)
      ∧ (∀ i, ¬ made.UnderWay i)
      -- a question that was missed has one entry, however often it was missed
      ∧ memo.misses = made.missed.length ∧ memo.size = made.missed.dedup.length
      ∧ memo.size ≤ memo.misses ∧ (memo.size = memo.misses ↔ made.missed.Nodup)
      -- and it is missed once if no request has lookups that overlap
      ∧ ((∀ before request, before ++ [request] <+: requests →
            request.Apart h ((start p options).after before).memo) → memo.size = memo.misses)
      -- the hits are the lookups that ended at a remembered type
      ∧ memo.hits = h.recalls made.resolutions
      ∧ (∀ r ∈ made.resolutions, r.AtRemembered h
          ↔ ∃ t, r.CameBy h r.noted t ∧ memo.Remembers r.signature t)
      -- a lookup in one piece adds one hit if it ends at a remembered type, and none otherwise
      ∧ (∀ l before, let after := ((h.resolve l.start l.signature).outcome before).2
          (h.EndsRemembered before l → after.hits = before.hits + 1)
          ∧ (¬ h.EndsRemembered before l → after.hits = before.hits))
      -- all this holds while lookups are made one after the other, and while a batch is under way
      ∧ (∀ ls, let within := ((h.askAll ls).outcome memo).2
          within.size ≤ within.misses ∧ (memo.size = memo.misses → within.size = within.misses))
      ∧ ∀ sites shares turns, let within := ((h.crew sites shares memo).run h turns).pool
          within.memo.size ≤ within.memo.misses
          ∧ within.memo.misses = (made.missed ++ within.missed).length
          ∧ within.memo.hits = h.recalls (made.resolutions ++ within.resolutions))
    ∧ (options.memoize = false → memo.size = 0 ∧ memo.hits = 0 ∧ memo.misses = 0) := by
  intro h memo made
  have hr : h.Represents p := represents_build p options
  constructor
  · intro hon
    have hon : h.options.memoize = true := by rwa [options_build]
    rcases ledger_accounts hr hacyclic hreceivers hon requests with ⟨haccounts, hended, hquestions⟩
    have hmemo (before : List Request) (hfront : before <+: requests) :
        (ledger h before).memo = ((start p options).after before).memo :=
      ledger_memo hr hacyclic rfl rfl fun request hmem => hrequests request (hfront.subset hmem)
    have hmade : made.memo = memo := hmemo requests List.prefix_rfl
    rw [hmade] at haccounts
    have hbalanced := haccounts.size_eq_misses_iff hended
    refine ⟨hmade, hquestions, Pool.not_underWay_iff_ended.mpr hended, haccounts.misses,
      haccounts.size_eq hended, haccounts.size_le, hbalanced, ?_, haccounts.hits,
      fun r hmem => haccounts.atRemembered_iff hmem (hended r hmem), ?_, ?_, ?_⟩
    · intro hapart
      refine hbalanced.mpr (ledger_distinct hr hacyclic hreceivers hon fun before request hfront => ?_)
      rw [hmemo before ((List.prefix_append _ _).trans hfront)]
      exact hapart before request hfront
    · intro l before
      have hhits := hits_resolve hr hacyclic hreceivers hon l before
      constructor
      · intro hends
        rwa [if_pos hends] at hhits
      · intro hends
        rwa [if_neg hends] at hhits
    · intro ls within
      obtain ⟨rs, hwithin, hlast, hdistinct⟩ :=
        askAll_accounts hr hacyclic hreceivers hon haccounts hended ls
      have hall := List.forall_mem_append.mpr ⟨hended, hlast⟩
      refine ⟨hwithin.size_le, fun hequal => (hwithin.size_eq_misses_iff hall).mpr ?_⟩
      exact hdistinct (hbalanced.mp hequal)
    · intro sites shares turns within
      have hstart : h.Accounts (h.crew sites shares memo).pool.memo
          (made.resolutions ++ (h.crew sites shares memo).pool.resolutions) := by
        simpa [crew] using haccounts
      have hwithin := Crew.run_accounts hr hreceivers hon hstart turns
      refine ⟨hwithin.size_le, ?_, hwithin.hits⟩
      rw [← List.flatMap_append]
      exact hwithin.misses
  · intro hoff
    have hempty : memo = ∅ :=
      after_unmemoized hr hacyclic (by rwa [options_build]) rfl rfl hrequests
    rw [hempty]
    exact ⟨rfl, rfl, rfl⟩

section Example

open Shapes

/-- The area of a new shape. -/
def areaOfShape : CallSite :=
  { areaOfParameter with receiver := .allocated shape }

/-- Two workers have the same call site. Both ask about the shape before one of them has
remembered it. -/
def sharedArea : Request :=
  .callTargets [areaOfShape, areaOfShape] { shares := [1], turns := [0, 1, 0, 1] }

/-- Since the memo was emptied, two workers have missed the shape, for which there is one entry. The
disk and the ring were missed after that, and the lookups for the disk, then for the disk above the
ring, came to remembered types. Without the batch there are as many entries as misses. -/
theorem memo_accounts_for_lookups_shapes :
    let others := [.resolve disk area, .resolve ring area, .resolveSuper ring area]
    let requests := .resolve disk area :: .forget :: sharedArea :: others
    let memo := ((start Shapes.program).after requests).memo
    let made := ledger (build Shapes.program) requests
    let calm := ((start Shapes.program).after others).memo
    let plain := ((start Shapes.program { memoize := false }).after requests).memo
    Shapes.program.Acyclic ∧ Shapes.program.HasReceivers
    ∧ (∀ request ∈ requests, request.isInquiry ∧ ¬ request.isConsult)
    ∧ memo.misses = 4 ∧ made.missed.length = 4
    ∧ memo.size = 3 ∧ made.missed.dedup.length = 3 ∧ ¬ made.missed.Nodup
    ∧ memo.hits = 2 ∧ (build Shapes.program).recalls made.resolutions = 2
    ∧ calm.misses = 3 ∧ calm.size = 3
    ∧ plain.size = 0 ∧ plain.hits = 0 ∧ plain.misses = 0 := by
  intro others requests memo made calm plain
  have hacyclic : Shapes.program.Acyclic := acyclic_programWith _
  have hreceivers : Shapes.program.HasReceivers := by decide
  have hrequests : ∀ request ∈ requests, request.isInquiry ∧ ¬ request.isConsult := by decide
  have hmisses : memo.misses = 4 := by decide +kernel
  have hsize : memo.size = 3 := by decide +kernel
  have hhits : memo.hits = 2 := by decide +kernel
  have hcalm : calm.misses = 3 := by decide +kernel
  obtain ⟨-, -, -, hmade, hentries, -, hequal, -, hrecalls, -⟩ :=
    (memo_accounts_for_lookups Shapes.program {} hacyclic hreceivers requests hrequests).1 rfl
  obtain ⟨-, -, -, -, -, -, -, hapart, -⟩ :=
    (memo_accounts_for_lookups Shapes.program {} hacyclic hreceivers others (by decide)).1 rfl
  have hplain := (memo_accounts_for_lookups Shapes.program { memoize := false } hacyclic hreceivers
    requests hrequests).2 rfl
  refine ⟨hacyclic, hreceivers, hrequests, hmisses, hmade.symm.trans hmisses, hsize,
    hentries.symm.trans hsize, ?_, hhits, hrecalls.symm.trans hhits, hcalm, ?_, hplain⟩
  · rw [← hequal, hsize, hmisses]
    decide
  · have hbatch : ∀ request ∈ others, ¬ request.isBatch := by decide
    refine (hapart fun before request hfront => ?_).trans hcalm
    exact Request.apart_of_not_isBatch (hbatch request (hfront.subset (by simp)))

/-- Where lookups overlap there may be fewer entries than misses. -/
theorem overlapping_lookups_miss_twice :
    let memo := ((start Shapes.program).after [sharedArea]).memo
    Shapes.program.Acyclic ∧ Shapes.program.HasReceivers ∧ sharedArea.isInquiry
    ∧ ¬ sharedArea.isConsult ∧ memo.size = 1 ∧ memo.misses = 2 ∧ memo.size ≠ memo.misses := by
  intro memo
  have hsize : memo.size = 1 := by decide +kernel
  have hmisses : memo.misses = 2 := by decide +kernel
  refine ⟨acyclic_programWith _, by decide, by decide, by decide, hsize, hmisses, ?_⟩
  rw [hsize, hmisses]
  decide

end Example

end Session

end ClassHierarchy

import ClassHierarchy.CallTarget
import ClassHierarchy.Proofs.Crews

/-!
# What comes of shared work

What comes of a plan depends on the answers to its lookups alone. So whatever holds of the answers in
every order of the steps settles what comes of the plans of a crew, and of a batch of call sites.

* `Plan.Always`: what a plan comes to, whatever answers its lookups get.
* `Crew.advance_plans`: a step of a worker keeps what its plan comes to.
* `Hierarchy.batch_plans`: what comes of the sites of a worker.
* `Hierarchy.callTargets_means`, `Hierarchy.callTargets_safe`: so a batch has the calls that its sites
  have one by one, however it is shared.
-/

namespace ClassHierarchy

variable {α β : Type} {h : Hierarchy} {p : Program}

/-! ## Outcomes of lookups -/

namespace Resolving

variable {r : Resolving}

theorem outcome?_eq_some_iff {outcome : Except Fault (Option Method)} :
    r.outcome? = some outcome ↔ r.stage = .done outcome := by
  unfold outcome?
  cases r.stage <;> simp

/-- A sound resolution that has ended has found what a lookup finds. -/
theorem Sound.outcome_eq (hsound : r.Sound h) (outcome : Except Fault (Option Method))
    (houtcome : r.outcome? = some outcome) : outcome = h.lookup r.start r.signature := by
  rw [outcome?_eq_some_iff] at houtcome
  simp only [Sound, houtcome] at hsound
  exact hsound.symm

/-- The resolution has not failed, or only because a method has no receiver. -/
def Safe (p : Program) (r : Resolving) : Prop :=
  ∀ outcome, r.outcome? = some outcome → FailsOnly p.IsReceiverFault outcome

theorem safe_begin (t : TypeName) (s : Signature) : (begin t s).Safe p := by
  intro outcome houtcome
  cases houtcome

/-- Whatever the memo tells a resolution, it fails only where a method has no receiver. -/
theorem step_safe {memo : Memo} (hr : h.Represents p) (hsafe : r.Safe p) :
    (r.step h memo).1.Safe p := by
  apply step_cases (motive := fun next => next.1.Safe p)
  case fault =>
    rintro t fault - hdeclared outcome ⟨⟩
    exact hdeclared ▸ Hierarchy.declared_failsOnly hr t r.signature
  case finish =>
    rintro answer - outcome ⟨⟩
    exact failsOnly_ok answer
  case ended =>
    intro _ _
    exact hsafe
  -- no other step ends the resolution
  all_goals
    intros
    rintro outcome ⟨⟩

end Resolving

/-! ## Plans -/

namespace Plan

variable {rel : Lookup → Except Fault (Option Method) → Prop}

/-- Whatever answers the lookups get, of those that `rel` allows, the plan comes to an outcome that
`post` allows. -/
def Always (rel : Lookup → Except Fault (Option Method) → Prop) (post : Except Fault α → Prop) :
    Plan α → Prop
  | done outcome => post outcome
  | ask l next => (∀ answer, rel l (.ok answer) → (next answer).Always rel post)
      ∧ ∀ fault, rel l (.error fault) → post (.error fault)

/-- A plan goes on with the answer to its first lookup, and ends where this is a fault. -/
theorem Always.resume {post : Except Fault α → Prop} {l : Lookup} {next : Option Method → Plan α}
    (hplan : (ask l next).Always rel post) {outcome : Except Fault (Option Method)}
    (houtcome : rel l outcome) : ((done outcome).bind next).Always rel post := by
  cases outcome with
  | ok answer => exact hplan.1 answer houtcome
  | error fault => exact hplan.2 fault houtcome

theorem always_lookup (l : Lookup) : (lookup l).Always rel (rel l) :=
  ⟨fun _ hanswer => hanswer, fun _ hfault => hfault⟩

/-- What always holds of a plan is handed on to what comes next; a fault is the end of both. -/
theorem Always.bind {mid : Except Fault α → Prop} {post : Except Fault β → Prop} {plan : Plan α}
    {f : α → Plan β} (hplan : plan.Always rel mid)
    (hok : ∀ x, mid (.ok x) → (f x).Always rel post)
    (herror : ∀ fault, mid (.error fault) → post (.error fault)) :
    (plan >>= f).Always rel post := by
  induction plan with
  | done outcome =>
    cases outcome with
    | ok x => exact hok x hplan
    | error fault => exact herror fault hplan
  | ask l next ih =>
    constructor
    · intro answer hanswer
      exact ih answer (hplan.1 answer hanswer)
    · intro fault hfault
      exact herror fault (hplan.2 fault hfault)

/-! ### Plans with one outcome -/

/-- Plans with known outcomes have one together. -/
theorem always_bind_eq {e : Except Fault α} {g : α → Except Fault β} {plan : Plan α}
    {f : α → Plan β} (hplan : plan.Always rel (· = e)) (hf : ∀ x, (f x).Always rel (· = g x)) :
    (plan >>= f).Always rel (· = e >>= g) := by
  refine hplan.bind ?_ ?_
  · rintro x rfl
    exact hf x
  · rintro fault rfl
    rfl

/-- Plans in a row have the outcomes that are known of each of them. -/
theorem always_mapM_eq {g : α → Except Fault β} {f : α → Plan β}
    (hf : ∀ x, (f x).Always rel (· = g x)) (xs : List α) :
    (xs.mapM f).Always rel (· = xs.mapM g) := by
  induction xs with
  | nil => rfl
  | cons x xs ih =>
    rw [List.mapM_cons, List.mapM_cons]
    exact always_bind_eq (hf x) fun y => always_bind_eq ih fun ys => rfl

/-! ### Plans with few ways to fail -/

/-- Two plans in a row have no other causes to fail than each of them has. -/
theorem always_bind_failsOnly {cause : Fault → Prop} {plan : Plan α} {f : α → Plan β}
    (hplan : plan.Always rel (FailsOnly cause)) (hf : ∀ x, (f x).Always rel (FailsOnly cause)) :
    (plan >>= f).Always rel (FailsOnly cause) :=
  hplan.bind (fun x _ => hf x) fun fault hfault => failsOnly_error (hfault fault rfl)

/-- Plans in a row have no other causes to fail than each of them has. -/
theorem always_mapM_failsOnly {cause : Fault → Prop} {f : α → Plan β}
    (hf : ∀ x, (f x).Always rel (FailsOnly cause)) (xs : List α) :
    (xs.mapM f).Always rel (FailsOnly cause) := by
  induction xs with
  | nil => exact failsOnly_ok []
  | cons x xs ih =>
    rw [List.mapM_cons]
    refine always_bind_failsOnly (hf x) fun y => ?_
    exact always_bind_failsOnly ih fun ys => failsOnly_ok (y :: ys)

end Plan

/-! ## What comes of the plans -/

namespace Crew

variable {crew : Crew α} {k : Nat}

section Plans

variable {rel : Lookup → Except Fault (Option Method) → Prop} {post : Nat → Except Fault α → Prop}

/-- What the plans of the workers come to, one by one. -/
def Plans (rel : Lookup → Except Fault (Option Method) → Prop) (post : Nat → Except Fault α → Prop)
    (crew : Crew α) : Prop :=
  ∀ (k : Nat) (w : Worker α), crew.workers[k]? = some w → w.plan.Always rel (post k)

/-- A step of a worker keeps what its plan comes to, if the lookup that ends with it has an answer that
`rel` allows. -/
theorem advance_plans (hcrew : crew.Coherent)
    (hanswers : ∀ r ∈ (crew.advance h k).pool.resolutions, ∀ outcome, r.outcome? = some outcome →
      rel r.question outcome)
    (hplans : crew.Plans rel post) : (crew.advance h k).Plans rel post := by
  cases hw : crew.workers[k]? with
  | none => rwa [advance_of_none hw]
  | some w =>
    suffices hnext : (w.step h crew.pool).1.plan.Always rel (post k) by
      rw [advance_of_some hw]
      intro k' w' hw'
      rcases getElem?_set_cases hw' with ⟨rfl, rfl⟩ | ⟨-, hw'⟩
      · exact hnext
      · exact hplans k' w' hw'
    rw [advance_of_some hw] at hanswers
    revert hanswers
    have hplan := hplans k w hw
    apply Worker.step_cases (motive := fun next =>
      (∀ r ∈ next.2.resolutions, ∀ outcome, r.outcome? = some outcome → rel r.question outcome) →
        next.1.plan.Always rel (post k))
    case idle =>
      intro outcome _ _
      exact hplan
    case begins =>
      intro l next _ _ _
      exact hplan
    case waits =>
      intro l next i _ _ _ _
      exact hplan
    case resumes =>
      intro l next i outcome hask hi hended hanswers
      rcases hcrew.asked k w i hw hi with ⟨-, l', next', hask', hl⟩
      obtain ⟨rfl, rfl⟩ : l = l' ∧ next = next' := by simpa [hask] using hask'
      rcases Option.bind_eq_some_iff.mp hended with ⟨r, hr, houtcome⟩
      -- what has ended is the lookup for which the worker has waited
      have hquestion : r.question = l := by
        rw [← Pool.questions_advance (h := h) i, Pool.questions, List.getElem?_map, hr] at hl
        exact Option.some.inj hl
      rw [hask] at hplan
      refine hplan.resume ?_
      rw [← hquestion]
      exact hanswers r (List.mem_of_getElem? hr) outcome houtcome

variable {good : Memo → Prop} {fine : Resolving → Prop} (hbegin : ∀ t s, fine (.begin t s))
  (hstep : ∀ r memo, good memo → fine r → fine (r.step h memo).1 ∧ good (r.step h memo).2)
include hbegin hstep

/-- In every order of steps the plans come to what they come to, if every lookup that has ended has an
answer that `rel` allows. -/
theorem run_plans
    (hrel : ∀ r, fine r → ∀ outcome, r.outcome? = some outcome → rel r.question outcome)
    (hcrew : crew.Coherent) (hall : crew.pool.All good fine) (hplans : crew.Plans rel post)
    (turns : List Nat) : (crew.run h turns).Plans rel post := by
  induction turns generalizing crew with
  | nil => exact hplans
  | cons k turns ih =>
    have hnext : (crew.advance h k).pool.All good fine := run_all hbegin hstep hall [k]
    refine ih (advance_coherent hcrew k) hnext (advance_plans hcrew ?_ hplans)
    intro r hr
    exact hrel r (hnext.2 r hr)

/-- What comes of the plans when all workers have come to their ends. -/
theorem finish_plans (hr : h.Represents p) (hacyclic : p.Acyclic)
    (hrel : ∀ r, fine r → ∀ outcome, r.outcome? = some outcome → rel r.question outcome)
    (hcrew : crew.Coherent) (hbounded : crew.pool.Bounded h) (hall : crew.pool.All good fine)
    (hplans : crew.Plans rel post) (k : Nat) (outcome : Except Fault α)
    (houtcome : (crew.finish h).1[k]? = some outcome) : post k outcome := by
  rcases exists_turns hr hacyclic hcrew hbounded with ⟨turns, -, hdone, -⟩
  have hend := run_plans hbegin hstep hrel hcrew hall hplans turns
  have hplan : ((crew.run h turns).workers.map Worker.plan)[k]? = some (.done outcome) := by
    rw [hdone, List.getElem?_map, houtcome]
    rfl
  rw [List.getElem?_map, Option.map_eq_some_iff] at hplan
  rcases hplan with ⟨w, hw, hplan⟩
  have halways := hend k w hw
  rwa [hplan] at halways

end Plans

end Crew

/-! ## Batches -/

/-- To cut a list loses nothing, and keeps the order. -/
theorem flatten_cut (shares : List Nat) (xs : List α) : (cut shares xs).flatten = xs := by
  induction shares generalizing xs with
  | nil => exact List.append_nil xs
  | cons n shares ih => rw [cut, List.flatten_cons, ih, List.take_append_drop]

/-- Of faults in several parts the first one counts, as it does without the parts. -/
theorem mapM_flatten (f : α → Except Fault β) (parts : List (List α)) :
    List.flatten <$> parts.mapM (fun part => part.mapM f) = parts.flatten.mapM f := by
  induction parts with
  | nil => rfl
  | cons part parts ih =>
    rw [List.flatten_cons, List.mapM_append, ← ih]
    simp

namespace Hierarchy

/-- A batch gives the calls of all workers in their order, and leaves the memo of the pool. -/
theorem outcome_callTargets_eq (sites : List CallSite) (sharing : Sharing) (memo : Memo) :
    (h.callTargets sites sharing).outcome memo
      = (List.flatten <$> (h.batch sites sharing memo).1.mapM id,
          (h.batch sites sharing memo).2.memo) :=
  rfl

/-- At first nobody waits, and nothing is under way. -/
theorem crew_coherent (h : Hierarchy) (sites : List CallSite) (shares : List Nat) (memo : Memo) :
    (h.crew sites shares memo).Coherent := by
  have hnew := Crew.coherent_of_new memo ((cut shares sites).map fun part => part.mapM h.callPlan)
  rwa [List.map_map] at hnew

/-- Every worker of a batch comes to an outcome. -/
theorem length_batch (sites : List CallSite) (sharing : Sharing) (memo : Memo) :
    (h.batch sites sharing memo).1.length = (cut sharing.shares sites).length := by
  rw [batch, Crew.finish, Crew.length_finishAll, Crew.length_run]
  exact List.length_map _

/-! ### Sites -/

/-- What becomes of a call site follows from its lookups. -/
theorem callOf_eq (site : CallSite) :
    h.callOf site = h.lookupsFor site >>= fun lookups =>
      lookups.mapM (fun l => h.lookup l.start l.signature) >>= fun found =>
        .ok (.ofTargets site.signature (.ofList (found.filterMap id))) := by
  have hone : ∀ t, CallTarget.ofTargets site.signature
      <$> Targets.ofOption <$> h.lookup t site.signature
        = [⟨site.signature, t⟩].mapM (fun l : Lookup => h.lookup l.start l.signature) >>= fun found =>
            .ok (.ofTargets site.signature (.ofList (found.filterMap id))) := by
    intro t
    rw [List.mapM_cons]
    rcases h.lookup t site.signature with fault | _ | m <;> rfl
  unfold callOf targetsOf lookupsFor
  cases site.policy with
  | above declaring =>
    simp only [lookupAbove, lookupsAbove]
    cases h.superclass? declaring with
    | none => rfl
    | some parent => exact hone parent
  | exact receiver => exact hone receiver
  | below bound =>
    simp only [targetsBelow, lookupsBelow]
    cases h.allSubclasses (h.enumerationStart site.kind bound) with
    | error fault => rfl
    | ok types =>
      show _ = (types.map fun u => (⟨site.signature, u⟩ : Lookup)).mapM _ >>= _
      rw [List.mapM_map]
      exact map_bind (m := Except Fault) _ (types.mapM (h.lookup · site.signature)) _

/-- The plan for a call site comes to what becomes of the site, if its lookups have the answers that they
have without a memo. -/
theorem callPlan_always (site : CallSite) :
    (h.callPlan site).Always (fun l outcome => outcome = h.lookup l.start l.signature)
      (· = h.callOf site) := by
  rw [callOf_eq]
  refine Plan.always_bind_eq rfl fun lookups => ?_
  exact Plan.always_bind_eq (Plan.always_mapM_eq Plan.always_lookup lookups) fun found => rfl

/-! ### Every order of steps -/

section Acyclic

variable (hr : h.Represents p) (hacyclic : p.Acyclic)
include hr hacyclic

/-- To gather the lookups of a call site fails only for the lack of a receiver, if at all. -/
theorem lookupsFor_failsOnly (site : CallSite) :
    FailsOnly p.IsReceiverFault (h.lookupsFor site) := by
  unfold lookupsFor
  cases site.policy with
  | above declaring => exact failsOnly_ok _
  | exact receiver => exact failsOnly_ok _
  | below bound => exact failsOnly_map (allSubclasses_failsOnly hr hacyclic _) _

/-- Where lookups fail only for the lack of a receiver, so does a dispatch. -/
theorem callPlan_safe (site : CallSite) :
    (h.callPlan site).Always (fun _ => FailsOnly p.IsReceiverFault)
      (FailsOnly p.IsReceiverFault) := by
  refine Plan.always_bind_failsOnly (lookupsFor_failsOnly hr hacyclic site) fun lookups => ?_
  refine Plan.always_bind_failsOnly ?_ fun found => failsOnly_ok _
  exact Plan.always_mapM_failsOnly Plan.always_lookup lookups

theorem bounded_run_crew (sites : List CallSite) (shares : List Nat) (memo : Memo)
    (turns : List Nat) : ((h.crew sites shares memo).run h turns).pool.Bounded h :=
  Crew.run_bounded hr hacyclic (Pool.all_of_memo trivial) turns

/-- When a batch is over nothing is under way. -/
theorem batch_ended (sites : List CallSite) (sharing : Sharing) (memo : Memo) (i : Nat) :
    ¬ (h.batch sites sharing memo).2.UnderWay i :=
  Crew.finish_ended hr hacyclic (Crew.run_coherent (crew_coherent h sites sharing.shares memo) _)
    (bounded_run_crew hr hacyclic sites sharing.shares memo _) i

/-- All that a batch does is turns in a pool, and the memo is not emptied. -/
theorem batch_pool (sites : List CallSite) (sharing : Sharing) (memo : Memo) :
    ∃ turns, .forget ∉ turns ∧ (h.batch sites sharing memo).2 = ({ memo } : Pool).run h turns := by
  have hcrew := Crew.run_coherent (h := h) (crew_coherent h sites sharing.shares memo) sharing.turns
  have hbounded := bounded_run_crew hr hacyclic sites sharing.shares memo sharing.turns
  rcases Crew.exists_turns hr hacyclic hcrew hbounded with ⟨more, hpool, -⟩
  rw [← Crew.run_append] at hpool
  obtain ⟨turns, hturns, hrun⟩ :=
    Crew.run_pool (h := h) (h.crew sites sharing.shares memo) (sharing.turns ++ more)
  exact ⟨turns, hturns, hpool.symm.trans hrun⟩

section Batch

variable {good : Memo → Prop} {fine : Resolving → Prop} {memo : Memo}
  (hbegin : ∀ t s, fine (.begin t s))
  (hstep : ∀ r memo, good memo → fine r → fine (r.step h memo).1 ∧ good (r.step h memo).2)
  (hgood : good memo)
include hbegin hstep hgood

/-- What the memo has and new resolutions have, and every step keeps, is there when a batch is over. -/
theorem batch_all (sites : List CallSite) (sharing : Sharing) :
    (h.batch sites sharing memo).2.All good fine := by
  rcases batch_pool hr hacyclic sites sharing memo with ⟨turns, hturns, hpool⟩
  rw [hpool]
  exact Pool.run_all hbegin hstep turns (fun hforget => absurd hforget hturns)
    (Pool.all_of_memo hgood)

/-- What comes of the sites of one worker depends on the answers to the lookups of these sites. -/
theorem batch_plans (rel : Lookup → Except Fault (Option Method) → Prop)
    (post : List CallSite → Except Fault (List CallTarget) → Prop)
    (hrel : ∀ r, fine r → ∀ outcome, r.outcome? = some outcome → rel r.question outcome)
    (hplan : ∀ part : List CallSite, (part.mapM h.callPlan).Always rel (post part))
    {sites : List CallSite} {sharing : Sharing} {k : Nat} {part : List CallSite}
    (hpart : (cut sharing.shares sites)[k]? = some part)
    {outcome : Except Fault (List CallTarget)}
    (houtcome : (h.batch sites sharing memo).1[k]? = some outcome) : post part outcome := by
  have hcrew := crew_coherent h sites sharing.shares memo
  have hall : (h.crew sites sharing.shares memo).pool.All good fine := Pool.all_of_memo hgood
  -- a worker is known by its place, and so are its sites
  have hplans : (h.crew sites sharing.shares memo).Plans rel fun j =>
      (cut sharing.shares sites)[j]?.elim (fun _ => True) post := by
    intro j w hw
    rw [crew, List.getElem?_map, Option.map_eq_some_iff] at hw
    rcases hw with ⟨mine, hmine, rfl⟩
    simp only [hmine, Option.elim_some]
    exact hplan mine
  have hend := Crew.finish_plans hbegin hstep hr hacyclic hrel
    (Crew.run_coherent hcrew sharing.turns)
    (bounded_run_crew hr hacyclic sites sharing.shares memo _)
    (Crew.run_all hbegin hstep hall _)
    (Crew.run_plans hbegin hstep hrel hcrew hall hplans _) k outcome houtcome
  rwa [hpart] at hend

end Batch

/-- While the workers of a batch are at work, the memo stays honest, and their lookups find what they
should. -/
theorem run_crew_sound {memo : Memo} (hhonest : h.Honest memo) (sites : List CallSite)
    (shares turns : List Nat) :
    ((h.crew sites shares memo).run h turns).pool.All h.Honest (Resolving.Sound h) :=
  Crew.run_all Resolving.sound_begin (fun _ _ => Resolving.step_sound hr hacyclic)
    (Pool.all_of_memo hhonest) turns

/-- With an honest memo, what comes of the sites of a worker is what becomes of them one by one. -/
theorem batch_eq {memo : Memo} (hhonest : h.Honest memo) (sites : List CallSite)
    (sharing : Sharing) :
    (h.batch sites sharing memo).1
      = (cut sharing.shares sites).map fun part => part.mapM h.callOf := by
  refine List.ext_getElem (by rw [length_batch, List.length_map]) fun k hk hk' => ?_
  rw [List.length_map] at hk'
  rw [List.getElem_map]
  exact batch_plans hr hacyclic Resolving.sound_begin
    (fun _ _ => Resolving.step_sound hr hacyclic) hhonest
    (fun l outcome => outcome = h.lookup l.start l.signature)
    (fun part outcome => outcome = part.mapM h.callOf) (fun _ hsound => hsound.outcome_eq)
    (Plan.always_mapM_eq callPlan_always) (List.getElem?_eq_getElem hk')
    (List.getElem?_eq_getElem hk)

/-- However a batch is shared, with an honest memo it has the calls of its sites one by one. -/
theorem callTargets_means (sites : List CallSite) (sharing : Sharing) :
    h.Means (h.callTargets sites sharing) (sites.mapM h.callOf) := by
  refine Query.ensures_iff.mpr fun memo hhonest => ?_
  rw [outcome_callTargets_eq, batch_eq hr hacyclic hhonest, List.mapM_map]
  constructor
  · conv_rhs => rw [← flatten_cut sharing.shares sites, ← mapM_flatten]
    rfl
  · exact (batch_all hr hacyclic Resolving.sound_begin
      (fun _ _ => Resolving.step_sound hr hacyclic) hhonest sites sharing).1

/-- However a batch is shared and whatever its memo holds, it meets no fault but those for methods
without a receiver. -/
theorem callTargets_safe (sites : List CallSite) (sharing : Sharing) :
    Safe p (h.callTargets sites sharing) := by
  refine Query.ensures_iff.mpr fun memo _ => ⟨?_, trivial⟩
  rw [outcome_callTargets_eq]
  refine failsOnly_map (failsOnly_mapM fun outcome houtcome => ?_) _
  rcases List.getElem_of_mem houtcome with ⟨k, hk, rfl⟩
  have hk' : k < (cut sharing.shares sites).length := length_batch (h := h) .. ▸ hk
  have hstep (r : Resolving) (memo : Memo) (_ : True) (hsafe : r.Safe p) :
      (r.step h memo).1.Safe p ∧ True :=
    ⟨Resolving.step_safe hr hsafe, trivial⟩
  exact batch_plans hr hacyclic Resolving.safe_begin hstep trivial
    (fun _ => FailsOnly p.IsReceiverFault) (fun _ => FailsOnly p.IsReceiverFault)
    (fun _ hsafe => hsafe)
    (Plan.always_mapM_failsOnly (callPlan_safe hr hacyclic)) (List.getElem?_eq_getElem hk')
    (List.getElem?_eq_getElem hk)

end Acyclic

end Hierarchy

end ClassHierarchy

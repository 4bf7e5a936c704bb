import ClassHierarchy.Proofs.SharedWork
import ClassHierarchy.Session.Basic

/-!
# The memo of a session

A session carries its memo from request to request, through requests that fail as well. As long as
nobody tells the memo anything by hand, it stays honest, and then it cannot be seen in any answer: a
session without a memo gives the same ones.

* `answer_aside`: a request that resolves nothing can only ask the memo or empty it.
* `answer_keeps`: a request leaves an honest memo honest, whatever comes of the request.
* `after_sound`: so does every sequence of requests.
* `answer_agrees`: two hierarchies of one program answer a resolution alike. One of them may use its
  memo and the other not.
-/

namespace ClassHierarchy

/-- The request asks what a signature means, or which methods a call may run. -/
def Request.isResolution : Request → Bool
  | .resolve _ _ | .resolveSuper _ _ | .anyTarget _ _ _ | .dispatch _ | .isPolymorphic _
  | .callTarget _ | .sameTarget _ _ | .callTargets _ _ => true
  | _ => false

/-- The request does not tell the memo an answer, and does not replace the hierarchy. -/
def Request.isInquiry : Request → Bool
  | .remember _ _ _ | .rebuild _ => false
  | _ => true

/-- The memo after a request that resolves nothing. -/
def Request.memoAside (memo : Memo) : Request → Memo
  | .consult t s => (memo.consult s t).2
  | .forget => ∅
  | _ => memo

/-- The failure is a fault for a listed method that has no receiver. -/
def Program.IsReceiverFailure (p : Program) (failure : Failure) : Prop :=
  ∃ fault, failure = .fault fault ∧ p.IsReceiverFault fault

/-- What a request does to the memo besides its lookups keeps it honest. -/
theorem Hierarchy.Honest.memoAside {h : Hierarchy} {memo : Memo} (hhonest : h.Honest memo)
    (request : Request) : h.Honest (request.memoAside memo) := by
  cases request with
  | consult t s => exact hhonest.consult s t
  | forget => exact honest_empty
  | _ => exact hhonest

namespace Session

variable {p : Program} {h h' : Hierarchy} {α β : Type}

/-- The session is on this hierarchy, and its memo is honest. -/
def Sound (h : Hierarchy) (session : Session) : Prop :=
  session.hierarchy = h ∧ h.Honest session.memo

/-- A session starts with an honest memo. -/
theorem sound_start (p : Program) (options : Options) :
    Sound (.build p options) (start p options) :=
  ⟨rfl, Hierarchy.honest_empty⟩

namespace Action

/-! ## Actions that keep an invariant -/

section Invariant

variable {inv : Session → Prop}

theorem ensures_ofFault (e : Except Fault α) : Ensures inv (fun _ => True) (ofFault e) := by
  cases e with
  | ok x => exact ensures_pure trivial
  | error fault => exact ensures_throw trivial

theorem ensures_ofProgram (e : Except ProgramError α) :
    Ensures inv (fun _ => True) (ofProgram e) := by
  cases e with
  | ok x => exact ensures_pure trivial
  | error error => exact ensures_throw trivial

theorem ensures_andThen {a : Action α} {f : α → Action β} (ha : Ensures inv (fun _ => True) a)
    (hf : ∀ x, Ensures inv (fun _ => True) (f x)) : Ensures inv (fun _ => True) (a >>= f) :=
  ha.bind (fun x _ => hf x) fun _ _ => trivial

/-- A request that resolves nothing keeps whatever does not depend on events, if its way with the memo
keeps it. -/
theorem answer_aside {request : Request} (hrequest : request.isInquiry)
    (hres : ¬ request.isResolution)
    (hevents : ∀ session events, inv session → inv { session with events })
    (hmemo : ∀ session, inv session →
      inv { session with memo := request.memoAside session.memo }) :
    Ensures inv (fun _ => True) (answer request) := by
  refine ensures_get_bind fun session hsession => ?_
  cases request with
  | validate => exact ensures_andThen (ensures_ofProgram _) fun _ => ensures_pure trivial
  | classNamed t => exact ensures_andThen (ensures_ofProgram _) fun _ => ensures_pure trivial
  | allSubclasses t => exact ensures_andThen (ensures_ofFault _) fun _ => ensures_pure trivial
  | properSubclasses t => exact ensures_andThen (ensures_ofFault _) fun _ => ensures_pure trivial
  | declared t s => exact ensures_andThen (ensures_ofFault _) fun _ => ensures_pure trivial
  | implementationsOf t s =>
    -- the search is reported once it has come to its end
    have hreport (e : Event) : Ensures inv (fun _ => True) (report e) :=
      ensures_modify (fun session => hevents session _) trivial
    refine ensures_andThen (ensures_get_bind fun _ _ => ?_) fun _ => ensures_pure trivial
    refine ensures_andThen (ensures_ofFault _) fun _ => ?_
    exact ensures_andThen (hreport _) fun _ => ensures_pure trivial
  | consult t s =>
    exact ensures_andThen (ensures_set (hmemo session hsession) trivial) fun _ =>
      ensures_pure trivial
  | forget =>
    exact ensures_andThen (ensures_set (hmemo session hsession) trivial) fun _ =>
      ensures_pure trivial
  | remember t s answer => cases hrequest
  | rebuild options => cases hrequest
  | resolve | resolveSuper | anyTarget | dispatch | isPolymorphic | callTarget | sameTarget
  | callTargets => exact absurd rfl hres
  | _ => exact ensures_pure trivial

end Invariant

/-! ## Actions that keep the memo honest -/

/-- The action keeps the hierarchy, and an honest memo honest, whether it fails or not. -/
abbrev Keeps (h : Hierarchy) (a : Action α) : Prop :=
  Ensures (Sound h) (fun _ => True) a

/-- A query is carried out with the memo of the session and leaves its own there. -/
theorem run_query (q : Hierarchy → Query α) (session : Session) :
    (query q).run.run session
      = (((q session.hierarchy).outcome session.memo).1.mapError .fault,
          { session with memo := ((q session.hierarchy).outcome session.memo).2 }) := by
  have hrun : (query q).run.run session
      = (ofFault ((q session.hierarchy).outcome session.memo).1).run.run
          { session with memo := ((q session.hierarchy).outcome session.memo).2 } := rfl
  rw [hrun]
  cases ((q session.hierarchy).outcome session.memo).1 <;> rfl

/-- In a sound session a query has the outcome that it means, and the session stays sound. -/
theorem query_means {q : Hierarchy → Query α} {e : Except Fault α} (hq : h.Means (q h) e) :
    Ensures (Sound h) (· = e.mapError .fault) (query q) := by
  rintro session ⟨rfl, hhonest⟩
  obtain ⟨houtcome, hafter⟩ := Query.ensures_iff.mp hq session.memo hhonest
  rw [run_query, houtcome]
  exact ⟨rfl, rfl, hafter⟩

/-! ## Actions with one outcome -/

/-- The action has one outcome on sound sessions of both hierarchies, and keeps them sound. It fails
only where a method has no receiver. -/
def Agrees (p : Program) (h h' : Hierarchy) (a : Action α) : Prop :=
  ∃ e, Ensures (Sound h) (· = e) a ∧ Ensures (Sound h') (· = e) a
    ∧ FailsOnly p.IsReceiverFailure e

theorem agrees_pure (x : α) : Agrees p h h' (pure x) :=
  ⟨.ok x, ensures_pure rfl, ensures_pure rfl, failsOnly_ok x⟩

/-- Actions that agree do so one after the other. -/
theorem Agrees.bind {a : Action α} {f : α → Action β} (ha : Agrees p h h' a)
    (hf : ∀ x, Agrees p h h' (f x)) : Agrees p h h' (a >>= f) := by
  obtain ⟨e, hleft, hright, hfails⟩ := ha
  -- what comes second depends on the result of the first part only, not on the session
  choose g hgleft hgright hgfails using hf
  exact ⟨e >>= g, ensures_bind_eq hleft hgleft, ensures_bind_eq hright hgright,
    failsOnly_bind hfails hgfails⟩

/-- An action may look at the session, if it does not depend on what it sees. -/
theorem Agrees.after_get {a : Action α} (ha : Agrees p h h' a) :
    Agrees p h h' (get >>= fun _ => a) := by
  obtain ⟨e, hleft, hright, hfails⟩ := ha
  exact ⟨e, ensures_get_bind fun _ _ => hleft, ensures_get_bind fun _ _ => hright, hfails⟩

theorem agrees_report (e : Event) : Agrees p h h' (report e) :=
  ⟨.ok (), ensures_modify (fun _ hsound => hsound) rfl, ensures_modify (fun _ hsound => hsound) rfl,
    failsOnly_ok ()⟩

theorem agrees_reports (sites : List CallSite) :
    Agrees p h h' (sites.forM fun site => report (.dispatching site)) := by
  induction sites with
  | nil => exact agrees_pure ()
  | cons site sites ih => exact (agrees_report _).bind fun _ => ih

/-- A query of both sessions agrees if it means the same in both. -/
theorem agrees_query {q : Hierarchy → Query α} {e e' : Except Fault α} (hq : h.Means (q h) e)
    (hq' : h'.Means (q h') e') (he : e = e') (hsafe : Hierarchy.Safe p (q h)) :
    Agrees p h h' (query q) := by
  subst he
  refine ⟨_, query_means hq, query_means hq', ?_⟩
  -- `e` is in particular the outcome with an empty memo
  have hfails : FailsOnly p.IsReceiverFault e := by
    rw [← (hq ∅ Hierarchy.honest_empty).1]
    exact (hsafe ∅ trivial).1
  cases e with
  | ok x => exact failsOnly_ok x
  | error fault => exact failsOnly_error ⟨fault, rfl, hfails fault rfl⟩

/-- Actions that agree keep their session sound. -/
theorem Agrees.keeps {a : Action α} (ha : Agrees p h h' a) : Keeps h a := by
  obtain ⟨e, hleft, -⟩ := ha
  exact hleft.weaken fun _ _ => trivial

end Action

/-! ## Requests -/

section SameProgram

variable (hr : h.Represents p) (hr' : h'.Represents p) (hacyclic : p.Acyclic)
include hr hr' hacyclic

open Session.Action Hierarchy

/-- A dispatch is reported and answered alike in both sessions. -/
theorem dispatch_agrees (site : CallSite) : Agrees p h h' (Action.dispatch site) := by
  have hquery : Agrees p h h' (query (·.dispatch site)) :=
    agrees_query (dispatch_means hr hacyclic site) (dispatch_means hr' hacyclic site)
      (by rw [targetsOf_congr hr hr']) (dispatch_safe hr hacyclic site)
  exact (agrees_report _).bind fun _ => hquery

theorem callTarget_agrees (site : CallSite) : Agrees p h h' (Action.callTarget site) := by
  have hquery : Agrees p h h' (query (·.callTarget site)) :=
    agrees_query (callTarget_means hr hacyclic site) (callTarget_means hr' hacyclic site)
      (by rw [callOf_congr hr hr']) (callTarget_safe hr hacyclic site)
  exact (agrees_report _).bind fun _ => hquery

/-- Two hierarchies of one program answer a resolution alike. -/
theorem answer_agrees {request : Request} (hrequest : request.isResolution) :
    Agrees p h h' (answer request) := by
  cases request with
  | resolve t s =>
    have hquery : Agrees p h h' (query (·.resolve t s)) :=
      agrees_query (resolve_means hr hacyclic t s) (resolve_means hr' hacyclic t s)
        (by rw [lookup_congr hr hr']) (resolve_safe hr hacyclic t s)
    exact .after_get (hquery.bind fun _ => agrees_pure _)
  | resolveSuper t s =>
    have hquery : Agrees p h h' (query (·.resolveSuper t s)) :=
      agrees_query (resolveSuper_means hr hacyclic t s) (resolveSuper_means hr' hacyclic t s)
        (by rw [lookupAbove_congr hr hr']) (resolveSuper_safe hr hacyclic t s)
    exact .after_get (hquery.bind fun _ => agrees_pure _)
  | anyTarget kind s t =>
    have hquery : Agrees p h h' (query (·.anyTarget kind s t)) :=
      agrees_query (anyTarget_means hr hacyclic kind s t) (anyTarget_means hr' hacyclic kind s t)
        (by rw [targetsBelow_congr hr hr']) (anyTarget_safe hr hacyclic kind s t)
    exact .after_get (hquery.bind fun _ => agrees_pure _)
  | dispatch site =>
    have hdispatch := dispatch_agrees hr hr' hacyclic site
    exact .after_get (hdispatch.bind fun _ => agrees_pure _)
  | isPolymorphic site =>
    have hquery : Agrees p h h' (query (·.isPolymorphic site)) :=
      agrees_query (isPolymorphic_means hr hacyclic site) (isPolymorphic_means hr' hacyclic site)
        (by rw [targetsOf_congr hr hr']) (isPolymorphic_safe hr hacyclic site)
    have hanswer : Agrees p h h' (query (·.isPolymorphic site) >>= fun b => pure (Answer.flag b)) :=
      hquery.bind fun _ => agrees_pure _
    exact .after_get ((agrees_report _).bind fun _ => hanswer)
  | callTarget site =>
    have hcall := callTarget_agrees hr hr' hacyclic site
    exact .after_get (hcall.bind fun _ => agrees_pure _)
  | sameTarget a b =>
    have hfirst := callTarget_agrees hr hr' hacyclic a
    have hsecond := callTarget_agrees hr hr' hacyclic b
    exact .after_get (hfirst.bind fun _ => hsecond.bind fun _ => agrees_pure _)
  | callTargets sites sharing =>
    have hquery : Agrees p h h' (query (·.callTargets sites sharing)) :=
      agrees_query (callTargets_means hr hacyclic sites sharing)
        (callTargets_means hr' hacyclic sites sharing) (by rw [callOf_congr hr hr'])
        (callTargets_safe hr hacyclic sites sharing)
    exact .after_get ((agrees_reports sites).bind fun _ => hquery.bind fun _ => agrees_pure _)
  | _ => cases hrequest

end SameProgram

/-- A reply has the outcome of the request's action, and the session is left as the action leaves it,
abandoned or not. -/
theorem step_eq (session : Session) (request : Request) :
    ((session.step request).1.result, (session.step request).2)
      = (Action.answer request).run.run { session with events := #[] } := by
  unfold step
  rcases hrun : (Action.answer request).run.run { session with events := #[] } with ⟨result, after⟩
  cases request <;> cases result <;> rfl

/-- What is ensured of an answer is ensured of a step, and the session stays sound. -/
theorem step_ensures {post : Except Failure Answer → Prop} {session : Session} {request : Request}
    (hanswer : Ensures (Sound h) post (Action.answer request)) (hsound : Sound h session) :
    post (session.step request).1.result ∧ Sound h (session.step request).2 := by
  have hrun := hanswer { session with events := #[] } hsound
  rwa [← step_eq] at hrun

section Acyclic

variable (hr : h.Represents p) (hacyclic : p.Acyclic)
include hr hacyclic

open Session.Action

/-- A request leaves an honest memo honest, whether it is answered or fails. -/
theorem answer_keeps {request : Request} (hrequest : request.isInquiry) :
    Keeps h (answer request) := by
  by_cases hres : request.isResolution
  · exact (answer_agrees hr hr hacyclic hres).keeps
  · refine answer_aside hrequest hres (fun session events hsound => hsound) ?_
    intro session hsound
    exact ⟨hsound.1, hsound.2.memoAside request⟩

/-! ## Runs -/

/-- A session stays sound through all requests that do not tell its memo anything: whatever was
asked before, and whatever faults were met, what it remembers is what lookups find. -/
theorem after_sound {session : Session} (hsound : Sound h session) {requests : List Request}
    (hrequests : ∀ request ∈ requests, request.isInquiry) : Sound h (session.after requests) := by
  induction requests generalizing session with
  | nil => exact hsound
  | cons request requests ih =>
    obtain ⟨hfirst, hrest⟩ := List.forall_mem_cons.mp hrequests
    exact ih (step_ensures (answer_keeps hr hacyclic hfirst) hsound).2 hrest

end Acyclic

/-- After any requests but ones that tell the memo an answer, a session gives the same outcome for a
resolution as a session of the same program without a memo, and every answer that it remembers is
what a resolution without a memo finds. -/
theorem memo_transparent (p : Program) (options options' : Options)
    (hacyclic : p.Acyclic) (before before' : List Request)
    (hbefore : ∀ request ∈ before, request.isInquiry)
    (hbefore' : ∀ request ∈ before', request.isInquiry) :
    let plain := { options' with memoize := false }
    let session := (start p options).after before
    (∀ request, request.isResolution →
      (session.step request).1.result = (((start p plain).after before').step request).1.result
        ∧ FailsOnly p.IsReceiverFailure (session.step request).1.result)
    ∧ ∀ s t answer, session.memo.find? s t = some answer →
        (((Hierarchy.build p plain).resolve t s).outcome ∅).1 = .ok answer := by
  intro plain session
  have hr := Hierarchy.represents_build p options
  have hr' := Hierarchy.represents_build p plain
  have hsound := after_sound hr hacyclic (sound_start p options) hbefore
  have hsound' := after_sound hr' hacyclic (sound_start p plain) hbefore'
  constructor
  · intro request hrequest
    obtain ⟨e, hleft, hright, hfails⟩ := answer_agrees hr hr' hacyclic hrequest
    rw [(step_ensures hleft hsound).1, (step_ensures hright hsound').1]
    exact ⟨rfl, hfails⟩
  · intro s t answer hfound
    have hmeans := Hierarchy.resolve_means hr' hacyclic t s
    rw [(Query.ensures_iff.mp hmeans ∅ Hierarchy.honest_empty).1, ← Hierarchy.lookup_congr hr hr']
    exact hsound.2 s t answer hfound

section Example

open Shapes

/-- One resolution fills the memo and the next one fails; what was remembered stays right. -/
theorem memo_transparent_shapes :
    let before := [.resolve disk area, .resolve blob area, .consult disk area]
    let session := (start flawed).after before
    flawed.Acyclic ∧ (∀ request ∈ before, request.isInquiry)
    ∧ session.memo.find? area disk = some (some (.declaredBy shape area))
    ∧ (((Hierarchy.build flawed { memoize := false }).resolve disk area).outcome ∅).1
        = .ok (some (.declaredBy shape area))
    ∧ (session.step (.resolve blob area)).1.result
        = ((start flawed { memoize := false }).step (.resolve blob area)).1.result := by
  intro before session
  have hacyclic : flawed.Acyclic := acyclic_programWith _
  have hbefore : ∀ request ∈ before, request.isInquiry := by decide
  have hmemo : session.memo.find? area disk = some (some (.declaredBy shape area)) := by
    decide +kernel
  obtain ⟨hsteps, hentries⟩ := memo_transparent flawed {} {} hacyclic before [] hbefore (by simp)
  exact ⟨hacyclic, hbefore, hmemo, hentries _ _ _ hmemo, (hsteps (.resolve blob area) rfl).1⟩

end Example

end Session

end ClassHierarchy

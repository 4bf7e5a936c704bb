import ClassHierarchy.Proofs.Transparency

/-!
# The lookups behind a request

A query touches the memo only where it resolves a signature for a type. Which lookups it makes, and in
which order, depends on the hierarchy alone, so what a query does to the memo is what these lookups do,
made one after the other. A lookup that meets a fault is the last one. Only a batch of call sites is
different, as the lookups of its sites may take turns.

* `asks_dispatch`, `asks_callTarget`: the lookups that queries make.
* `step_memo`, `after_memo`: what requests do to the memo of a session. They make their lookups one after
  the other, carry out a batch, ask the memo by hand or empty it.
* `after_keeps`: so a property of memos is kept by all requests if these four keep it.
-/

namespace ClassHierarchy

namespace Query

variable {α β : Type}

/-- The next query starts with the memo that the first one leaves, unless that met a fault. -/
theorem outcome_bind (q : Query α) (f : α → Query β) (memo : Memo) :
    (q >>= f).outcome memo = match q.outcome memo with
      | (.ok x, after) => (f x).outcome after
      | (.error fault, after) => (.error fault, after) := by
  rcases hrun : q.outcome memo with ⟨result, after⟩
  have hrun : q.run.run memo = (result, after) := hrun
  show (q >>= f).run.run memo = _
  rw [ExceptT.run_bind, StateT.run_bind, hrun]
  cases result <;> rfl

/-- A changed result leaves the memo as it is. -/
theorem outcome_map (f : α → β) (q : Query α) (memo : Memo) :
    (f <$> q).outcome memo = ((q.outcome memo).1.map f, (q.outcome memo).2) := by
  rw [map_eq_pure_bind, outcome_bind]
  rcases q.outcome memo with ⟨result, after⟩
  cases result <;> rfl

end Query

namespace Hierarchy

variable {h : Hierarchy} {p : Program} {α β : Type}

/-! ## Making lookups -/

/-- Makes a lookup, only for what this does to the memo. -/
def ask (h : Hierarchy) (l : Lookup) : Query Unit :=
  (fun _ => ()) <$> h.resolve l.start l.signature

/-- Makes lookups one after the other, up to one that meets a fault. -/
def askAll (h : Hierarchy) (ls : List Lookup) : Query Unit :=
  ls.forM h.ask

theorem outcome_ask (l : Lookup) (memo : Memo) :
    (h.ask l).outcome memo = (((h.resolve l.start l.signature).outcome memo).1.map fun _ => (),
      ((h.resolve l.start l.signature).outcome memo).2) :=
  Query.outcome_map _ _ memo

theorem askAll_cons (l : Lookup) (ls : List Lookup) :
    h.askAll (l :: ls) = h.ask l >>= fun _ => h.askAll ls :=
  rfl

/-- Lookups in a row are made up to the first that meets a fault. -/
theorem askAll_append (ls ls' : List Lookup) :
    h.askAll (ls ++ ls') = h.askAll ls >>= fun _ => h.askAll ls' :=
  List.forM_append

/-- What every resolution keeps, whatever comes of it, is kept by any number of lookups. -/
theorem askAll_keeps {inv : Memo → Prop}
    (hresolve : ∀ memo t s, inv memo → inv ((h.resolve t s).outcome memo).2) {memo : Memo}
    (hmemo : inv memo) (ls : List Lookup) : inv ((h.askAll ls).outcome memo).2 := by
  induction ls generalizing memo with
  | nil => exact hmemo
  | cons l ls ih =>
    have hfirst := hresolve memo l.start l.signature hmemo
    rw [askAll_cons, Query.outcome_bind, outcome_ask]
    cases ((h.resolve l.start l.signature).outcome memo).1 with
    | ok answer => exact ih hfirst
    | error fault => exact hfirst

/-! ## Queries as lookups -/

/-- But for its result, the query is the same as to make these lookups. -/
def Asks (h : Hierarchy) (q : Query α) (ls : List Lookup) : Prop :=
  (fun _ => ()) <$> q = h.askAll ls

theorem asks_pure (x : α) : h.Asks (pure x) [] :=
  map_pure _ x

/-- A resolution is one lookup. -/
theorem asks_resolve (t : TypeName) (s : Signature) : h.Asks (h.resolve t s) [⟨s, t⟩] :=
  (bind_pure_unit (x := h.ask ⟨s, t⟩)).symm

/-- Queries in a row make their lookups in a row, if those of the second do not depend on the first.
-/
theorem Asks.bind {q : Query α} {f : α → Query β} {ls ls' : List Lookup} (hq : h.Asks q ls)
    (hf : ∀ x, h.Asks (f x) ls') : h.Asks (q >>= f) (ls ++ ls') := by
  calc (fun _ => ()) <$> (q >>= f)
      = q >>= fun x => (fun _ => ()) <$> f x := map_bind _ _ _
    _ = q >>= fun _ => h.askAll ls' := by rw [funext hf]
    _ = ((fun _ => ()) <$> q) >>= fun _ => h.askAll ls' :=
      (bind_map_left (fun _ => ()) q fun _ => h.askAll ls').symm
    _ = h.askAll (ls ++ ls') := by rw [hq, askAll_append]

theorem Asks.map {q : Query α} {ls : List Lookup} (hq : h.Asks q ls) (f : α → β) :
    h.Asks (f <$> q) ls := by
  rw [Asks, ← hq, ← comp_map]

/-- A list of queries makes their lookups in a row. -/
theorem asks_mapM {f : α → Query β} {ls : α → List Lookup} (hf : ∀ x, h.Asks (f x) (ls x))
    (xs : List α) : h.Asks (xs.mapM f) (xs.flatMap ls) := by
  induction xs with
  | nil => exact asks_pure []
  | cons x xs ih =>
    rw [List.mapM_cons, List.flatMap_cons]
    refine (hf x).bind fun y => ?_
    rw [← List.append_nil (xs.flatMap ls)]
    exact ih.bind fun ys => asks_pure _

/-- The lookups of a list that may not exist, as the walk that gathers it never ends. -/
def gathered (lookups : Except Fault (List Lookup)) : List Lookup :=
  lookups.toOption.getD []

/-- Above a type there is one lookup, from its parent, or none. -/
theorem asks_resolveSuper (t : TypeName) (s : Signature) :
    h.Asks (h.resolveSuper t s) (h.lookupsAbove t s) := by
  unfold resolveSuper lookupsAbove
  cases h.superclass? t with
  | some parent => exact asks_resolve parent s
  | none => exact asks_pure none

section Acyclic

variable (hr : h.Represents p) (hacyclic : p.Acyclic)
include hr hacyclic

/-- An enumeration makes one lookup for every subtype. -/
theorem asks_anyTarget (kind : InvokeKind) (s : Signature) (t : TypeName) :
    h.Asks (h.anyTarget kind s t) (gathered (h.lookupsBelow kind s t)) := by
  rcases allSubclasses_eq hr (hacyclic (h.enumerationStart kind t)) with ⟨types, htypes, -⟩
  have hfound : h.Asks (types.mapM (h.resolve · s)) (types.map fun u => ⟨s, u⟩) := by
    rw [List.map_eq_flatMap]
    exact asks_mapM (fun u => asks_resolve u s) types
  -- the walk down comes to an end, and touches no memo
  simp only [anyTarget, lookupsBelow, htypes]
  exact hfound.map fun found => Targets.ofList (found.filterMap id)

/-- The lookups of a dispatch depend on its policy. -/
theorem asks_dispatch (site : CallSite) :
    h.Asks (h.dispatch site) (gathered (h.lookupsFor site)) := by
  unfold dispatch lookupsFor
  cases site.policy with
  | above declaring => exact (asks_resolveSuper _ _).map _
  | exact receiver => exact (asks_resolve _ _).map _
  | below bound => exact asks_anyTarget hr hacyclic _ _ _

theorem asks_isPolymorphic (site : CallSite) :
    h.Asks (h.isPolymorphic site) (gathered (h.lookupsFor site)) :=
  (asks_dispatch hr hacyclic site).map _

theorem asks_callTarget (site : CallSite) :
    h.Asks (h.callTarget site) (gathered (h.lookupsFor site)) :=
  (asks_dispatch hr hacyclic site).map _

end Acyclic

end Hierarchy

/-! ## Requests as lookups -/

namespace Request

/-- The lookups that a request makes. They are made in this order, except for those of a batch. -/
def lookups (h : Hierarchy) : Request → List Lookup
  | .resolve t s => [⟨s, t⟩]
  | .resolveSuper t s => h.lookupsAbove t s
  | .anyTarget kind s t => Hierarchy.gathered (h.lookupsBelow kind s t)
  | .dispatch site | .isPolymorphic site | .callTarget site => Hierarchy.gathered (h.lookupsFor site)
  | .sameTarget a b => Hierarchy.gathered (h.lookupsFor a) ++ Hierarchy.gathered (h.lookupsFor b)
  | .callTargets sites _ => sites.flatMap fun site => Hierarchy.gathered (h.lookupsFor site)
  | _ => []

/-- The request has the lookups of several call sites, which may take turns. -/
def isBatch : Request → Bool
  | .callTargets _ _ => true
  | _ => false

/-- The memo after a request. -/
def memoAfter (h : Hierarchy) (memo : Memo) (request : Request) : Memo :=
  match request with
  | .callTargets sites sharing => (h.batch sites sharing memo).2.memo
  | _ =>
    if request.isResolution then
      ((h.askAll (request.lookups h)).outcome memo).2
    else
      request.memoAside memo

/-- A request other than a batch makes its lookups one after the other, or does something else to
the memo. -/
theorem memoAfter_of_not_isBatch {h : Hierarchy} {memo : Memo} {request : Request}
    (hbatch : ¬ request.isBatch) :
    request.memoAfter h memo
      = if request.isResolution then ((h.askAll (request.lookups h)).outcome memo).2
        else request.memoAside memo := by
  cases request with
  | callTargets => exact absurd rfl hbatch
  | _ => rfl

/-- What resolutions and batches keep is kept by a request, if it is kept by what else the request
does. -/
theorem memoAfter_keeps {h : Hierarchy} {inv : Memo → Prop} {memo : Memo} {request : Request}
    (hresolve : ∀ memo t s, inv memo → inv ((h.resolve t s).outcome memo).2)
    (hbatch : ∀ sites sharing, inv memo → inv (h.batch sites sharing memo).2.memo)
    (hconsult : ∀ t s, request = .consult t s → inv (memo.consult s t).2)
    (hforget : request = .forget → inv ∅) (hmemo : inv memo) :
    inv (request.memoAfter h memo) := by
  by_cases hshared : request.isBatch
  · cases request with
    | callTargets sites sharing => exact hbatch sites sharing hmemo
    | _ => cases hshared
  · rw [memoAfter_of_not_isBatch hshared]
    split
    · exact Hierarchy.askAll_keeps hresolve hmemo _
    · cases request with
      | consult t s => exact hconsult t s rfl
      | forget => exact hforget rfl
      | _ => exact hmemo

end Request

namespace Session

variable {h : Hierarchy} {p : Program} {α β : Type}

namespace Action

/-- The action does to the memo what these lookups do, and fails just where they do. -/
def Asks (h : Hierarchy) (a : Action α) (ls : List Lookup) : Prop :=
  ∀ session, session.hierarchy = h →
    (a.run.run session).1.map (fun _ => ())
      = ((h.askAll ls).outcome session.memo).1.mapError .fault
    ∧ (a.run.run session).2.memo = ((h.askAll ls).outcome session.memo).2
    ∧ (a.run.run session).2.hierarchy = h

theorem asks_pure (x : α) : Asks h (pure x) [] := by
  intro session hsession
  exact ⟨rfl, rfl, hsession⟩

theorem asks_report (e : Event) : Asks h (report e) [] := by
  intro session hsession
  exact ⟨rfl, rfl, hsession⟩

/-- A query is carried out with the memo of the session, and what becomes of its result leaves that
alone. -/
theorem run_query_bind_pure (q : Hierarchy → Query α) (f : α → β) (session : Session) :
    ((query q >>= fun x => pure (f x) : Action β).run.run session).2
      = { session with memo := ((q session.hierarchy).outcome session.memo).2 } := by
  rw [ExceptT.run_bind, StateT.run_bind, run_query]
  cases ((q session.hierarchy).outcome session.memo).1 <;> rfl

/-- An action that is a query makes its lookups. -/
theorem asks_query {q : Hierarchy → Query α} {ls : List Lookup} (hq : h.Asks (q h) ls) :
    Asks h (query q) ls := by
  rintro session rfl
  rw [run_query, ← hq, Query.outcome_map]
  refine ⟨?_, rfl, rfl⟩
  cases ((q session.hierarchy).outcome session.memo).1 <;> rfl

theorem Asks.bind {a : Action α} {f : α → Action β} {ls ls' : List Lookup} (ha : Asks h a ls)
    (hf : ∀ x, Asks h (f x) ls') : Asks h (a >>= f) (ls ++ ls') := by
  intro session hsession
  rcases ha session hsession with ⟨hresult, hmemo, hafter⟩
  rw [ExceptT.run_bind, StateT.run_bind, Hierarchy.askAll_append, Query.outcome_bind]
  rcases hrun : a.run.run session with ⟨result, after⟩
  rcases houtcome : (h.askAll ls).outcome session.memo with ⟨asked, memo⟩
  rw [hrun, houtcome] at hresult hmemo
  rw [hrun] at hafter
  -- the action goes on just where the lookups do
  cases asked with
  | ok _ =>
    cases result with
    | ok x =>
      obtain rfl : after.memo = memo := hmemo
      exact hf x after hafter
    | error failure => cases hresult
  | error fault =>
    cases result with
    | ok x => cases hresult
    | error failure => exact ⟨hresult, hmemo, hafter⟩

theorem Asks.andThen {a : Action α} {f : α → Action β} {ls : List Lookup} (ha : Asks h a ls)
    (hf : ∀ x, Asks h (f x) []) : Asks h (a >>= f) ls := by
  have hboth := ha.bind hf
  rwa [List.append_nil] at hboth

/-- An action may look at the session, if it does not depend on what it sees. -/
theorem Asks.after_get {a : Action α} {ls : List Lookup} (ha : Asks h a ls) :
    Asks h (get >>= fun _ => a) ls :=
  ha

theorem asks_reports (sites : List CallSite) :
    Asks h (sites.forM fun site => report (.dispatching site)) [] := by
  induction sites with
  | nil => exact asks_pure ()
  | cons site sites ih => exact (asks_report _).andThen fun _ => ih

end Action

section Acyclic

variable (hr : h.Represents p) (hacyclic : p.Acyclic)
include hr hacyclic

open Session.Action Hierarchy

theorem callTarget_asks (site : CallSite) :
    Asks h (Action.callTarget site) (gathered (h.lookupsFor site)) :=
  (asks_report _).bind fun _ => asks_query (asks_callTarget hr hacyclic site)

/-- A resolution other than a batch makes its lookups and does nothing else to the memo. -/
theorem answer_asks {request : Request} (hrequest : request.isResolution)
    (hbatch : ¬ request.isBatch) : Asks h (answer request) (request.lookups h) := by
  refine Asks.after_get ?_
  cases request with
  | resolve t s => exact (asks_query (asks_resolve t s)).andThen fun _ => asks_pure _
  | resolveSuper t s => exact (asks_query (asks_resolveSuper t s)).andThen fun _ => asks_pure _
  | anyTarget kind s t =>
    exact (asks_query (asks_anyTarget hr hacyclic kind s t)).andThen fun _ => asks_pure _
  | dispatch site =>
    have hdispatch : Asks h (Action.dispatch site) (gathered (h.lookupsFor site)) :=
      (asks_report _).bind fun _ => asks_query (asks_dispatch hr hacyclic site)
    exact hdispatch.andThen fun _ => asks_pure _
  | isPolymorphic site =>
    refine (asks_report _).bind fun _ => ?_
    exact (asks_query (asks_isPolymorphic hr hacyclic site)).andThen fun _ => asks_pure _
  | callTarget site => exact (callTarget_asks hr hacyclic site).andThen fun _ => asks_pure _
  | sameTarget a b =>
    -- the second site is dispatched only if the first one met no fault
    refine (callTarget_asks hr hacyclic a).bind fun _ => ?_
    exact (callTarget_asks hr hacyclic b).andThen fun _ => asks_pure _
  | callTargets => exact absurd rfl hbatch
  | _ => cases hrequest

omit hr hacyclic in
/-- A batch is carried out with the memo of the session, and leaves its own there. -/
theorem answer_batch (sites : List CallSite) (sharing : Sharing) {session : Session}
    (hsession : session.hierarchy = h) :
    ((answer (.callTargets sites sharing)).run.run session).2.hierarchy = h
      ∧ ((answer (.callTargets sites sharing)).run.run session).2.memo
          = (h.batch sites sharing session.memo).2.memo := by
  have hanswer : (answer (.callTargets sites sharing)).run.run session
      = ((sites.forM fun site => report (.dispatching site)) >>= fun _ =>
          query (·.callTargets sites sharing) >>= fun calls =>
            pure (Answer.callTargets calls (.ofTargets calls)) : Action Answer).run.run session :=
    rfl
  rw [hanswer, ExceptT.run_bind, StateT.run_bind]
  -- the sites are reported before they are dispatched
  rcases asks_reports sites session hsession with ⟨hresult, hmemo, hhierarchy⟩
  rcases hrun : ((sites.forM fun site => report (.dispatching site)) : Action Unit).run.run session
    with ⟨result, after⟩
  rw [hrun] at hresult hmemo hhierarchy
  cases result with
  | error failure => cases hresult
  | ok _ =>
    obtain rfl : after.hierarchy = h := hhierarchy
    have hmemo : after.memo = session.memo := hmemo
    have hquery := run_query_bind_pure (·.callTargets sites sharing)
      (fun calls => Answer.callTargets calls (.ofTargets calls)) after
    rw [hmemo, outcome_callTargets_eq] at hquery
    have hkept := congrArg Session.hierarchy hquery
    have hleft := congrArg Session.memo hquery
    exact ⟨hkept, hleft⟩

/-- The answer to a request says what it does to the session. -/
theorem answer_memo {session : Session} {request : Request} (hsession : session.hierarchy = h)
    (hrequest : request.isInquiry) :
    ((answer request).run.run session).2.hierarchy = h
      ∧ ((answer request).run.run session).2.memo = request.memoAfter h session.memo := by
  by_cases hbatch : request.isBatch
  · cases request with
    | callTargets sites sharing => exact answer_batch sites sharing hsession
    | _ => cases hbatch
  rw [Request.memoAfter_of_not_isBatch hbatch]
  by_cases hres : request.isResolution
  · rcases answer_asks hr hacyclic hres hbatch session hsession with ⟨-, hmemo, hhierarchy⟩
    rw [if_pos hres]
    exact ⟨hhierarchy, hmemo⟩
  · rw [if_neg hres]
    cases request with
    | consult t s => exact ⟨hsession, rfl⟩
    | forget => exact ⟨hsession, rfl⟩
    | _ =>
      have hidle : Ensures (fun after : Session => after.hierarchy = h ∧ after.memo = session.memo)
          (fun _ => True) (answer _) :=
        answer_aside hrequest hres (fun _ _ hafter => hafter) (fun _ hafter => hafter)
      exact (hidle session ⟨hsession, rfl⟩).2

/-! ## Runs -/

/-- A request keeps the hierarchy, and its lookups say what it does to the memo. -/
theorem step_memo {session : Session} {request : Request} (hsession : session.hierarchy = h)
    (hrequest : request.isInquiry) :
    (session.step request).2.hierarchy = h
      ∧ (session.step request).2.memo = request.memoAfter h session.memo := by
  have hstep : (session.step request).2
      = ((answer request).run.run { session with events := #[] }).2 :=
    congrArg Prod.snd (step_eq session request)
  rw [hstep]
  exact answer_memo hr hacyclic hsession hrequest

/-- Requests keep the hierarchy, and go on with the memo that the one before left. -/
theorem after_memo {session : Session} (hsession : session.hierarchy = h) {requests : List Request}
    (hrequests : ∀ request ∈ requests, request.isInquiry) :
    (session.after requests).hierarchy = h
      ∧ (session.after requests).memo = requests.foldl (Request.memoAfter h) session.memo := by
  induction requests generalizing session with
  | nil => exact ⟨hsession, rfl⟩
  | cons request requests ih =>
    rcases List.forall_mem_cons.mp hrequests with ⟨hfirst, hrest⟩
    rcases step_memo hr hacyclic hsession hfirst with ⟨hhierarchy, hmemo⟩
    rw [List.foldl_cons, ← hmemo]
    exact ih hhierarchy hrest

/-- What resolutions and batches keep is kept by all requests, if asking the memo by hand keeps it and
the empty memo has it, as far as the requests do so. -/
theorem after_keeps {inv : Memo → Prop} {session : Session} (hsession : session.hierarchy = h)
    {requests : List Request} (hrequests : ∀ request ∈ requests, request.isInquiry)
    (hresolve : ∀ memo t s, inv memo → inv ((h.resolve t s).outcome memo).2)
    (hbatch : ∀ memo sites sharing, inv memo → inv (h.batch sites sharing memo).2.memo)
    (hconsult : ∀ t s, .consult t s ∈ requests → ∀ memo, inv memo → inv (memo.consult s t).2)
    (hforget : .forget ∈ requests → inv ∅) (hinv : inv session.memo) :
    inv (session.after requests).memo := by
  rw [(after_memo hr hacyclic hsession hrequests).2]
  refine List.foldlRecOn requests _ hinv fun memo hmemo request hrequest => ?_
  apply Request.memoAfter_keeps hresolve (hbatch memo) _ _ hmemo
  · rintro t s rfl
    exact hconsult t s hrequest memo hmemo
  · rintro rfl
    exact hforget hrequest

end Acyclic

end Session

end ClassHierarchy

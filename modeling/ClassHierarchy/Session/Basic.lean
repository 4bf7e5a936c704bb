import ClassHierarchy.Hierarchy.Implementors
import ClassHierarchy.Program.Validation
import ClassHierarchy.Session.Request

/-!
# Sessions

A session builds the hierarchy of a program and answers requests one after the other. The requests
share one memo, so what one of them found shortens the next, and every reply shows the memo as it
stands after the request.

* A request that fails leaves the session as far as it got, and the next request goes on from there.
* A batch of call sites in which one fails is abandoned: its reply is the failure alone, and no
  further request is answered.
-/

namespace ClassHierarchy

/-- A program, its hierarchy, and what was remembered and reported so far. -/
structure Session where
  program : Program
  hierarchy : Hierarchy
  memo : Memo := ∅
  /-- The events since the last reply. -/
  events : Array Event := #[]

/-- What a session gives back for a request. -/
inductive Reply where
  /-- The request was carried out, with success or not, and left this memo and these events. -/
  | completed (result : Except Failure Answer) (memo : Memo) (events : List Event)
  /-- The request failed and took the session with it. -/
  | abandoned (failure : Failure)

/-- What became of the request. -/
def Reply.result : Reply → Except Failure Answer
  | completed result _ _ => result
  | abandoned failure => .error failure

namespace Session

/-- A piece of work on a session. A failure keeps what was done to the session before it. -/
abbrev Action := ExceptT Failure (StateM Session)

namespace Action

/-- Reports an event. -/
def report (e : Event) : Action Unit :=
  modify fun session => { session with events := session.events.push e }

/-- An outcome that may be a program error. -/
def ofProgram {α : Type} : Except ProgramError α → Action α
  | .ok a => pure a
  | .error error => throw (.program error)

/-- An outcome that may be a fault. -/
def ofFault {α : Type} : Except Fault α → Action α
  | .ok a => pure a
  | .error fault => throw (.fault fault)

/-- Carries out a query with the memo of the session. -/
def query {α : Type} (q : Hierarchy → Query α) : Action α := do
  let session ← get
  let (outcome, memo) := (q session.hierarchy).outcome session.memo
  set { session with memo }
  ofFault outcome

/-- Replaces the hierarchy by a new one of the same program, and the memo by an empty one. -/
def rebuild (options : Options) : Action Unit := do
  let program := (← get).program
  let hierarchy := Hierarchy.build program options
  modify fun session => { session with hierarchy, memo := ∅ }
  (hierarchy.buildEvents program).forM report

/-- Dispatches a call site and reports it. -/
def dispatch (site : CallSite) : Action Targets := do
  report (.dispatching site)
  query (·.dispatch site)

/-- Dispatches a call site, reports it and tells what becomes of it. -/
def callTarget (site : CallSite) : Action CallTarget := do
  report (.dispatching site)
  query (·.callTarget site)

/-- Searches the implementors of a type; the search is reported when it has come to its end. -/
def searchImplementors (t : TypeName) (s : Signature) : Action (List Method) := do
  let h := (← get).hierarchy
  let methods ← ofFault (h.implementationsOf t s)
  report (.searched t s (h.implementorRoots t).length methods.length)
  return methods

/-- Answers a request. -/
def answer (request : Request) : Action Answer := do
  let session ← get
  let h := session.hierarchy
  match request with
  | .validate => do
    ofProgram session.program.validate
    return .valid
  | .classNamed t => return .definition? (← ofProgram (session.program.classNamed t))
  | .programTypes => return .programTypes session.program.types
  | .superclass t => return .type? (h.superclass? t)
  | .subclasses t => return .types (h.subclasses t)
  | .allSubclasses t => return .types (← ofFault (h.allSubclasses t))
  | .properSubclasses t => return .types (← ofFault (h.properSubclasses t))
  | .implementations t => return .types (h.implementations t)
  | .subinterfaces t => return .types (h.subinterfaces t)
  | .allImplementations t => return .types (h.allImplementations t)
  | .definition t => return .definition? (h.definition? t)
  | .superclassDefinition t => return .definition? (h.superclassDefinition? t)
  | .isInterface t => return .flag (h.isInterface t)
  | .isFinal t => return .flag (h.isFinal t)
  | .roots => return .types (h.roots.map ClassDef.name)
  | .types => return .types (h.classes.map ClassDef.name)
  | .stats => return .stats (.of h session.memo)
  | .options => return .options h.options
  | .declared t s => return .method? (← ofFault (h.declared t s))
  | .resolve t s => return .method? (← query (·.resolve t s))
  | .resolveSuper t s => return .method? (← query (·.resolveSuper t s))
  | .anyTarget kind s t => return .targets (← query (·.anyTarget kind s t))
  | .implementationsOf t s => return .methods (← searchImplementors t s)
  | .dispatch site => return .targets (← dispatch site)
  | .isPolymorphic site => do
    report (.dispatching site)
    return .flag (← query (·.isPolymorphic site))
  | .callTarget site => return .callTarget (← callTarget site)
  | .sameTarget a b => do
    let first ← callTarget a
    let second ← callTarget b
    return .flag (first.same second)
  | .callTargets sites sharing => do
    sites.forM fun site => report (.dispatching site)
    let calls ← query (·.callTargets sites sharing)
    return .callTargets calls (.ofTargets calls)
  | .consult t s => do
    let (answer, memo) := session.memo.consult s t
    set { session with memo }
    return .remembered answer
  | .remember t s answer => do
    set { session with memo := session.memo.insert s t answer }
    return .done
  | .forget => do
    set { session with memo := ∅ }
    return .done
  | .rebuild options => do
    rebuild options
    return .options options

end Action

/-! ## Steps -/

/-- Carries out a request: its reply, and the session that it leaves. -/
def step (session : Session) (request : Request) : Reply × Session :=
  let (result, after) :=
    Id.run (StateT.run (ExceptT.run (Action.answer request)) { session with events := #[] })
  match request, result with
  | .callTargets _ _, .error failure => (.abandoned failure, after)
  | _, _ => (.completed result after.memo after.events.toList, after)

/-- The session after a list of requests; it can be asked on even where a reply was abandoned. -/
def after (session : Session) (requests : List Request) : Session :=
  requests.foldl (fun session request => (session.step request).2) session

/-- Carries out requests in order, up to one that is abandoned. -/
def run : Session → List Request → List Reply
  | _, [] => []
  | session, request :: rest =>
    match session.step request with
    | (.abandoned failure, _) => [.abandoned failure]
    | (reply, after) => reply :: run after rest

/-- A session on a program, with nothing remembered. -/
def start (p : Program) (options : Options := {}) : Session :=
  let hierarchy := Hierarchy.build p options
  { program := p, hierarchy, events := (hierarchy.buildEvents p).toArray }

/-- The replies of a session on a program, that to its start before those to the requests. -/
def transcript (p : Program) (options : Options) (requests : List Request) : List Reply :=
  let session := start p options
  .completed (.ok .done) session.memo session.events.toList :: session.run requests

end Session

end ClassHierarchy

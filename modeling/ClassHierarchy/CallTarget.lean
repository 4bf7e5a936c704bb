import ClassHierarchy.CallSite
import ClassHierarchy.Resolution.Interleaved
import ClassHierarchy.Targets

/-!
# Dispatch

The methods that may run for a call site. A super call and a receiver of known type have at most one
target. A receiver that is only bounded by a type may be an instance of any subtype, so its targets
are what the signature means for the type and for each of its transitive subclasses, in pre-order.

A `CallTarget` is what is known of a call once it is dispatched: the one method that runs, the several
that may run, or the signature that nothing answers.
-/

namespace ClassHierarchy

/-! ## Targets of a call -/

namespace Hierarchy

/-- The type from which the subtypes are enumerated; a super call looks one level up. -/
def enumerationStart (h : Hierarchy) (kind : InvokeKind) (t : TypeName) : TypeName :=
  if kind.isSuper then (h.superclass? t).getD t else t

/-- What a signature means for a type and for all its subtypes. A subtype for which it means nothing
does not stop the search, as a deeper one may define the method. -/
def anyTarget (h : Hierarchy) (kind : InvokeKind) (s : Signature) (t : TypeName) :
    Query Targets := do
  let types ← Query.ofExcept (h.allSubclasses (h.enumerationStart kind t))
  let found ← types.mapM (h.resolve · s)
  return .ofList (found.filterMap id)

/-- The methods that may run for a call site. -/
def dispatch (h : Hierarchy) (site : CallSite) : Query Targets :=
  match site.policy with
  | .above declaring => Targets.ofOption <$> h.resolveSuper declaring site.signature
  | .exact receiver => Targets.ofOption <$> h.resolve receiver site.signature
  | .below bound => h.anyTarget site.kind site.signature bound

/-- More than one method may run. -/
def isPolymorphic (h : Hierarchy) (site : CallSite) : Query Bool :=
  (fun targets => decide (1 < targets.size)) <$> h.dispatch site

end Hierarchy

/-! ## Calls -/

/-- The outcome of dispatching a call. -/
inductive CallTarget where
  /-- Just this method runs. -/
  | resolved (method : Method)
  /-- One of several methods runs, depending on the receiver. -/
  | virtual (declared : Signature) (targets : Targets)
  /-- Nothing answers the signature. -/
  | unresolved (declared : Signature)

namespace CallTarget

/-- The outcome for the targets of a call that names a signature. -/
def ofTargets (declared : Signature) (targets : Targets) : CallTarget :=
  match targets.single? with
  | some m => resolved m
  | none => if targets.isEmpty then unresolved declared else virtual declared targets

/-- Some method runs. -/
def isResolved : CallTarget → Bool
  | resolved _ | virtual _ _ => true
  | unresolved _ => false

/-- The method that runs depends on the receiver. -/
def isPolymorphic : CallTarget → Bool
  | virtual _ _ => true
  | resolved _ | unresolved _ => false

/-- All methods that may run, in the order in which they were found. -/
def targets : CallTarget → List Method
  | resolved m => [m]
  | virtual _ ts => ts.toList
  | unresolved _ => []

/-- The signature that the call names; a resolved call has no more use for it. -/
def declared? : CallTarget → Option Signature
  | resolved _ => none
  | virtual s _ | unresolved s => some s

/-- The same case with the same methods, whatever their order and modifiers. -/
def same : CallTarget → CallTarget → Bool
  | resolved m, resolved n => m.same n
  | virtual s ts, virtual r us => s = r && ts.same us
  | unresolved s, unresolved r => s = r
  | _, _ => false

end CallTarget

namespace Hierarchy

/-- Dispatches a call site. -/
def callTarget (h : Hierarchy) (site : CallSite) : Query CallTarget :=
  CallTarget.ofTargets site.signature <$> h.dispatch site

end Hierarchy

/-! ## Batches

The call sites of a batch are dispatched by workers that share the memo. Every worker takes some
neighbouring sites and dispatches them in order, up to one that meets a fault; the workers take their
steps in any order. -/

/-- How a batch is shared among workers. -/
structure Sharing where
  /-- How many sites the workers take, one worker after the other; the last one takes what is left. -/
  shares : List Nat := []
  /-- The worker that takes the next step, for as many steps as one likes. What is left to do then is
  done worker by worker. -/
  turns : List Nat := []
  deriving DecidableEq, Repr, Inhabited

/-- A list cut into neighbouring parts of so many members, and what is left. -/
def cut {α : Type} : List Nat → List α → List (List α)
  | [], xs => [xs]
  | n :: ns, xs => xs.take n :: cut ns (xs.drop n)

namespace Hierarchy

/-- The lookup of a signature above a type, if the type has a parent. -/
def lookupsAbove (h : Hierarchy) (t : TypeName) (s : Signature) : List Lookup :=
  (h.superclass? t).toList.map fun parent => ⟨s, parent⟩

/-- The lookups of a signature for a type and for all its subtypes, in pre-order. -/
def lookupsBelow (h : Hierarchy) (kind : InvokeKind) (s : Signature) (t : TypeName) :
    Except Fault (List Lookup) :=
  (h.allSubclasses (h.enumerationStart kind t)).map fun types => types.map fun u => ⟨s, u⟩

/-- The lookups that the dispatch of a call site takes. -/
def lookupsFor (h : Hierarchy) (site : CallSite) : Except Fault (List Lookup) :=
  match site.policy with
  | .above declaring => .ok (h.lookupsAbove declaring site.signature)
  | .exact receiver => .ok [⟨site.signature, receiver⟩]
  | .below bound => h.lookupsBelow site.kind site.signature bound

/-- The dispatch of a call site, lookup by lookup. -/
def callPlan (h : Hierarchy) (site : CallSite) : Plan CallTarget := do
  let lookups ← Plan.done (h.lookupsFor site)
  let found ← lookups.mapM Plan.lookup
  return .ofTargets site.signature (.ofList (found.filterMap id))

/-- The workers of a batch before their first steps. -/
def crew (h : Hierarchy) (sites : List CallSite) (shares : List Nat) (memo : Memo) :
    Crew (List CallTarget) where
  pool := { memo }
  workers := (cut shares sites).map fun part => { plan := part.mapM h.callPlan }

/-- Carries out a batch: what becomes of the sites of each worker, and all resolutions that were made. -/
def batch (h : Hierarchy) (sites : List CallSite) (sharing : Sharing) (memo : Memo) :
    List (Except Fault (List CallTarget)) × Pool :=
  ((h.crew sites sharing.shares memo).run h sharing.turns).finish h

/-- Dispatches many call sites. Of several faults the one at the first site counts. -/
def callTargets (h : Hierarchy) (sites : List CallSite) (sharing : Sharing := {}) :
    Query (List CallTarget) := do
  let (outcomes, pool) := h.batch sites sharing (← get)
  set pool.memo
  .ofExcept (List.flatten <$> outcomes.mapM id)

end Hierarchy

end ClassHierarchy

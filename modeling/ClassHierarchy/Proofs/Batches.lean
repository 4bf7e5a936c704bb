import ClassHierarchy.CallTarget.Figures
import ClassHierarchy.Proofs.NearestAncestor
import ClassHierarchy.Proofs.OpenReceivers
import ClassHierarchy.Proofs.Transparency

/-!
# Batches of call sites

The sites of a batch are dispatched by workers that share a memo. In every order of their steps the memo
stays honest, so every site has the targets that it has when it is dispatched alone, and what becomes of
the call follows from their number. The figures over the calls say how many there are of each kind.

* `tells_ofTargets`: what becomes of a call, by the number of its targets.
* `exists_targetsOf`: where all methods have a receiver every call site has targets, maybe none.
* `outcome_callTargets`, `outcome_mapM_callTarget`: so a batch has a call for every site, the same
  whether it is shared or its sites are dispatched one after the other.
* `summarizes_ofTargets`: the figures count the calls, also those that were put together by hand.
* `ofTargets_of_perm`: they do not depend on the order.
-/

namespace ClassHierarchy

/-! ## Calls -/

/-- The call is what becomes of a signature with these targets. -/
structure CallTarget.Tells (call : CallTarget) (s : Signature) (targets : Targets) : Prop where
  targets_eq : call.targets = targets.toList
  unresolved_iff : call = .unresolved s ↔ targets.size = 0
  resolved_iff : (∃ m, call = .resolved m) ↔ targets.size = 1
  virtual_iff : call = .virtual s targets ↔ 1 < targets.size
  isResolved_eq : call.isResolved = decide (0 < targets.size)
  isPolymorphic_eq : call.isPolymorphic = decide (1 < targets.size)

/-- A call made from targets tells all there is to say of them. -/
theorem CallTarget.tells_ofTargets (s : Signature) (targets : Targets) :
    (ofTargets s targets).Tells s targets := by
  have hempty := targets.isEmpty_eq
  have hsize := targets.size_eq_length
  -- no target, one target, and more of them
  rcases hlist : targets.toList with _ | ⟨m, _ | ⟨n, rest⟩⟩
  · have hcall : ofTargets s targets = .unresolved s := by
      simp [ofTargets, Targets.single?, hempty, hlist]
    rw [hlist, List.length_nil] at hsize
    constructor <;> simp [hcall, hsize, hlist, CallTarget.targets, isResolved, isPolymorphic]
  · have hcall : ofTargets s targets = .resolved m := by
      simp [ofTargets, Targets.single?, hlist]
    rw [hlist, List.length_singleton] at hsize
    constructor <;> simp [hcall, hsize, hlist, CallTarget.targets, isResolved, isPolymorphic]
  · have hcall : ofTargets s targets = .virtual s targets := by
      simp [ofTargets, Targets.single?, hempty, hlist]
    rw [hlist, List.length_cons, List.length_cons] at hsize
    constructor <;> simp [hcall, hsize, CallTarget.targets, isResolved, isPolymorphic]

namespace Hierarchy

variable {h : Hierarchy} {p : Program} {memo : Memo}

/-! ## Batches -/

section Receivers

variable (hr : h.Represents p) (hacyclic : p.Acyclic)
include hr hacyclic

/-- Where all methods have a receiver, every call site has its targets. -/
theorem exists_targetsOf (hreceivers : p.HasReceivers) :
    ∃ targets : CallSite → Targets, ∀ site, h.targetsOf site = .ok (targets site) := by
  have hsite : ∀ site, ∃ targets, h.targetsOf site = .ok targets := by
    intro site
    have hmeans := (Query.ensures_iff.mp (dispatch_means hr hacyclic site) ∅ honest_empty).1
    have hfails := (Query.ensures_iff.mp (dispatch_safe hr hacyclic site) ∅ trivial).1
    rw [← hmeans]
    exact hfails.exists_ok hreceivers.not_fault
  exact ⟨_, fun site => (hsite site).choose_spec⟩

variable {targets : CallSite → Targets} (htargets : ∀ site, h.targetsOf site = .ok (targets site))
  (hhonest : h.Honest memo)
include htargets hhonest

/-- With an honest memo a dispatch has the targets that it has without one. -/
theorem outcome_dispatch (site : CallSite) :
    ((h.dispatch site).outcome memo).1 = .ok (targets site) := by
  rw [← htargets site]
  exact (Query.ensures_iff.mp (dispatch_means hr hacyclic site) memo hhonest).1

/-- A call is polymorphic if it has more than one target. -/
theorem outcome_isPolymorphic (site : CallSite) :
    ((h.isPolymorphic site).outcome memo).1 = .ok (decide (1 < (targets site).size)) := by
  have hmeans := (Query.ensures_iff.mp (isPolymorphic_means hr hacyclic site) memo hhonest).1
  rw [hmeans, htargets]
  rfl

omit hr hacyclic hhonest in
/-- What becomes of call sites one by one. -/
theorem mapM_callOf (sites : List CallSite) :
    sites.mapM h.callOf = .ok (sites.map fun site => .ofTargets site.signature (targets site)) := by
  have hcalls : h.callOf = fun site => pure (.ofTargets site.signature (targets site)) := by
    funext site
    rw [callOf, htargets]
    rfl
  rw [hcalls, List.mapM_pure]
  rfl

/-- However a batch is shared, it gives for every site what becomes of it alone. -/
theorem outcome_callTargets (sites : List CallSite) (sharing : Sharing) :
    ((h.callTargets sites sharing).outcome memo).1
      = .ok (sites.map fun site => .ofTargets site.signature (targets site)) := by
  rw [← mapM_callOf htargets]
  exact (Query.ensures_iff.mp (callTargets_means hr hacyclic sites sharing) memo hhonest).1

/-- So it is where one site is dispatched after the other. -/
theorem outcome_mapM_callTarget (sites : List CallSite) :
    ((sites.mapM h.callTarget).outcome memo).1
      = .ok (sites.map fun site => .ofTargets site.signature (targets site)) := by
  rw [← mapM_callOf htargets]
  have hmeans := ensures_mapM_eq (callTarget_means hr hacyclic) sites
  exact (Query.ensures_iff.mp hmeans memo hhonest).1

end Receivers

end Hierarchy

/-! ## Figures -/

namespace SiteFigures

/-- The figures count the calls of a list. -/
structure Summarizes (figures : SiteFigures) (calls : List CallTarget) : Prop where
  total : figures.total = calls.length
  resolved_eq_add : figures.resolved = figures.monomorphic + figures.polymorphic
  resolved : figures.resolved = calls.countP CallTarget.isResolved
  polymorphic : figures.polymorphic = calls.countP CallTarget.isPolymorphic
  /-- The most targets of a call, and none where there is no call. -/
  maxTargets : figures.maxTargets = (calls.map fun call => call.targets.length).max?.getD 0

theorem max?_getD_cons (n : Nat) (ns : List Nat) :
    (n :: ns).max?.getD 0 = max n (ns.max?.getD 0) := by
  rw [List.max?_cons]
  cases ns.max? <;> simp

/-- The greatest of two lists is the greater one of the two greatest. -/
theorem max?_getD_append (ms ns : List Nat) :
    (ms ++ ns).max?.getD 0 = max (ms.max?.getD 0) (ns.max?.getD 0) := by
  induction ms with
  | nil => simp
  | cons m ms ih => rw [List.cons_append, max?_getD_cons, max?_getD_cons, ih, Nat.max_assoc]

/-- Figures of two lists merge to figures of both together. -/
theorem Summarizes.merge {a b : SiteFigures} {xs ys : List CallTarget} (ha : a.Summarizes xs)
    (hb : b.Summarizes ys) : (a.merge b).Summarizes (xs ++ ys) := by
  constructor
  case total => simp [SiteFigures.merge, ha.total, hb.total]
  case resolved_eq_add =>
    simp only [SiteFigures.merge, ha.resolved_eq_add, hb.resolved_eq_add]
    omega
  case resolved => simp [SiteFigures.merge, ha.resolved, hb.resolved]
  case polymorphic => simp [SiteFigures.merge, ha.polymorphic, hb.polymorphic]
  case maxTargets =>
    rw [SiteFigures.merge, ha.maxTargets, hb.maxTargets, List.map_append, max?_getD_append]

/-- A single call, also one that was put together by hand and has fewer targets than it should. -/
theorem summarizes_singleton (call : CallTarget) : (ofTargets [call]).Summarizes [call] := by
  cases call with
  | resolved m => exact ⟨rfl, rfl, rfl, rfl, rfl⟩
  | unresolved s => exact ⟨rfl, rfl, rfl, rfl, rfl⟩
  | virtual s ts =>
    refine ⟨rfl, rfl, rfl, rfl, ?_⟩
    simp [ofTargets, count, complete, CallTarget.targets, Targets.size_eq_length]

/-- The figures that are counted call by call sum up all calls. -/
theorem summarizes_ofTargets (calls : List CallTarget) : (ofTargets calls).Summarizes calls := by
  induction calls with
  | nil => exact ⟨rfl, rfl, rfl, rfl, rfl⟩
  | cons call calls ih =>
    have happend := ofTargets_append [call] calls
    rw [List.singleton_append] at happend
    rw [happend]
    exact (summarizes_singleton call).merge ih

/-- Two calls may be counted in either order. -/
theorem count_right_comm (figures : SiteFigures) (a b : CallTarget) :
    (figures.count a).count b = (figures.count b).count a := by
  cases a with
  | virtual s ts =>
    cases b with
    | virtual r us => simp only [count, Nat.max_assoc, Nat.max_comm ts.size]
    | _ => rfl
  | _ => cases b <;> rfl

/-- The order of the calls makes no difference to the figures. -/
theorem ofTargets_of_perm {xs ys : List CallTarget} (hperm : xs.Perm ys) :
    ofTargets xs = ofTargets ys := by
  unfold ofTargets
  rw [hperm.length_eq, hperm.foldl_eq' fun a _ b _ figures => count_right_comm figures a b]

end SiteFigures

namespace Session

open Hierarchy

/-- A batch has a call for every site, the same ones after any requests, in every division among workers
and every order of their steps, and also where one site is dispatched after the other. A call has the
targets that the site has on a hierarchy of which nothing was asked yet, and is of the kind that their
number makes it. Figures over any calls count them, and those of several groups add up. -/
theorem batch_faithful (p : Program) (options : Options) (hacyclic : p.Acyclic)
    (hreceivers : p.HasReceivers) (sites : List CallSite) :
    let h := build p options
    (∃ calls,
      (∀ before, (∀ request ∈ before, request.isInquiry) →
        let memo := ((start p options).after before).memo
        (∀ sharing, ((h.callTargets sites sharing).outcome memo).1 = .ok calls)
        ∧ ((sites.mapM h.callTarget).outcome memo).1 = .ok calls
        -- while the workers are at work, nothing is remembered but what is so
        ∧ ∀ shares turns, h.Honest ((h.crew sites shares memo).run h turns).pool.memo)
      ∧ calls.length = sites.length
      ∧ ∀ (i : Nat) (site : CallSite) (call : CallTarget), sites[i]? = some site →
          calls[i]? = some call → ∃ targets, ((h.dispatch site).outcome ∅).1 = .ok targets
            ∧ call.Tells site.signature targets
            -- the site is polymorphic, or not, whenever it is asked
            ∧ ∀ later, (∀ request ∈ later, request.isInquiry) →
                ((h.isPolymorphic site).outcome ((start p options).after later).memo).1
                  = .ok call.isPolymorphic)
    ∧ (∀ calls, (SiteFigures.ofTargets calls).Summarizes calls)
    ∧ ∀ xs ys calls, calls.Perm (xs ++ ys) →
        SiteFigures.ofTargets calls = (SiteFigures.ofTargets xs).merge (.ofTargets ys) := by
  intro h
  have hr : h.Represents p := represents_build p options
  have hhonest : ∀ requests, (∀ request ∈ requests, request.isInquiry) →
      h.Honest ((start p options).after requests).memo := fun requests hrequests =>
    (after_sound hr hacyclic (sound_start p options) hrequests).2
  rcases exists_targetsOf hr hacyclic hreceivers with ⟨targets, htargets⟩
  refine ⟨⟨sites.map fun site => .ofTargets site.signature (targets site), ?_, List.length_map _, ?_⟩,
    SiteFigures.summarizes_ofTargets, ?_⟩
  · intro before hbefore memo
    have hmemo : h.Honest memo := hhonest before hbefore
    refine ⟨outcome_callTargets hr hacyclic htargets hmemo sites,
      outcome_mapM_callTarget hr hacyclic htargets hmemo sites, fun shares turns => ?_⟩
    exact (run_crew_sound hr hacyclic hmemo sites shares turns).1
  · intro i site call hsite hcall
    rw [List.getElem?_map, hsite, Option.map_some, Option.some.injEq] at hcall
    subst hcall
    have htells := CallTarget.tells_ofTargets site.signature (targets site)
    refine ⟨targets site, outcome_dispatch hr hacyclic htargets honest_empty site, htells, ?_⟩
    intro later hlater
    rw [htells.isPolymorphic_eq]
    exact outcome_isPolymorphic hr hacyclic htargets (hhonest later hlater) site
  · intro xs ys calls hperm
    rw [SiteFigures.ofTargets_of_perm hperm, SiteFigures.ofTargets_append]

section Example

open Shapes Hierarchy

/-- The area of a parameter, the area of a new ring, and an area that no shape has. -/
def areaCalls : List CallSite :=
  [areaOfParameter, { areaOfParameter with receiver := .allocated ring },
    { areaOfParameter with signature := scaledArea }]

/-- Two workers ask about all shapes at the same time, while the memo has the area of a ring already. -/
theorem batch_faithful_shapes :
    let h := build Shapes.program
    let before := [.resolve disk area, .isPolymorphic areaOfParameter]
    let memo := ((start Shapes.program).after before).memo
    let sharing : Sharing := { shares := [1], turns := [0, 1, 0, 1, 1, 0, 1] }
    Shapes.program.Acyclic ∧ Shapes.program.HasReceivers ∧ (∀ request ∈ before, request.isInquiry)
    ∧ memo.find? area ring = some (some (.declaredBy ring area))
    ∧ ∃ calls, ((h.callTargets areaCalls sharing).outcome memo).1 = .ok calls
      ∧ ((areaCalls.mapM h.callTarget).outcome memo).1 = .ok calls
      ∧ calls.map CallTarget.targets
        = [[.declaredBy shape area, .declaredBy ring area, .declaredBy blob area],
          [.declaredBy ring area], []]
      ∧ (∀ (i : Nat) (site : CallSite) (call : CallTarget), areaCalls[i]? = some site →
          calls[i]? = some call → ∃ targets, ((h.dispatch site).outcome ∅).1 = .ok targets
            ∧ call.Tells site.signature targets)
      ∧ (SiteFigures.ofTargets calls).Summarizes calls := by
  intro h before memo sharing
  have hacyclic : Shapes.program.Acyclic := acyclic_programWith _
  have hreceivers : Shapes.program.HasReceivers := by decide
  have hbefore : ∀ request ∈ before, request.isInquiry := by decide
  have hmemo : memo.find? area ring = some (some (.declaredBy ring area)) := by decide +kernel
  have htargets : ((h.callTargets areaCalls sharing).outcome memo).1.map (List.map CallTarget.targets)
      = .ok [[.declaredBy shape area, .declaredBy ring area, .declaredBy blob area],
          [.declaredBy ring area], []] := by
    decide +kernel
  rcases batch_faithful Shapes.program {} hacyclic hreceivers areaCalls with
    ⟨⟨calls, hcalls, -, hsites⟩, hfigures, -⟩
  obtain ⟨hshared, honeByOne, -⟩ := hcalls before hbefore
  rw [hshared sharing] at htargets
  refine ⟨hacyclic, hreceivers, hbefore, hmemo, calls, hshared sharing, honeByOne,
    Except.ok.inj htargets, ?_, hfigures calls⟩
  intro i site call hsite hcall
  rcases hsites i site call hsite hcall with ⟨targets, hdispatch, htells, -⟩
  exact ⟨targets, hdispatch, htells⟩

end Example

end Session

end ClassHierarchy

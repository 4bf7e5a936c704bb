import ClassHierarchy.Proofs.Closure
import ClassHierarchy.Proofs.Lookups

/-!
# What was resolved once

What is remembered has no gaps after any requests, and stays remembered until the memo is emptied. So
once a signature was resolved for a type, all types on the way to the method are remembered, and a
resolution for one of them asks the memo once and does nothing else.

* `MemoRun`: what requests do to a memo between two times that it is emptied.
* `MemoRun.remembers`, `MemoRun.gapless`: on a run nothing is forgotten, and no gap is left.
* `Gapless.settled`: without gaps, a type that is remembered settles all types on the way to the method.
* `after_gapless`, `after_memoRun`: the requests of a session are runs of its memo.
-/

namespace ClassHierarchy

open Relation (ReflTransGen)

namespace Hierarchy

variable {h : Hierarchy} {p : Program} {memo later : Memo} {s : Signature} {t u : TypeName}

/-! ## Runs of a memo -/

/-- One thing that requests do to a memo, short of emptying it. -/
inductive MemoStep (h : Hierarchy) : Memo → Memo → Prop where
  /-- A resolution, made for itself or by another query, with or without success. -/
  | resolve (memo : Memo) (t : TypeName) (s : Signature) :
      MemoStep h memo ((h.resolve t s).outcome memo).2
  /-- A batch of call sites, in any order of its steps. -/
  | batch (memo : Memo) (sites : List CallSite) (sharing : Sharing) :
      MemoStep h memo (h.batch sites sharing memo).2.memo
  /-- A question to the memo itself. -/
  | consult (memo : Memo) (s : Signature) (t : TypeName) : MemoStep h memo (memo.consult s t).2

/-- The memo has come to be `later`, and was not emptied in the meantime. -/
abbrev MemoRun (h : Hierarchy) : Memo → Memo → Prop :=
  ReflTransGen h.MemoStep

/-- As long as the memo is not emptied, a resolution for any type on the way from this one to the method
adds a hit, and nothing else. -/
def Settled (h : Hierarchy) (memo : Memo) (s : Signature) (t : TypeName) : Prop :=
  ∀ later, h.MemoRun memo later → ∀ nearer u farther,
    Chain h.superclass? t (nearer ++ u :: farther) → (∀ b ∈ nearer, ¬ h.ListsAnswer b s) →
    ∃ found, (h.resolve u s).outcome later = (.ok found, { later with hits := later.hits + 1 })

/-- To ask the memo is not to tell it something. -/
theorem remembers_consult (r : Signature) (u : TypeName) :
    (memo.consult r u).2.Remembers s t ↔ memo.Remembers s t := by
  rw [Memo.Remembers, Memo.find?_consult, Memo.Remembers]

/-- Lookups that are made one after the other are a run of the memo, also if one of them meets a
fault. -/
theorem memoRun_askAll (memo : Memo) (asked : List Lookup) :
    h.MemoRun memo ((h.askAll asked).outcome memo).2 :=
  askAll_keeps (fun mid t s hrun => hrun.tail (.resolve mid t s)) .refl asked

/-- Within a list of lookups the memo goes on from where the first ones left it. -/
theorem memoRun_askAll_append (memo : Memo) (front back : List Lookup) :
    h.MemoRun ((h.askAll front).outcome memo).2 ((h.askAll (front ++ back)).outcome memo).2 := by
  rw [askAll_append, Query.outcome_bind]
  rcases (h.askAll front).outcome memo with ⟨asked, within⟩
  cases asked with
  | ok _ => exact memoRun_askAll within back
  | error fault => exact .refl

theorem Gapless.consult (hgapless : h.Gapless memo) (r : Signature) (u : TypeName) :
    h.Gapless (memo.consult r u).2 :=
  fun s => (hgapless s).congr fun _ => remembers_consult r u

section MemoRun

variable (hr : h.Represents p) (hacyclic : p.Acyclic)
include hr hacyclic

/-- On a run nothing is forgotten. -/
theorem MemoRun.remembers (hrun : h.MemoRun memo later) (hmemo : memo.Remembers s t) :
    later.Remembers s t := by
  induction hrun with
  | refl => exact hmemo
  | tail _ hstep ih =>
    cases hstep with
    | resolve u r => exact remembers_resolve hr hacyclic ih u r
    | batch sites sharing => exact remembers_batch hr hacyclic ih sites sharing
    | consult r u => exact (remembers_consult r u).mpr ih

variable (hon : h.options.memoize = true)
include hon

/-- A run leaves no gap where there was none. -/
theorem MemoRun.gapless (hrun : h.MemoRun memo later) (hgapless : h.Gapless memo) :
    h.Gapless later := by
  induction hrun with
  | refl => exact hgapless
  | tail _ hstep ih =>
    cases hstep with
    | resolve u r => exact ih.resolve hon hr hacyclic u r
    | batch sites sharing => exact ih.batch hon hr hacyclic sites sharing
    | consult r u => exact ih.consult r u

/-- The types on the way from a remembered type to the method are not climbed from any more. -/
theorem Gapless.settled (hgapless : h.Gapless memo) (ht : memo.Remembers s t) :
    h.Settled memo s t := by
  intro later hrun nearer u farther hchain hnearer
  have hlater := hrun.gapless hr hacyclic hon hgapless
  have ht := hrun.remembers hr hacyclic ht
  exact outcome_resolve_of_remembers hon ((hlater s).of_chain hchain hnearer ht)

end MemoRun

end Hierarchy

/-! ## Sessions -/

/-- A request that resolves nothing makes no lookups. -/
theorem Request.lookups_eq_nil {request : Request} (h : Hierarchy) (hres : ¬ request.isResolution) :
    request.lookups h = [] := by
  cases request with
  | resolve | resolveSuper | anyTarget | dispatch | isPolymorphic | callTarget | sameTarget
  | callTargets => exact absurd rfl hres
  | _ => rfl

/-- While a request is carried out, the memo runs through what its first lookups leave. -/
theorem Request.memoRun_memoAfter {h : Hierarchy} {memo : Memo} {request : Request}
    {front back : List Lookup} (hforget : request ≠ .forget) (hbatch : ¬ request.isBatch)
    (hlookups : request.lookups h = front ++ back) :
    h.MemoRun memo ((h.askAll front).outcome memo).2
      ∧ h.MemoRun ((h.askAll front).outcome memo).2 (request.memoAfter h memo) := by
  refine ⟨Hierarchy.memoRun_askAll memo front, ?_⟩
  rw [memoAfter_of_not_isBatch hbatch]
  split
  · rw [hlookups]
    exact Hierarchy.memoRun_askAll_append memo front back
  · rename_i hres
    rw [lookups_eq_nil h hres] at hlookups
    rcases List.append_eq_nil_iff.mp hlookups.symm with ⟨rfl, -⟩
    cases request with
    | consult t s => exact .single (.consult memo s t)
    | forget => exact absurd rfl hforget
    | _ => exact .refl

namespace Session

open Hierarchy

section Acyclic

variable {h : Hierarchy} {p : Program} {session : Session} {requests : List Request}
  (hr : h.Represents p) (hacyclic : p.Acyclic) (hsession : session.hierarchy = h)
include hr hacyclic hsession

/-- What a session remembers has no gaps, if it had none at first. -/
theorem after_gapless (hon : h.options.memoize = true) (hgapless : h.Gapless session.memo)
    (hrequests : ∀ request ∈ requests, request.isInquiry) :
    h.Gapless (session.after requests).memo := by
  refine after_keeps hr hacyclic hsession hrequests ?_ ?_ ?_ (fun _ => gapless_empty) hgapless
  · intro memo t s hmemo
    exact hmemo.resolve hon hr hacyclic t s
  · intro memo sites sharing hmemo
    exact hmemo.batch hon hr hacyclic sites sharing
  · intro t s _ memo hmemo
    exact hmemo.consult s t

/-- Requests that do not empty the memo are a run of it. -/
theorem after_memoRun (hrequests : ∀ request ∈ requests, request.isInquiry ∧ request ≠ .forget) :
    h.MemoRun session.memo (session.after requests).memo := by
  have hinquiries : ∀ request ∈ requests, request.isInquiry :=
    fun request hrequest => (hrequests request hrequest).1
  refine after_keeps hr hacyclic hsession hinquiries ?_ ?_ ?_ ?_ .refl
  · intro memo t s hrun
    exact hrun.tail (.resolve memo t s)
  · intro memo sites sharing hrun
    exact hrun.tail (.batch memo sites sharing)
  · intro t s _ memo hrun
    exact hrun.tail (.consult memo s t)
  · intro hforget
    exact absurd rfl (hrequests _ hforget).2

end Acyclic

/-- Whatever was asked, and whether it was answered or not, what is remembered has no gaps. So once a
signature was resolved for a type, and as long as the memo is not emptied, a resolution for any type on
the way to the method only asks the memo. While a batch is under way there may be gaps, but some lookup
of it is about to close them, and all that its lookups have found is remembered when it is over. -/
theorem resolution_not_repeated (p : Program) (options : Options) (hon : options.memoize = true)
    (hacyclic : p.Acyclic) (before : List Request)
    (hbefore : ∀ request ∈ before, request.isInquiry) :
    let h := build p options
    let session := (start p options).after before
    h.Gapless session.memo
    -- requests that do not empty the memo are runs of it, and so are the parts of those that make their
    -- lookups one after the other
    ∧ (∀ more, (∀ request ∈ more, request.isInquiry ∧ request ≠ .forget) →
        h.MemoRun session.memo (session.after more).memo)
    ∧ (∀ request front back, request.isInquiry → request ≠ .forget → ¬ request.isBatch →
        request.lookups h = front ++ back →
        h.MemoRun session.memo ((h.askAll front).outcome session.memo).2
        ∧ h.MemoRun ((h.askAll front).outcome session.memo).2 (session.step request).2.memo)
    -- a resolution that found an answer settles its type
    ∧ (∀ memo t s answer, h.MemoRun session.memo memo →
        ((h.resolve t s).outcome memo).1 = .ok answer →
        h.Settled ((h.resolve t s).outcome memo).2 s t)
    -- so do the lookups of a batch, when it is over
    ∧ (∀ memo sites sharing, h.MemoRun session.memo memo →
        let pool := (h.batch sites sharing memo).2
        (∀ i, ¬ pool.UnderWay i) ∧ h.Gapless pool.memo
        ∧ ∀ r ∈ pool.resolutions, ∀ answer, r.outcome? = some (.ok answer) →
            h.Settled pool.memo r.signature r.start)
    -- until then a gap is one that some lookup is about to close
    ∧ ∀ memo sites shares turns, h.MemoRun session.memo memo →
        let pool := ((h.crew sites shares memo).run h turns).pool
        ∀ s, h.ClosedUpward s fun u =>
          pool.memo.Remembers s u ∨ ∃ r ∈ pool.resolutions, r.Promises s u := by
  intro h session
  have hr : h.Represents p := represents_build p options
  have hon : h.options.memoize = true := by rwa [options_build]
  have hsession : session.hierarchy = h := (after_memo hr hacyclic rfl hbefore).1
  have hgapless : h.Gapless session.memo :=
    after_gapless hr hacyclic rfl hon gapless_empty hbefore
  have hrun {memo : Memo} (hmemo : h.MemoRun session.memo memo) : h.Gapless memo :=
    hmemo.gapless hr hacyclic hon hgapless
  refine ⟨hgapless, fun more hmore => after_memoRun hr hacyclic hsession hmore, ?_, ?_, ?_, ?_⟩
  · intro request front back hrequest hforget hbatch hlookups
    rw [(step_memo hr hacyclic hsession hrequest).2]
    exact Request.memoRun_memoAfter hforget hbatch hlookups
  · intro memo t s answer hmemo hfound
    have hafter := (hrun hmemo).resolve hon hr hacyclic t s
    exact hafter.settled hr hacyclic hon ((hrun hmemo).remembers hon hr hacyclic hfound)
  · intro memo sites sharing hmemo pool
    have hafter := (hrun hmemo).batch hon hr hacyclic sites sharing
    refine ⟨batch_ended hr hacyclic sites sharing memo, hafter, fun r hmem answer hfound => ?_⟩
    exact hafter.settled hr hacyclic hon ((hrun hmemo).batch_remembers hon hr hacyclic hmem hfound)
  · intro memo sites shares turns hmemo pool
    exact ((hrun hmemo).run_crew_covered hon sites shares turns).closed

section Example

open Shapes

/-- The enumeration of all shapes meets a fault at the last of them, and the memo is emptied. A disk has
its area from a shape; after that was found, and another fault was met, the area of a shape is known. -/
theorem resolution_not_repeated_shapes :
    let h := build flawed
    let before := [.anyTarget .virtual area shape, .forget, .resolve blob area]
    let memo := ((start flawed).after before).memo
    let later := ((h.resolve blob area).outcome ((h.resolve disk area).outcome memo).2).2
    flawed.Acyclic ∧ (∀ request ∈ before, request.isInquiry)
    ∧ ((h.resolve disk area).outcome memo).1 = .ok (some (.declaredBy shape area))
    ∧ Chain h.superclass? disk ([disk] ++ shape :: []) ∧ (∀ b ∈ [disk], ¬ h.ListsAnswer b area)
    ∧ ∃ found, (h.resolve shape area).outcome later
        = (.ok found, { later with hits := later.hits + 1 }) := by
  intro h before memo later
  have hacyclic : flawed.Acyclic := acyclic_programWith _
  have hbefore : ∀ request ∈ before, request.isInquiry := by decide
  have hfound : ((h.resolve disk area).outcome memo).1 = .ok (some (.declaredBy shape area)) := by
    decide +kernel
  have hchain : Chain h.superclass? disk ([disk] ++ shape :: []) := .link rfl (.last rfl)
  have hnearer : ∀ b ∈ [disk], ¬ h.ListsAnswer b area := by
    simp only [List.mem_singleton, forall_eq]
    rintro ⟨c, hc, m, hm, -⟩
    obtain rfl : { name := disk, parent := some shape } = c := Option.some.inj hc
    cases hm
  have hsettled := (resolution_not_repeated flawed {} rfl hacyclic before hbefore).2.2.2.1
    memo disk area _ .refl hfound
  exact ⟨hacyclic, hbefore, hfound, hchain, hnearer,
    hsettled later (.single (.resolve _ blob area)) _ _ _ hchain hnearer⟩

end Example

end Session

end ClassHierarchy

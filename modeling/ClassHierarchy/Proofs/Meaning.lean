import ClassHierarchy.CallTarget
import ClassHierarchy.Proofs.Ancestry
import ClassHierarchy.Proofs.Computations

/-!
# What queries mean

A query that asks a memo may stop its climbs early and leaves the memo changed. Its answer does not
show any of this, as long as the memo is *honest*: every remembered answer is the one that a climb
without a memo finds.

* `honest_record`: recording a climb keeps a memo honest, whether the climb found an answer or ended
  in a fault.
* `resolve_means`: with an honest memo, a resolution is a plain lookup. All other queries are made of
  resolutions, and what they mean is said by replacing these by lookups (`dispatch_means`,
  `callTarget_means`).

The option to remember nothing is no exception: then the memo is not asked, and stays as it is.
-/

namespace ClassHierarchy

namespace Hierarchy

variable {h : Hierarchy} {p : Program} {memo : Memo} {t : TypeName} {s : Signature}

/-! ## Honest memos -/

/-- Every remembered answer is the one that a climb without a memo finds. -/
def Honest (h : Hierarchy) (memo : Memo) : Prop :=
  ∀ s t answer, memo.find? s t = some answer → h.lookup t s = .ok answer

/-- A memo that remembers nothing tells nothing wrong. -/
theorem honest_empty : h.Honest ∅ := by
  intro s t answer hfound
  rw [Memo.find?_empty] at hfound
  cases hfound

/-- To count a question changes nothing that is remembered. -/
theorem Honest.count (hhonest : h.Honest memo) (hit : Bool) : h.Honest (memo.count hit) := by
  intro r u answer hfound
  rw [Memo.find?_count] at hfound
  exact hhonest r u answer hfound

theorem Honest.consult (hhonest : h.Honest memo) (s : Signature) (t : TypeName) :
    h.Honest (memo.consult s t).2 :=
  hhonest.count _

/-- A memo stays honest with one more answer, if that is what a lookup finds. -/
theorem Honest.insert {answer : Option Method} (hhonest : h.Honest memo)
    (hanswer : h.lookup t s = .ok answer) : h.Honest (memo.insert s t answer) := by
  intro r u found hfound
  rw [Memo.find?_insert] at hfound
  split at hfound
  · rename_i hsame
    obtain ⟨rfl, rfl⟩ := hsame
    rw [hanswer, Option.some.inj hfound]
  · exact hhonest r u found hfound

/-- A climb with the help of an honest memo is remembered with what a lookup finds. -/
theorem honest_record (hr : h.Represents p) (hends : Ends h.superclass? t)
    (hhonest : h.Honest memo) : h.Honest (memo.record s (h.climb s (memo.find? s) t)) := by
  have hright := hhonest s
  intro r u answer hfound
  cases houtcome : (h.climb s (memo.find? s) t).outcome with
  | error fault =>
    -- a climb that meets a fault is counted and not remembered
    rw [Memo.find?_record_error houtcome] at hfound
    exact hhonest r u answer hfound
  | ok found =>
    rw [Memo.find?_record_ok houtcome] at hfound
    split at hfound
    · -- the type was scanned, so what the climb found is its answer too
      rename_i hnew
      obtain ⟨rfl, hscanned⟩ := hnew
      rw [climb_scanned hr hends hright u hscanned, houtcome, Option.some.inj hfound]
    · exact hhonest r u answer hfound

/-! ## Queries without a memo -/

/-- What a signature means above a type. -/
def lookupAbove (h : Hierarchy) (t : TypeName) (s : Signature) : Except Fault (Option Method) :=
  match h.superclass? t with
  | some parent => h.lookup parent s
  | none => .ok none

/-- What a signature means for a type and for all its subtypes. -/
def targetsBelow (h : Hierarchy) (kind : InvokeKind) (s : Signature) (t : TypeName) :
    Except Fault Targets := do
  let types ← h.allSubclasses (h.enumerationStart kind t)
  let found ← types.mapM (h.lookup · s)
  return .ofList (found.filterMap id)

/-- The methods that may run for a call site. -/
def targetsOf (h : Hierarchy) (site : CallSite) : Except Fault Targets :=
  match site.policy with
  | .above declaring => Targets.ofOption <$> h.lookupAbove declaring site.signature
  | .exact receiver => Targets.ofOption <$> h.lookup receiver site.signature
  | .below bound => h.targetsBelow site.kind site.signature bound

/-- What becomes of a call site. -/
def callOf (h : Hierarchy) (site : CallSite) : Except Fault CallTarget :=
  CallTarget.ofTargets site.signature <$> h.targetsOf site

/-! ## Queries with an honest memo -/

/-- With an honest memo the query has this outcome, and the memo stays honest. -/
abbrev Means {α : Type} (h : Hierarchy) (q : Query α) (e : Except Fault α) : Prop :=
  Ensures h.Honest (· = e) q

theorem means_ofExcept {α : Type} (e : Except Fault α) : h.Means (.ofExcept e) e := by
  intro memo hhonest
  exact ⟨rfl, hhonest⟩

/-- A resolution needs no more than that the chain of parents from its own start ends. -/
theorem resolve_means_of_ends (hr : h.Represents p) (hends : Ends h.superclass? t) (s : Signature) :
    h.Means (h.resolve t s) (h.lookup t s) := by
  refine Query.ensures_iff.mpr fun memo hhonest => ?_
  cases hmemoize : h.options.memoize with
  | true =>
    rw [outcome_resolve hmemoize]
    exact ⟨climb_outcome hr hends (hhonest s), honest_record hr hends hhonest⟩
  | false =>
    rw [outcome_resolve_unmemoized hmemoize]
    exact ⟨rfl, hhonest⟩

section Acyclic

variable (hr : h.Represents p) (hacyclic : p.Acyclic)
include hr hacyclic

/-- With an honest memo a resolution finds what a lookup finds. -/
theorem resolve_means (t : TypeName) (s : Signature) : h.Means (h.resolve t s) (h.lookup t s) :=
  resolve_means_of_ends hr (hr.ends hacyclic t) s

/-- Asked with an empty memo, a resolution is a plain lookup. -/
theorem outcome_resolve_empty (t : TypeName) (s : Signature) :
    ((h.resolve t s).outcome ∅).1 = h.lookup t s :=
  (Query.ensures_iff.mp (resolve_means hr hacyclic t s) ∅ honest_empty).1

/-- A resolution above a type finds what a lookup above it finds. -/
theorem resolveSuper_means (t : TypeName) (s : Signature) :
    h.Means (h.resolveSuper t s) (h.lookupAbove t s) := by
  unfold resolveSuper lookupAbove
  cases h.superclass? t with
  | some parent => exact resolve_means hr hacyclic parent s
  | none => exact ensures_pure rfl

/-- An enumeration has what the lookups for all subtypes find. -/
theorem anyTarget_means (kind : InvokeKind) (s : Signature) (t : TypeName) :
    h.Means (h.anyTarget kind s t) (h.targetsBelow kind s t) := by
  refine ensures_bind_eq (means_ofExcept _) fun types => ?_
  refine ensures_bind_eq ?_ fun found => ensures_pure rfl
  exact ensures_mapM_eq (fun u => resolve_means hr hacyclic u s) types

/-- A dispatch has the targets that its policy asks for. -/
theorem dispatch_means (site : CallSite) : h.Means (h.dispatch site) (h.targetsOf site) := by
  unfold dispatch targetsOf
  cases site.policy with
  | above declaring => exact ensures_map_eq (resolveSuper_means hr hacyclic _ _)
  | exact receiver => exact ensures_map_eq (resolve_means hr hacyclic _ _)
  | below bound => exact anyTarget_means hr hacyclic _ _ _

theorem isPolymorphic_means (site : CallSite) :
    h.Means (h.isPolymorphic site)
      ((fun targets => decide (1 < targets.size)) <$> h.targetsOf site) :=
  ensures_map_eq (dispatch_means hr hacyclic site)

theorem callTarget_means (site : CallSite) : h.Means (h.callTarget site) (h.callOf site) :=
  ensures_map_eq (dispatch_means hr hacyclic site)

end Acyclic

/-! ## One program, one meaning

Hierarchies of the same program may differ in their options. What a signature means, and what a call
may run, depends on the views of the definitions only. -/

section SameProgram

variable {h' : Hierarchy} (hr : h.Represents p) (hr' : h'.Represents p)
include hr hr'

theorem superclass?_congr : h.superclass? = h'.superclass? := by
  rw [hr.superclass?_eq, hr'.superclass?_eq]

theorem subclasses_congr : h.subclasses = h'.subclasses := by
  funext t
  rw [hr.subclasses, hr'.subclasses]

/-- Hierarchies of one program scan its types alike. -/
theorem declared_congr (t : TypeName) (s : Signature) : h.declared t s = h'.declared t s := by
  rw [declared, declared, hr.definition?, hr'.definition?]

/-- Hierarchies of one program find the same, whatever their options. -/
theorem lookup_congr : h.lookup = h'.lookup := by
  have hclimb : ∀ s known n t, h.climbWithin s known n t = h'.climbWithin s known n t := by
    intro s known n
    induction n with
    | zero => intro t; rfl
    | succ n ih =>
      intro t
      simp only [climbWithin, declared_congr hr hr', superclass?_congr hr hr', ih]
  funext t s
  -- the bounds agree too, as both count the same definitions
  rw [lookup, lookup, climb, climb, hclimb, hr.size_eq, hr'.size_eq]

/-- Hierarchies of one program have the same subtypes, in the same order. -/
theorem allSubclasses_congr : h.allSubclasses = h'.allSubclasses := by
  have hpreorder : ∀ n stack, h.preorder? n stack = h'.preorder? n stack := by
    intro n
    induction n with
    | zero => intro stack; cases stack <;> rfl
    | succ n ih =>
      intro stack
      cases stack with
      | nil => rfl
      | cons t stack => simp only [preorder?, subclasses_congr hr hr', ih]
  funext t
  rw [allSubclasses, allSubclasses, hpreorder, hr.size_eq, hr'.size_eq]

theorem lookupAbove_congr : h.lookupAbove = h'.lookupAbove := by
  funext t s
  rw [lookupAbove, lookupAbove, superclass?_congr hr hr', lookup_congr hr hr']

theorem targetsBelow_congr : h.targetsBelow = h'.targetsBelow := by
  funext kind s t
  rw [targetsBelow, targetsBelow, enumerationStart, enumerationStart, superclass?_congr hr hr',
    allSubclasses_congr hr hr', lookup_congr hr hr']

/-- Hierarchies of one program have the same targets. -/
theorem targetsOf_congr : h.targetsOf = h'.targetsOf := by
  funext site
  rw [targetsOf, targetsOf, lookupAbove_congr hr hr', lookup_congr hr hr',
    targetsBelow_congr hr hr']

theorem callOf_congr : h.callOf = h'.callOf := by
  funext site
  rw [callOf, callOf, targetsOf_congr hr hr']

end SameProgram

end Hierarchy

end ClassHierarchy

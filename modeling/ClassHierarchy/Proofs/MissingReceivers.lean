import ClassHierarchy.Proofs.NearestAncestor
import ClassHierarchy.Proofs.Transparency

/-!
# Methods without a receiver

A resolution reads the methods that are listed along the chain of parents, one after the other, up to
the first that serves the signature. A method with its name and result but without a receiver stops it
with a fault. What is remembered cannot hide such a method: an answer is remembered only for types from
which the method is never read.

* `findM?_append`, `findM?_eq_error_iff`: a search that may fail, over a list and over its parts.
* `lookup_eq_findM?`: a resolution is one search through all methods that are listed along the chain.
* `exists_fault_iff`, `declared_eq_error_iff`: so it meets a fault just where a method without a receiver
  stands before the first that serves the signature.
* `climb_of_error`: a climb that meets a fault has asked the memo in vain for every type up to the one
  that lists the method.
-/

namespace ClassHierarchy

/-! ## Matching -/

namespace Method

/-- Name and result are those of the signature, and there is no receiver. -/
def LacksReceiver (m : Method) (s : Signature) : Prop :=
  m.name = s.name ∧ m.result = s.result ∧ m.params = []

/-- Name and result are those of the signature, and so are the parameters after the receiver. -/
def Serves (m : Method) (s : Signature) : Prop :=
  m.name = s.name ∧ m.result = s.result ∧ ∃ receiver, m.params = receiver :: s.params

/-- The method has nothing to do with the signature. -/
def PassedOver (m : Method) (s : Signature) : Prop :=
  ¬ m.Serves s ∧ ¬ m.LacksReceiver s

variable {m : Method} {s : Signature}

/-- A method is a fault where its name and result match and it has no receiver. The fault names its
owner and itself. -/
theorem answers_eq_error_iff {fault : Fault} :
    m.answers s = .error fault ↔ m.LacksReceiver s ∧ fault = .noReceiver m.owner m.name := by
  unfold answers explicitParams LacksReceiver
  by_cases hname : m.name = s.name ∧ m.result = s.result
  · rw [if_pos hname]
    cases hparams : m.params with
    | nil => simp [hname, Except.map, eq_comm]
    | cons receiver explicit => simp [Except.map]
  · rw [if_neg hname]
    simp only [reduceCtorEq, false_iff]
    rintro ⟨⟨hsame, hresult, -⟩, -⟩
    exact hname ⟨hsame, hresult⟩

/-- A method answers where all of it matches. -/
theorem answers_eq_true_iff : m.answers s = .ok true ↔ m.Serves s := by
  unfold answers explicitParams Serves
  by_cases hname : m.name = s.name ∧ m.result = s.result
  · rw [if_pos hname]
    cases hparams : m.params with
    | nil => simp [Except.map]
    | cons receiver explicit => simp [hname, Except.map]
  · rw [if_neg hname]
    simp only [Except.ok.injEq, Bool.false_eq_true, false_iff]
    rintro ⟨hsame, hresult, -⟩
    exact hname ⟨hsame, hresult⟩

/-- A method is passed over where it neither answers nor is a fault. -/
theorem answers_eq_false_iff : m.answers s = .ok false ↔ m.PassedOver s := by
  unfold PassedOver
  rw [← answers_eq_true_iff]
  cases hanswers : m.answers s with
  | error fault =>
    have hlacks := (answers_eq_error_iff.mp hanswers).1
    simp [hlacks]
  | ok answers =>
    have hhas : ¬ m.LacksReceiver s := by
      intro hlacks
      rw [answers_eq_error_iff.mpr ⟨hlacks, rfl⟩] at hanswers
      cases hanswers
    cases answers <;> simp [hhas]

end Method

/-! ## Searches that may fail -/

section Search

variable {α ε : Type} {f : α → Except ε Bool}

/-- The second list is searched if nothing was found in the first one. -/
theorem findM?_append (xs ys : List α) :
    (xs ++ ys).findM? f = xs.findM? f >>= fun
      | some x => .ok (some x)
      | none => ys.findM? f := by
  induction xs with
  | nil => rfl
  | cons x xs ih =>
    rw [List.cons_append, List.findM?, List.findM?, ih]
    cases f x with
    | error e => rfl
    | ok found => cases found <;> rfl

/-- A search fails at the first element that is not passed over. -/
theorem findM?_eq_error_iff {xs : List α} {e : ε} : xs.findM? f = .error e
    ↔ ∃ front x back, xs = front ++ x :: back ∧ f x = .error e ∧ ∀ y ∈ front, f y = .ok false := by
  constructor
  · intro hsearch
    induction xs with
    | nil => cases hsearch
    | cons x xs ih =>
      rw [List.findM?] at hsearch
      cases hx : f x with
      | error e' =>
        rw [hx] at hsearch
        cases hsearch
        exact ⟨[], x, xs, rfl, hx, by simp⟩
      | ok found =>
        rw [hx] at hsearch
        cases found with
        | true => cases hsearch
        | false =>
          rcases ih hsearch with ⟨front, y, back, rfl, hy, hfront⟩
          exact ⟨x :: front, y, back, rfl, hy, List.forall_mem_cons.mpr ⟨hx, hfront⟩⟩
  · rintro ⟨front, x, back, rfl, hx, hfront⟩
    induction front with
    | nil =>
      rw [List.nil_append, List.findM?, hx]
      rfl
    | cons y front ih =>
      rcases List.forall_mem_cons.mp hfront with ⟨hy, hfront⟩
      rw [List.cons_append, List.findM?, hy]
      exact ih hfront

/-- A search finds nothing if it passes over all members. -/
theorem findM?_eq_none_iff {xs : List α} :
    xs.findM? f = .ok none ↔ ∀ x ∈ xs, f x = .ok false := by
  induction xs with
  | nil => exact iff_of_true rfl (by simp)
  | cons x xs ih =>
    rw [List.findM?, List.forall_mem_cons, ← ih]
    cases hx : f x with
    | error e => simp [bind, Except.bind]
    | ok found => cases found <;> simp [bind, Except.bind, pure, Except.pure]

end Search

variable {s : Signature} {ms : List Method} {fault : Fault}

/-- A search meets a fault at the first method without a receiver, if all before it are passed over.
-/
theorem findM?_answers_eq_error_iff : ms.findM? (·.answers s) = .error fault
    ↔ ∃ front m back, ms = front ++ m :: back ∧ m.LacksReceiver s ∧ (∀ n ∈ front, n.PassedOver s)
      ∧ fault = .noReceiver m.owner m.name := by
  rw [findM?_eq_error_iff]
  simp only [Method.answers_eq_error_iff, Method.answers_eq_false_iff]
  constructor
  · rintro ⟨front, m, back, hms, ⟨hm, hfault⟩, hfront⟩
    exact ⟨front, m, back, hms, hm, hfront, hfault⟩
  · rintro ⟨front, m, back, hms, hm, hfront, hfault⟩
    exact ⟨front, m, back, hms, ⟨hm, hfault⟩, hfront⟩

/-- Any method without a receiver that stands before the first match brings a fault, if not its own. -/
theorem exists_fault_iff : (∃ fault, ms.findM? (·.answers s) = .error fault)
    ↔ ∃ front m back, ms = front ++ m :: back ∧ m.LacksReceiver s ∧ ∀ n ∈ front, ¬ n.Serves s := by
  constructor
  · rintro ⟨fault, hfault⟩
    rcases findM?_answers_eq_error_iff.mp hfault with ⟨front, m, back, hms, hm, hfront, -⟩
    exact ⟨front, m, back, hms, hm, fun n hn => (hfront n hn).1⟩
  · rintro ⟨front, m, back, rfl, hm, hfront⟩
    induction front with
    | nil => exact ⟨_, findM?_answers_eq_error_iff.mpr ⟨[], m, back, rfl, hm, by simp, rfl⟩⟩
    | cons n front ih =>
      rcases List.forall_mem_cons.mp hfront with ⟨hn, hfront⟩
      by_cases hlacks : n.LacksReceiver s
      · exact ⟨_, findM?_answers_eq_error_iff.mpr ⟨[], n, _, rfl, hlacks, by simp, rfl⟩⟩
      · rcases ih hfront with ⟨fault, hfault⟩
        refine ⟨fault, ?_⟩
        rw [List.cons_append, List.findM?, Method.answers_eq_false_iff.mpr ⟨hn, hlacks⟩]
        exact hfault

namespace Hierarchy

variable {h : Hierarchy} {p : Program} {t : TypeName} {chain : List TypeName}

/-! ## Chains -/

/-- The methods that the definition of a type lists. -/
def listed (h : Hierarchy) (t : TypeName) : List Method :=
  (h.definition? t).elim [] ClassDef.methods

/-- To scan a type is to search through the methods that it lists. -/
theorem declared_eq_findM? (t : TypeName) (s : Signature) :
    h.declared t s = (h.listed t).findM? (·.answers s) := by
  unfold declared listed
  cases h.definition? t <;> rfl

/-- A signature is looked for in all methods that are listed along the chain of parents. -/
theorem lookup_eq_findM? (hr : h.Represents p) (hchain : Chain h.superclass? t chain) (s : Signature) :
    h.lookup t s = (chain.flatMap h.listed).findM? (·.answers s) := by
  induction hchain with
  | @last t hroot =>
    rw [List.flatMap_singleton, ← declared_eq_findM?]
    cases hdeclared : h.declared t s with
    | error fault => exact lookup_of_fault hdeclared
    | ok method? =>
      cases method? with
      | some m => exact lookup_of_found hdeclared
      | none => exact lookup_of_root hdeclared hroot
  | @link t u chain hparent hrest ih =>
    have hends : Ends h.superclass? t := ⟨t :: chain, .link hparent hrest⟩
    rw [List.flatMap_cons, findM?_append, ← declared_eq_findM?, ← ih]
    cases hdeclared : h.declared t s with
    | error fault => exact lookup_of_fault hdeclared
    | ok method? =>
      cases method? with
      | some m => exact lookup_of_found hdeclared
      | none => exact lookup_of_parent hr hends hdeclared hparent

/-- A type declares nothing if all methods that it lists are passed over. -/
theorem declared_eq_none_iff :
    h.declared t s = .ok none ↔ ∀ m ∈ h.listed t, m.PassedOver s := by
  rw [declared_eq_findM?, findM?_eq_none_iff]
  simp only [Method.answers_eq_false_iff]

/-- To scan a type meets a fault at its first method without a receiver, if all before it are passed
over. -/
theorem declared_eq_error_iff : h.declared t s = .error fault
    ↔ ∃ front m back, h.listed t = front ++ m :: back ∧ m.LacksReceiver s
      ∧ (∀ n ∈ front, n.PassedOver s) ∧ fault = .noReceiver m.owner m.name := by
  rw [declared_eq_findM?, findM?_answers_eq_error_iff]

/-! ## Climbs -/

/-- The climb went up a chain to the type in whose methods it met the fault. Nothing was known of any
type on the way. -/
def MeetsFault (h : Hierarchy) (s : Signature) (fault : Fault) (chain : List TypeName) (c : Climb) :
    Prop :=
  c.recalled = false ∧ ∃ nearer a farther, chain = nearer ++ a :: farther
    ∧ c.scanned = nearer ++ [a] ∧ (∀ b ∈ nearer, h.declared b s = .ok none)
    ∧ h.declared a s = .error fault

/-- A climb that ends with a fault meets it at the first method without a receiver on its chain. -/
theorem climb_of_error {known : TypeName → Option (Option Method)} (hr : h.Represents p)
    (hchain : Chain h.superclass? t chain) (houtcome : (h.climb s known t).outcome = .error fault) :
    h.MeetsFault s fault chain (h.climb s known t) := by
  suffices hall : (h.climb s known t).outcome = .error fault →
      ∀ chain, Chain h.superclass? t chain → h.MeetsFault s fault chain (h.climb s known t) from
    hall houtcome chain hchain
  apply climb_induction (motive := fun t c => c.outcome = .error fault →
    ∀ chain, Chain h.superclass? t chain → h.MeetsFault s fault chain c) hr ⟨chain, hchain⟩
  case recalled =>
    intro t answer _ houtcome
    cases houtcome
  case fault =>
    intro t fault' _ hdeclared houtcome chain hchain
    rcases hchain.head_eq with ⟨farther, rfl⟩
    cases houtcome
    exact ⟨rfl, [], t, farther, rfl, rfl, by simp, hdeclared⟩
  case found =>
    intro t m _ _ houtcome
    cases houtcome
  case root =>
    intro t _ _ _ houtcome
    cases houtcome
  case parent =>
    intro t u _ hdeclared hparent _ ih houtcome chain hchain
    cases hchain with
    | last hroot =>
      rw [hroot] at hparent
      cases hparent
    | link hsome hchain =>
      obtain rfl := linked_unique hparent hsome
      rcases ih houtcome _ hchain with ⟨hrecalled, nearer, a, farther, rfl, hscanned, hnearer, ha⟩
      refine ⟨hrecalled, t :: nearer, a, farther, rfl, congrArg (t :: ·) hscanned, ?_, ha⟩
      exact List.forall_mem_cons.mpr ⟨hdeclared, hnearer⟩

/-- A climb that meets a fault is counted, type by type, and leaves no other trace. -/
theorem record_of_meetsFault {c : Climb} (hmeets : h.MeetsFault s fault chain c)
    (houtcome : c.outcome = .error fault) (memo : Memo) :
    ∃ nearer a farther front m back, chain = nearer ++ a :: farther
      ∧ h.listed a = front ++ m :: back ∧ m.LacksReceiver s
      ∧ (∀ n ∈ nearer.flatMap h.listed ++ front, n.PassedOver s)
      ∧ fault = .noReceiver m.owner m.name
      ∧ memo.record s c = { memo with misses := memo.misses + (nearer ++ [a]).length } := by
  rcases hmeets with ⟨hrecalled, nearer, a, farther, hsplit, hscanned, hnearer, ha⟩
  rcases declared_eq_error_iff.mp ha with ⟨front, m, back, hlisted, hm, hfront, hfault⟩
  refine ⟨nearer, a, farther, front, m, back, hsplit, hlisted, hm, ?_, hfault, ?_⟩
  · simp only [List.mem_append, List.mem_flatMap]
    rintro n (⟨b, hb, hn⟩ | hn)
    · exact declared_eq_none_iff.mp (hnearer b hb) n hn
    · exact hfront n hn
  · simp only [Memo.record, houtcome, hrecalled, hscanned]
    rfl

end Hierarchy

namespace Session

open Hierarchy

/-- Whatever was asked before, a resolution meets a fault just if a method without a receiver stands
before the first that serves the signature, along the chain of parents. The fault names the first such
method. All that it leaves is one miss for every type up to the one that lists the method. -/
theorem missing_receiver_exact (p : Program) (options : Options) (hon : options.memoize = true)
    (hacyclic : p.Acyclic) (before : List Request)
    (hbefore : ∀ request ∈ before, request.isInquiry) (t : TypeName) (s : Signature) :
    let h := build p options
    let memo := ((start p options).after before).memo
    let resolution := (h.resolve t s).outcome memo
    ∃ chain, Chain h.superclass? t chain
      ∧ ((∃ fault, resolution.1 = .error fault) ↔ ∃ front m back,
          chain.flatMap h.listed = front ++ m :: back ∧ m.LacksReceiver s
          ∧ ∀ n ∈ front, ¬ n.Serves s)
      ∧ ∀ fault, resolution.1 = .error fault → ∃ nearer a farther front m back,
          chain = nearer ++ a :: farther ∧ h.listed a = front ++ m :: back ∧ m.LacksReceiver s
          ∧ (∀ n ∈ nearer.flatMap h.listed ++ front, n.PassedOver s)
          ∧ fault = .noReceiver m.owner m.name
          ∧ resolution.2 = { memo with misses := memo.misses + (nearer ++ [a]).length } := by
  intro h memo resolution
  have hr : h.Represents p := represents_build p options
  have hon : h.options.memoize = true := by rwa [options_build]
  have hhonest : h.Honest memo := (after_sound hr hacyclic (sound_start p options) hbefore).2
  rcases hr.ends hacyclic t with ⟨chain, hchain⟩
  have hresolution : resolution = ((h.climb s (memo.find? s) t).outcome,
      memo.record s (h.climb s (memo.find? s) t)) := outcome_resolve hon t s memo
  -- an honest memo does not change the outcome, so no answer in it hides a fault
  have houtcome : resolution.1 = h.lookup t s := by
    rw [hresolution]
    exact climb_outcome hr ⟨chain, hchain⟩ (hhonest s)
  refine ⟨chain, hchain, ?_, ?_⟩
  · rw [houtcome, lookup_eq_findM? hr hchain]
    exact exists_fault_iff
  · intro fault hfault
    rw [hresolution] at hfault ⊢
    exact record_of_meetsFault (climb_of_error hr hchain hfault) hfault memo

end Session

/-! ## An example -/

namespace Shapes

open Hierarchy Session

def drop : TypeName := ⟨"Drop"⟩

/-- A drop is a blob whose area can be scaled. The area of a blob is declared without a receiver. -/
def dripping : Program where
  classes := flawed.classes
    ++ [{ name := drop, parent := some blob, methods := [.declaredBy drop scaledArea] }]

theorem acyclic_dripping : dripping.Acyclic := by
  refine Program.acyclic_of_rank
    (fun t => if t = shape then 2 else if t = disk then 1 else if t = blob then 1 else 0) ?_
  simp [dripping, flawed, programWith, shape, disk, ring, blob, drop]

/-- The area of a shape is known, and still the area of a drop is a fault. It takes two questions to come
to the method, one for the drop and one for the blob. -/
theorem missing_receiver_exact_dripping :
    let h := build dripping
    let before := [.resolve disk area, .resolve drop area, .resolve drop scaledArea]
    let memo := ((start dripping).after before).memo
    let resolution := (h.resolve drop area).outcome memo
    dripping.Acyclic ∧ (∀ request ∈ before, request.isInquiry)
    ∧ memo.find? area shape = some (some (.declaredBy shape area))
    ∧ resolution.1 = .error (.noReceiver blob "area")
    ∧ ∃ nearer a farther front m back, [drop, blob, shape] = nearer ++ a :: farther
      ∧ h.listed a = front ++ m :: back ∧ m.LacksReceiver area
      ∧ (∀ n ∈ nearer.flatMap h.listed ++ front, n.PassedOver area)
      ∧ .noReceiver blob "area" = Fault.noReceiver m.owner m.name
      ∧ resolution.2 = { memo with misses := memo.misses + (nearer ++ [a]).length } := by
  intro h before memo resolution
  have hbefore : ∀ request ∈ before, request.isInquiry := by decide
  have hmemo : memo.find? area shape = some (some (.declaredBy shape area)) := by decide +kernel
  have hfault : resolution.1 = .error (.noReceiver blob "area") := by decide +kernel
  rcases missing_receiver_exact dripping {} rfl acyclic_dripping before hbefore drop area with
    ⟨chain, hchain, -, hreport⟩
  obtain rfl : chain = [drop, blob, shape] :=
    hchain.unique (.link rfl (.link rfl (.last rfl)))
  exact ⟨acyclic_dripping, hbefore, hmemo, hfault, hreport _ hfault⟩

end Shapes

end ClassHierarchy

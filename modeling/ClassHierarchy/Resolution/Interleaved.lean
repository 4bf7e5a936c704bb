import ClassHierarchy.Resolution

/-!
# Work that takes turns

`Hierarchy.resolve` works with its memo alone. Where many resolutions share a memo, each goes in
steps, and a step touches the memo once at most: it asks about one type, or remembers the answer for
one type. Between two steps of a resolution the others may take theirs, and the memo may be emptied.

* `Resolving.step`: the next step of a resolution. The types for which the memo has no answer are noted
  on the way up, and remembered one by one when the answer is known.
* `Pool.run`: any number of resolutions on one memo, in any order of their steps.
* `Plan`: work that takes lookups, one after the other. A lookup that meets a fault is the last one.
* `Crew.run`, `Crew.finish`: workers carry out plans. Each has one lookup at a time in a pool that all of
  them share, they take their steps in any order, and a fault that one of them meets does not stop the
  others.
-/

namespace ClassHierarchy

/-- What a resolution does next. -/
inductive Stage where
  /-- Ask the memo about a type. -/
  | ask (t : TypeName)
  /-- Scan the definition of a type. -/
  | scan (t : TypeName)
  /-- Go on to the parent of a type. -/
  | ascend (t : TypeName)
  /-- Remember the answer for the types that are left, the first of them next. -/
  | remember (answer : Option Method) (left : List TypeName)
  /-- Nothing: the resolution has ended. -/
  | done (outcome : Except Fault (Option Method))

/-- A resolution under way. -/
structure Resolving where
  start : TypeName
  signature : Signature
  /-- The types for which the memo had no answer, in climbing order. -/
  noted : List TypeName := []
  stage : Stage

namespace Resolving

/-- What is asked, and of which type. -/
def question (r : Resolving) : Lookup :=
  ⟨r.signature, r.start⟩

/-- A resolution that has done nothing yet. -/
def begin (t : TypeName) (s : Signature) : Resolving where
  start := t
  signature := s
  stage := .ask t

/-- The outcome of a resolution that has ended. -/
def outcome? (r : Resolving) : Option (Except Fault (Option Method)) :=
  match r.stage with
  | .done outcome => some outcome
  | _ => none

/-- The number of steps that suffices for any resolution, as no chain of parents has more types than are
defined, and one. -/
def stepBound (h : Hierarchy) : Nat :=
  4 * (h.size + 1) + 1

/-- The next step of a resolution, and the memo after it. -/
def step (h : Hierarchy) (r : Resolving) (memo : Memo) : Resolving × Memo :=
  match r.stage with
  | .ask t =>
    if h.options.memoize then
      match memo.consult r.signature t with
      | (some answer, memo) => ({ r with stage := .remember answer r.noted }, memo)
      | (none, memo) => ({ r with noted := r.noted ++ [t], stage := .scan t }, memo)
    else
      ({ r with stage := .scan t }, memo)
  | .scan t =>
    match h.declared t r.signature with
    | .error fault => ({ r with stage := .done (.error fault) }, memo)
    | .ok (some m) => ({ r with stage := .remember (some m) r.noted }, memo)
    | .ok none => ({ r with stage := .ascend t }, memo)
  | .ascend t =>
    match h.superclass? t with
    | some parent => ({ r with stage := .ask parent }, memo)
    | none => ({ r with stage := .remember none r.noted }, memo)
  | .remember answer (t :: left) =>
    ({ r with stage := .remember answer left }, memo.insert r.signature t answer)
  | .remember answer [] => ({ r with stage := .done (.ok answer) }, memo)
  | .done _ => (r, memo)

/-- A resolution does not forget what it was asked. -/
@[simp] theorem question_step (h : Hierarchy) (r : Resolving) (memo : Memo) :
    (r.step h memo).1.question = r.question := by
  unfold step
  repeat' split
  all_goals rfl

end Resolving

/-- Something that happens to a pool of resolutions. -/
inductive Turn where
  /-- One more resolution begins. -/
  | begin (t : TypeName) (s : Signature)
  /-- A resolution takes its next step. -/
  | advance (i : Nat)
  /-- The memo is emptied. -/
  | forget
  deriving DecidableEq, Repr

/-- The resolution that a turn begins. -/
def Turn.begun? : Turn → Option Lookup
  | begin t s => some ⟨s, t⟩
  | advance _ | forget => none

/-- Resolutions that share a memo, in the order in which they were begun. -/
structure Pool where
  memo : Memo := ∅
  resolutions : List Resolving := []

namespace Pool

/-- The pool after one turn. -/
def turn (h : Hierarchy) (pool : Pool) : Turn → Pool
  | .begin t s => { pool with resolutions := pool.resolutions ++ [.begin t s] }
  | .advance i =>
    match pool.resolutions[i]? with
    | some r =>
      let (next, memo) := r.step h pool.memo
      { memo, resolutions := pool.resolutions.set i next }
    | none => pool
  | .forget => { pool with memo := ∅ }

/-- A turn of a resolution is its next step, on the memo that all of them share. -/
theorem turn_advance_of_some {h : Hierarchy} {pool : Pool} {i : Nat} {r : Resolving}
    (hr : pool.resolutions[i]? = some r) :
    pool.turn h (.advance i)
      = ⟨(r.step h pool.memo).2, pool.resolutions.set i (r.step h pool.memo).1⟩ := by
  simp only [turn, hr]

/-- A turn of a resolution that was not begun does nothing. -/
theorem turn_advance_of_none {h : Hierarchy} {pool : Pool} {i : Nat}
    (hnone : pool.resolutions[i]? = none) : pool.turn h (.advance i) = pool := by
  simp only [turn, hnone]

/-- The pool after several turns. -/
def run (h : Hierarchy) (pool : Pool) (turns : List Turn) : Pool :=
  turns.foldl (turn h) pool

@[simp] theorem run_nil (h : Hierarchy) (pool : Pool) : pool.run h [] = pool := rfl

@[simp] theorem run_cons (h : Hierarchy) (pool : Pool) (turn : Turn) (turns : List Turn) :
    pool.run h (turn :: turns) = (pool.turn h turn).run h turns := rfl

theorem run_append (h : Hierarchy) (pool : Pool) (turns more : List Turn) :
    pool.run h (turns ++ more) = (pool.run h turns).run h more :=
  List.foldl_append

/-- The outcome of the resolution at a place, if it has ended. -/
def outcome? (pool : Pool) (i : Nat) : Option (Except Fault (Option Method)) :=
  pool.resolutions[i]?.bind Resolving.outcome?

/-- Lets the resolution at a place take steps until it has ended, so many at most. -/
def settle (h : Hierarchy) (i : Nat) : Nat → Pool → Pool
  | 0, pool => pool
  | steps + 1, pool =>
    if (pool.outcome? i).isSome then pool else settle h i steps (pool.turn h (.advance i))

end Pool

/-! ## Plans -/

/-- Work that takes lookups: it has its outcome, or goes on with the answer to a lookup. -/
inductive Plan (α : Type) where
  | done (outcome : Except Fault α)
  | ask (l : Lookup) (next : Option Method → Plan α)

namespace Plan

variable {α β : Type}

/-- What comes next is done with the result; after a fault there is no next. -/
protected def bind (f : α → Plan β) : Plan α → Plan β
  | done (.ok x) => f x
  | done (.error fault) => done (.error fault)
  | ask l next => ask l fun answer => (next answer).bind f

instance : Monad Plan where
  pure x := done (.ok x)
  bind plan f := plan.bind f

instance : LawfulMonad Plan := by
  refine .mk' Plan ?_ (fun _ _ => rfl) ?_
  · intro α plan
    induction plan with
    | done outcome => cases outcome <;> rfl
    | ask l next ih => exact congrArg (ask l) (funext ih)
  · intro α β γ plan f g
    induction plan with
    | done outcome => cases outcome <;> rfl
    | ask l next ih => exact congrArg (ask l) (funext ih)

/-- The answer to a lookup. -/
def lookup (l : Lookup) : Plan (Option Method) :=
  ask l pure

/-- Carries out a plan to its end: the outcome, and the pool after it. The first lookup may be under way
already, at a place in the pool. -/
def finish (h : Hierarchy) : Plan α → Option Nat → Pool → Except Fault α × Pool
  | done outcome, _, pool => (outcome, pool)
  | ask l next, slot, pool =>
    let i := slot.getD pool.resolutions.length
    let begun := if slot.isSome then pool else pool.turn h (.begin l.start l.signature)
    let settled := begun.settle h i (Resolving.stepBound h)
    match settled.outcome? i with
    | some (.ok answer) => (next answer).finish h none settled
    | some (.error fault) => (.error fault, settled)
    | none => (.error (.endless l.start), settled)

end Plan

/-! ## Crews -/

/-- Someone who carries out a plan. -/
structure Worker (α : Type) where
  plan : Plan α
  /-- The place in the pool of the first lookup of the plan, if it is under way. -/
  slot : Option Nat := none

/-- The next step of a worker, and the pool after it: a lookup begins, or takes a step. When it has ended
the worker goes on with its answer. -/
def Worker.step {α : Type} (h : Hierarchy) (w : Worker α) (pool : Pool) : Worker α × Pool :=
  match w.plan, w.slot with
  | .done _, _ => (w, pool)
  | .ask l _, none =>
    ({ w with slot := some pool.resolutions.length }, pool.turn h (.begin l.start l.signature))
  | .ask _ next, some i =>
    let after := pool.turn h (.advance i)
    match after.outcome? i with
    | some outcome => ({ plan := (Plan.done outcome).bind next }, after)
    | none => (w, after)

/-- Workers whose lookups share a pool. -/
structure Crew (α : Type) where
  pool : Pool
  workers : List (Worker α)

namespace Crew

variable {α : Type}

/-- The crew after one worker has taken a step. -/
def advance (h : Hierarchy) (crew : Crew α) (i : Nat) : Crew α :=
  match crew.workers[i]? with
  | some w =>
    let (next, pool) := w.step h crew.pool
    { pool, workers := crew.workers.set i next }
  | none => crew

/-- The crew after steps of its workers in this order. -/
def run (h : Hierarchy) (crew : Crew α) (turns : List Nat) : Crew α :=
  turns.foldl (advance h) crew

/-- Lets workers come to their ends, one after the other: their outcomes, and the pool after it. -/
def finishAll (h : Hierarchy) : List (Worker α) → Pool → List (Except Fault α) × Pool
  | [], pool => ([], pool)
  | w :: ws, pool =>
    let (outcome, pool) := w.plan.finish h w.slot pool
    let (outcomes, pool) := finishAll h ws pool
    (outcome :: outcomes, pool)

/-- Lets all workers come to their ends. -/
def finish (h : Hierarchy) (crew : Crew α) : List (Except Fault α) × Pool :=
  finishAll h crew.workers crew.pool

end Crew

end ClassHierarchy

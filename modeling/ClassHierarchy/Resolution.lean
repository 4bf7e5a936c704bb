import ClassHierarchy.Hierarchy.Walks

/-!
# Resolution with a memo

A memo remembers what signatures meant for types, and counts how often it was asked with and
without success. That a signature means nothing for a type is an answer too, and is remembered.
A memo believes what it is told: an answer inserted by hand is given out like one that was found.

Queries of a hierarchy share a memo. A query ends with an answer or a fault, and in both cases with
the memo as far as it has got: what was counted or remembered before a fault stays.

* `find?_insertAll`: remembering an answer for some types changes what is recalled for these types
  and this signature, and for nothing else.
* `find?_record_ok`, `find?_record_error`: a climb that found an answer is remembered for every
  type it scanned, and one that ended in a fault is not remembered at all.
* `Hierarchy.resolve` is `Hierarchy.lookup` with the memo's help. One climb answers for every type
  that it scanned, so all of them are remembered.
-/

namespace ClassHierarchy

/-! ## Memos -/

/-- A signature asked of a type. -/
structure Lookup where
  signature : Signature
  start : TypeName
  deriving DecidableEq, Repr, Inhabited

namespace Lookup

instance : Ord Lookup := ⟨compareLex (compareOn signature) (compareOn start)⟩

instance : Std.TransOrd Lookup :=
  inferInstanceAs (Std.TransCmp (compareLex (compareOn signature) (compareOn start)))

instance : Std.LawfulEqOrd Lookup where
  eq_of_compare {a b} h := by
    have h : compareLex (compareOn signature) (compareOn start) a b = .eq := h
    simp only [compareLex_eq_eq, compareOn, Std.LawfulEqOrd.compare_eq_iff_eq] at h
    cases a
    cases b
    simp_all

end Lookup

/-- Remembered answers, and how often the memo was asked. -/
structure Memo where
  entries : Std.TreeMap Lookup (Option Method) := ∅
  /-- The questions that a remembered answer settled. -/
  hits : Nat := 0
  /-- The questions without a remembered answer. -/
  misses : Nat := 0

namespace Memo

instance : EmptyCollection Memo := ⟨{}⟩

instance : Inhabited Memo := ⟨∅⟩

/-- The number of remembered answers. -/
def size (memo : Memo) : Nat :=
  memo.entries.size

def isEmpty (memo : Memo) : Bool :=
  memo.entries.isEmpty

/-- The remembered answer, the question not counted. -/
def find? (memo : Memo) (s : Signature) (t : TypeName) : Option (Option Method) :=
  memo.entries[(⟨s, t⟩ : Lookup)]?

/-- Counts a question. -/
def count (memo : Memo) (hit : Bool) : Memo :=
  if hit then { memo with hits := memo.hits + 1 } else { memo with misses := memo.misses + 1 }

/-- The remembered answer, and the memo with the question counted. -/
def consult (memo : Memo) (s : Signature) (t : TypeName) : Option (Option Method) × Memo :=
  let answer := memo.find? s t
  (answer, memo.count answer.isSome)

/-- Remembers an answer in place of any earlier one. -/
def insert (memo : Memo) (s : Signature) (t : TypeName) (answer : Option Method) : Memo :=
  { memo with entries := memo.entries.insert ⟨s, t⟩ answer }

/-- Remembers one answer for several types. -/
def insertAll (memo : Memo) (s : Signature) (ts : List TypeName) (answer : Option Method) : Memo :=
  ts.foldl (fun memo t => memo.insert s t answer) memo

/-- Counts the questions of a climb, one for every scanned type and one for the known type at its
end, and remembers its answer for all scanned types. A climb that ended in a fault has none. -/
def record (memo : Memo) (s : Signature) (climb : Climb) : Memo :=
  let counted := { memo with
    hits := memo.hits + climb.recalled.toNat
    misses := memo.misses + climb.scanned.length }
  match climb.outcome with
  | .ok answer => counted.insertAll s climb.scanned answer
  | .error _ => counted

/-! ## What is recalled -/

@[simp] theorem find?_empty (s : Signature) (t : TypeName) : find? ∅ s t = none := by
  show (∅ : Std.TreeMap Lookup (Option Method))[(⟨s, t⟩ : Lookup)]? = none
  simp

/-- Remembering an answer changes what is recalled for this question, and for no other. -/
theorem find?_insert (memo : Memo) (s r : Signature) (t u : TypeName) (answer : Option Method) :
    (memo.insert s t answer).find? r u
      = if s = r ∧ t = u then some answer else memo.find? r u := by
  simp [find?, insert, Std.TreeMap.getElem?_insert]

/-- Remembering an answer for some types changes what is recalled for them and this signature only.
-/
theorem find?_insertAll (memo : Memo) (s r : Signature) (ts : List TypeName) (u : TypeName)
    (answer : Option Method) :
    (memo.insertAll s ts answer).find? r u
      = if s = r ∧ u ∈ ts then some answer else memo.find? r u := by
  induction ts generalizing memo with
  | nil => simp [insertAll]
  | cons t ts ih =>
    have hstep : memo.insertAll s (t :: ts) answer = (memo.insert s t answer).insertAll s ts answer :=
      rfl
    rw [hstep, ih, find?_insert]
    grind

@[simp] theorem hits_insertAll (memo : Memo) (s : Signature) (ts : List TypeName)
    (answer : Option Method) : (memo.insertAll s ts answer).hits = memo.hits := by
  induction ts generalizing memo with
  | nil => rfl
  | cons t ts ih => exact ih (memo.insert s t answer)

@[simp] theorem misses_insertAll (memo : Memo) (s : Signature) (ts : List TypeName)
    (answer : Option Method) : (memo.insertAll s ts answer).misses = memo.misses := by
  induction ts generalizing memo with
  | nil => rfl
  | cons t ts ih => exact ih (memo.insert s t answer)

/-- To count a question changes no answer. -/
@[simp] theorem find?_count (memo : Memo) (hit : Bool) (s : Signature) (t : TypeName) :
    (memo.count hit).find? s t = memo.find? s t := by
  cases hit <;> rfl

@[simp] theorem find?_consult (memo : Memo) (s r : Signature) (t u : TypeName) :
    (memo.consult s t).2.find? r u = memo.find? r u :=
  find?_count memo _ r u

/-! ## What a climb leaves -/

/-- A climb that found an answer is remembered for every type that it scanned. -/
theorem find?_record_ok {memo : Memo} {s : Signature} {climb : Climb} {answer : Option Method}
    (h : climb.outcome = .ok answer) (r : Signature) (u : TypeName) :
    (memo.record s climb).find? r u
      = if s = r ∧ u ∈ climb.scanned then some answer else memo.find? r u := by
  simp only [record, h, find?_insertAll]
  rfl

/-- A climb that met a fault is not remembered at all. -/
theorem find?_record_error {memo : Memo} {s : Signature} {climb : Climb} {fault : Fault}
    (h : climb.outcome = .error fault) (r : Signature) (u : TypeName) :
    (memo.record s climb).find? r u = memo.find? r u := by
  simp only [record, h]
  rfl

/-- A climb is one hit at most, where it came to a known type. -/
@[simp] theorem hits_record (memo : Memo) (s : Signature) (climb : Climb) :
    (memo.record s climb).hits = memo.hits + climb.recalled.toNat := by
  unfold record
  cases climb.outcome <;> simp

/-- A climb is a miss for every type that it scanned. -/
@[simp] theorem misses_record (memo : Memo) (s : Signature) (climb : Climb) :
    (memo.record s climb).misses = memo.misses + climb.scanned.length := by
  unfold record
  cases climb.outcome <;> simp

end Memo

/-! ## Queries -/

/-- A computation that asks a memo and may run into a fault. -/
abbrev Query := ExceptT Fault (StateM Memo)

namespace Query

/-- An outcome that needs no memo. -/
def ofExcept {α : Type} (outcome : Except Fault α) : Query α :=
  ExceptT.mk (pure outcome)

/-- The outcome of a query, and the memo that it leaves. -/
def outcome {α : Type} (query : Query α) (memo : Memo) : Except Fault α × Memo :=
  Id.run (StateT.run (ExceptT.run query) memo)

variable {α : Type}

@[simp] theorem outcome_pure (a : α) (memo : Memo) : outcome (pure a) memo = (.ok a, memo) := rfl

@[simp] theorem outcome_ofExcept (e : Except Fault α) (memo : Memo) :
    (ofExcept e).outcome memo = (e, memo) := rfl

end Query

namespace Hierarchy

/-- The method that a signature means for a type. -/
def resolve (h : Hierarchy) (t : TypeName) (s : Signature) : Query (Option Method) := do
  if h.options.memoize then
    let memo ← get
    let climb := h.climb s (memo.find? s) t
    set (memo.record s climb)
    .ofExcept climb.outcome
  else
    .ofExcept (h.lookup t s)

/-- With the memo in use, a resolution is a climb that knows what the memo recalls, and is recorded. -/
theorem outcome_resolve {h : Hierarchy} (hon : h.options.memoize = true) (t : TypeName)
    (s : Signature) (memo : Memo) :
    (h.resolve t s).outcome memo
      = ((h.climb s (memo.find? s) t).outcome, memo.record s (h.climb s (memo.find? s) t)) := by
  simp only [resolve, hon, if_true]
  rfl

/-- Without the memo, a resolution is a climb that knows nothing, and leaves no trace. -/
theorem outcome_resolve_unmemoized {h : Hierarchy} (hoff : h.options.memoize = false)
    (t : TypeName) (s : Signature) (memo : Memo) :
    (h.resolve t s).outcome memo = (h.lookup t s, memo) := by
  simp only [resolve, hoff, Bool.false_eq_true, if_false]
  rfl

/-- The method that a signature means above a type; nothing when the type has no parent. -/
def resolveSuper (h : Hierarchy) (t : TypeName) (s : Signature) : Query (Option Method) :=
  match h.superclass? t with
  | some parent => h.resolve parent s
  | none => pure none

end Hierarchy

end ClassHierarchy

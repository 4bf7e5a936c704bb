import ClassHierarchy.CallTarget

/-!
# Figures over calls

How many calls of a program are resolved, how many of these have one target or several, and how many
targets a call has at most.

The calls are read once. On the way the most targets are known of the calls with several targets only;
that some call has one target is added at the end (`complete`).

* `ofTargets_append`: the figures of two lists of calls together are the sums of theirs, and the
  maximum for the largest number of targets.
-/

namespace ClassHierarchy

/-- Figures over many calls. -/
@[ext]
structure SiteFigures where
  total : Nat := 0
  /-- Calls for which some method runs. -/
  resolved : Nat := 0
  /-- Calls for which just one method runs. -/
  monomorphic : Nat := 0
  /-- Calls for which one of several methods runs. -/
  polymorphic : Nat := 0
  /-- The most methods that may run for one call. -/
  maxTargets : Nat := 0
  deriving DecidableEq, Repr, Inhabited

namespace SiteFigures

/-- One more call is counted. A call with one target does not matter yet for the most targets. -/
def count (figures : SiteFigures) : CallTarget → SiteFigures
  | .resolved _ => { figures with monomorphic := figures.monomorphic + 1 }
  | .virtual _ ts => { figures with
      polymorphic := figures.polymorphic + 1
      maxTargets := max figures.maxTargets ts.size }
  | .unresolved _ => figures

/-- The figures that follow from those of all calls: the resolved ones together, and the one target
that some call has. -/
def complete (figures : SiteFigures) : SiteFigures :=
  { figures with
    resolved := figures.monomorphic + figures.polymorphic
    maxTargets :=
      if 0 < figures.monomorphic then max figures.maxTargets 1 else figures.maxTargets }

/-- The figures of a list of calls. -/
def ofTargets (calls : List CallTarget) : SiteFigures :=
  (calls.foldl count { total := calls.length }).complete

/-! ## Figures of several groups -/

/-- The figures of two groups of calls together. -/
def merge (a b : SiteFigures) : SiteFigures where
  total := a.total + b.total
  resolved := a.resolved + b.resolved
  monomorphic := a.monomorphic + b.monomorphic
  polymorphic := a.polymorphic + b.polymorphic
  maxTargets := max a.maxTargets b.maxTargets

theorem merge_comm (a b : SiteFigures) : a.merge b = b.merge a := by
  simp [merge, Nat.add_comm, Nat.max_comm]

/-- A call is counted on either side of a merge, which makes no difference. -/
theorem count_merge (a b : SiteFigures) (call : CallTarget) :
    (a.merge b).count call = a.merge (b.count call) := by
  cases call <;> simp [count, merge, Nat.add_assoc, Nat.max_assoc]

/-- Calls that are counted on top of a group are a group of their own. -/
theorem foldl_count_merge (a b : SiteFigures) (calls : List CallTarget) :
    calls.foldl count (a.merge b) = a.merge (calls.foldl count b) := by
  induction calls generalizing b with
  | nil => rfl
  | cons call calls ih => rw [List.foldl_cons, count_merge, ih, List.foldl_cons]

/-- Whether some call has one target can be asked of each group alone. -/
theorem complete_merge (a b : SiteFigures) :
    (a.merge b).complete = a.complete.merge b.complete := by
  have hresolved : (a.merge b).complete.resolved = (a.complete.merge b.complete).resolved := by
    simp only [complete, merge]
    omega
  have hmax : (a.merge b).complete.maxTargets = (a.complete.merge b.complete).maxTargets := by
    have hpos : 0 < a.monomorphic + b.monomorphic ↔ 0 < a.monomorphic ∨ 0 < b.monomorphic := by
      omega
    simp only [complete, merge, hpos]
    by_cases ha : 0 < a.monomorphic <;> by_cases hb : 0 < b.monomorphic
    · simp only [ha, hb, or_true, if_true]
      omega
    · simp only [ha, hb, or_false, if_true, if_false]
      omega
    · simp only [ha, hb, or_true, if_true, if_false]
      omega
    · simp only [ha, hb, or_false, if_false]
  exact SiteFigures.ext rfl hresolved rfl rfl hmax

/-- The figures of two lists of calls merge to those of both together. -/
theorem ofTargets_append (xs ys : List CallTarget) :
    ofTargets (xs ++ ys) = (ofTargets xs).merge (ofTargets ys) := by
  have htotal : ({ total := (xs ++ ys).length } : SiteFigures)
      = merge { total := ys.length } { total := xs.length } := by
    simp [merge, Nat.add_comm]
  unfold ofTargets
  rw [List.foldl_append, htotal, foldl_count_merge, merge_comm, foldl_count_merge, complete_merge]

/-- The share of resolved calls in percent, all of them when there is no call. Both counts are rounded
to binary64 before they are divided, and the quotient is rounded before it is scaled. -/
def rate (figures : SiteFigures) : Float :=
  if figures.total = 0 then 100.0
  else Float.ofNat figures.resolved / Float.ofNat figures.total * 100.0

end SiteFigures

end ClassHierarchy

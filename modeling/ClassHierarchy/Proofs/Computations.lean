import ClassHierarchy.Resolution

/-!
# Computations that keep an invariant

Queries of a hierarchy and actions of a session are computations of the same kind: they read and
change a state, and they may fail, in which case the state stays as far as they got. `Ensures` says
that a computation keeps an invariant of the state, whether it fails or not, and which outcomes it
can have. A computation is treated part by part, one rule for each way to put parts together.
-/

namespace ClassHierarchy

variable {ε σ α β : Type} {inv : σ → Prop}

/-- Started in a state with the invariant, the computation has an outcome that `post` allows, and
leaves a state with the invariant. -/
def Ensures (inv : σ → Prop) (post : Except ε α → Prop) (a : ExceptT ε (StateM σ) α) : Prop :=
  ∀ state, inv state → post (a.run.run state).1 ∧ inv (a.run.run state).2

/-- For a query the states are memos. -/
theorem Query.ensures_iff {inv : Memo → Prop} {post : Except Fault α → Prop} {q : Query α} :
    Ensures inv post q ↔ ∀ memo, inv memo → post (q.outcome memo).1 ∧ inv (q.outcome memo).2 :=
  Iff.rfl

theorem ensures_pure {post : Except ε α → Prop} {x : α} (hpost : post (.ok x)) :
    Ensures inv post (pure x : ExceptT ε (StateM σ) α) := by
  intro state hinv
  exact ⟨hpost, hinv⟩

theorem ensures_throw {post : Except ε α → Prop} {e : ε} (hpost : post (.error e)) :
    Ensures inv post (throw e : ExceptT ε (StateM σ) α) := by
  intro state hinv
  exact ⟨hpost, hinv⟩

/-- What is done next may depend on the state, of which the invariant is known. -/
theorem ensures_get_bind {post : Except ε α → Prop} {f : σ → ExceptT ε (StateM σ) α}
    (hf : ∀ state, inv state → Ensures inv post (f state)) : Ensures inv post (get >>= f) := by
  intro state hinv
  exact hf state hinv state hinv

theorem ensures_set {post : Except ε PUnit → Prop} {state : σ} (hinv : inv state)
    (hpost : post (.ok ⟨⟩)) : Ensures inv post (set state : ExceptT ε (StateM σ) PUnit) := by
  intro _ _
  exact ⟨hpost, hinv⟩

theorem ensures_modify {post : Except ε PUnit → Prop} {f : σ → σ}
    (hkeeps : ∀ state, inv state → inv (f state)) (hpost : post (.ok ⟨⟩)) :
    Ensures inv post (modify f : ExceptT ε (StateM σ) PUnit) := by
  intro state hinv
  exact ⟨hpost, hkeeps state hinv⟩

/-- What is ensured of an outcome may be said more weakly. -/
theorem Ensures.weaken {post post' : Except ε α → Prop} {a : ExceptT ε (StateM σ) α}
    (ha : Ensures inv post a) (himp : ∀ r, post r → post' r) : Ensures inv post' a := by
  intro state hinv
  exact ⟨himp _ (ha state hinv).1, (ha state hinv).2⟩

/-- A computation goes on where its first part leaves off, and stops where that part fails. -/
theorem Ensures.bind {mid : Except ε α → Prop} {post : Except ε β → Prop}
    {a : ExceptT ε (StateM σ) α} {f : α → ExceptT ε (StateM σ) β} (ha : Ensures inv mid a)
    (hok : ∀ x, mid (.ok x) → Ensures inv post (f x))
    (herror : ∀ e, mid (.error e) → post (.error e)) : Ensures inv post (a >>= f) := by
  intro state hinv
  obtain ⟨hmid, hafter⟩ := ha state hinv
  rw [ExceptT.run_bind, StateT.run_bind]
  rcases hrun : a.run.run state with ⟨result, after⟩
  rw [hrun] at hmid hafter
  cases result with
  | ok x => exact hok x hmid after hafter
  | error e => exact ⟨herror e hmid, hafter⟩

/-- A result is changed on its way, and the state is not. -/
theorem Ensures.map {mid : Except ε α → Prop} {post : Except ε β → Prop}
    {a : ExceptT ε (StateM σ) α} {f : α → β} (ha : Ensures inv mid a)
    (hpost : ∀ r, mid r → post (r.map f)) : Ensures inv post (f <$> a) := by
  rw [map_eq_pure_bind]
  refine ha.bind ?_ ?_
  · intro x hx
    exact ensures_pure (hpost _ hx)
  · intro e he
    exact hpost _ he

/-! ## Computations with one outcome -/

/-- Outcomes that are known one by one are known of both together. -/
theorem ensures_bind_eq {e : Except ε α} {g : α → Except ε β} {a : ExceptT ε (StateM σ) α}
    {f : α → ExceptT ε (StateM σ) β} (ha : Ensures inv (· = e) a)
    (hf : ∀ x, Ensures inv (· = g x) (f x)) : Ensures inv (· = e >>= g) (a >>= f) := by
  refine ha.bind ?_ ?_
  · rintro x rfl
    exact hf x
  · rintro e rfl
    rfl

theorem ensures_map_eq {e : Except ε α} {a : ExceptT ε (StateM σ) α} {f : α → β}
    (ha : Ensures inv (· = e) a) : Ensures inv (· = f <$> e) (f <$> a) := by
  refine ha.map ?_
  rintro r rfl
  rfl

/-- Outcomes that are known one by one are known of all members of a list. -/
theorem ensures_mapM_eq {g : α → Except ε β} {f : α → ExceptT ε (StateM σ) β}
    (hf : ∀ x, Ensures inv (· = g x) (f x)) (xs : List α) :
    Ensures inv (· = xs.mapM g) (xs.mapM f) := by
  induction xs with
  | nil => exact ensures_pure rfl
  | cons x xs ih =>
    rw [List.mapM_cons, List.mapM_cons]
    refine ensures_bind_eq (hf x) fun y => ?_
    exact ensures_bind_eq ih fun ys => ensures_pure rfl

/-! ## Computations with few ways to fail -/

/-- The outcome is a result, or a failure that `cause` allows. -/
def FailsOnly (cause : ε → Prop) (r : Except ε α) : Prop :=
  ∀ e, r = .error e → cause e

section FailsOnly

variable {cause : ε → Prop}

theorem failsOnly_ok (x : α) : FailsOnly cause (.ok x) := by
  intro e he
  cases he

theorem failsOnly_error {e : ε} (he : cause e) : FailsOnly cause (.error e : Except ε α) := by
  rintro e ⟨⟩
  exact he

/-- Where no failure is allowed there is a result. -/
theorem FailsOnly.exists_ok {r : Except ε α} (hr : FailsOnly cause r) (hnone : ∀ e, ¬ cause e) :
    ∃ x, r = .ok x := by
  cases r with
  | ok x => exact ⟨x, rfl⟩
  | error e => exact absurd (hr e rfl) (hnone e)

/-- A changed result fails where the result does. -/
theorem failsOnly_map {r : Except ε α} (hr : FailsOnly cause r) (f : α → β) :
    FailsOnly cause (r.map f) := by
  cases r with
  | ok x => exact failsOnly_ok (f x)
  | error e => exact failsOnly_error (hr e rfl)

/-- Two computations in a row fail only where one of them does. -/
theorem failsOnly_bind {r : Except ε α} {f : α → Except ε β} (hr : FailsOnly cause r)
    (hf : ∀ x, FailsOnly cause (f x)) : FailsOnly cause (r >>= f) := by
  cases r with
  | ok x => exact hf x
  | error e => exact failsOnly_error (hr e rfl)

/-- A list of computations fails only where one of them does. -/
theorem failsOnly_mapM {f : α → Except ε β} {xs : List α} (hf : ∀ x ∈ xs, FailsOnly cause (f x)) :
    FailsOnly cause (xs.mapM f) := by
  induction xs with
  | nil => exact failsOnly_ok []
  | cons x xs ih =>
    obtain ⟨hx, hxs⟩ := List.forall_mem_cons.mp hf
    rw [List.mapM_cons]
    refine failsOnly_bind hx fun y => ?_
    exact failsOnly_bind (ih hxs) fun ys => failsOnly_ok (y :: ys)

/-- A changed result fails where the computation does. -/
theorem ensures_map_failsOnly {a : ExceptT ε (StateM σ) α} {f : α → β}
    (ha : Ensures inv (FailsOnly cause) a) : Ensures inv (FailsOnly cause) (f <$> a) :=
  ha.map fun _ hr => failsOnly_map hr f

/-- Two computations with a state fail only where one of them does. -/
theorem ensures_bind_failsOnly {a : ExceptT ε (StateM σ) α} {f : α → ExceptT ε (StateM σ) β}
    (ha : Ensures inv (FailsOnly cause) a) (hf : ∀ x, Ensures inv (FailsOnly cause) (f x)) :
    Ensures inv (FailsOnly cause) (a >>= f) := by
  refine ha.bind (fun x _ => hf x) ?_
  intro e he
  exact failsOnly_error (he e rfl)

/-- A list of computations with a state fails only where one of them does. -/
theorem ensures_mapM_failsOnly {f : α → ExceptT ε (StateM σ) β}
    (hf : ∀ x, Ensures inv (FailsOnly cause) (f x)) (xs : List α) :
    Ensures inv (FailsOnly cause) (xs.mapM f) := by
  induction xs with
  | nil => exact ensures_pure (failsOnly_ok [])
  | cons x xs ih =>
    rw [List.mapM_cons]
    refine ensures_bind_failsOnly (hf x) fun y => ?_
    exact ensures_bind_failsOnly ih fun ys => ensures_pure (failsOnly_ok (y :: ys))

end FailsOnly

end ClassHierarchy

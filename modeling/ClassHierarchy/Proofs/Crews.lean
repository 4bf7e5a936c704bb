import ClassHierarchy.Proofs.Interleaving

/-!
# Crews

The workers of a crew carry out their plans side by side. Each of them makes one lookup after the other,
and all lookups share a pool.

* `Crew.run_pool`: the steps of a crew are turns in its pool.
* `Crew.advance_coherent`: every lookup under way is the one that some worker waits for.
* `Crew.exists_run_finish`: a worker comes with its own steps to the end of its plan.
* `Crew.exists_turns`: so to let all workers come to their ends is one more order of steps, and what
  every step keeps is there at the end, when nothing is under way (`Crew.finish_ended`).
-/

namespace ClassHierarchy

variable {α : Type} {h : Hierarchy} {p : Program}

/-! ## Lookups under way -/

namespace Pool

variable {pool : Pool} {i j : Nat} {r : Resolving}

/-- The resolution at a place has begun and has not ended. -/
def UnderWay (pool : Pool) (i : Nat) : Prop :=
  i < pool.resolutions.length ∧ pool.outcome? i = none

/-- No two lookups are under way. -/
def AtMostOne (pool : Pool) : Prop :=
  ∀ i j, pool.UnderWay i → pool.UnderWay j → i = j

/-- What the resolutions of the pool ask, in the order in which they were begun. -/
abbrev questions (pool : Pool) : List Lookup :=
  pool.resolutions.map Resolving.question

theorem length_begin (t : TypeName) (s : Signature) :
    (pool.turn h (.begin t s)).resolutions.length = pool.resolutions.length + 1 := by
  simp [turn]

theorem length_advance (i : Nat) :
    (pool.turn h (.advance i)).resolutions.length = pool.resolutions.length := by
  cases hi : pool.resolutions[i]? with
  | none => rw [turn_advance_of_none hi]
  | some r => rw [turn_advance_of_some hi, List.length_set]

/-- A step changes no question. -/
theorem questions_advance (i : Nat) : (pool.turn h (.advance i)).questions = pool.questions := by
  rw [questions, turn_questions]
  exact List.append_nil _

/-- A new lookup does not touch those that are there. -/
theorem outcome?_begin (hi : i < pool.resolutions.length) (t : TypeName) (s : Signature) :
    (pool.turn h (.begin t s)).outcome? i = pool.outcome? i := by
  simp [outcome?, turn, List.getElem?_append_left hi]

/-- A step of one lookup does not touch the others. -/
theorem outcome?_advance_of_ne (hne : j ≠ i) :
    (pool.turn h (.advance j)).outcome? i = pool.outcome? i := by
  cases hj : pool.resolutions[j]? with
  | none => rw [turn_advance_of_none hj]
  | some r => rw [turn_advance_of_some hj, outcome?, outcome?, List.getElem?_set_ne hne]

/-- A new lookup is under way, next to those that were before. -/
theorem underWay_begin {t : TypeName} {s : Signature} :
    (pool.turn h (.begin t s)).UnderWay i ↔ pool.UnderWay i ∨ i = pool.resolutions.length := by
  unfold UnderWay
  rw [length_begin]
  by_cases hi : i < pool.resolutions.length
  · have hne : i ≠ pool.resolutions.length := by omega
    simp [outcome?_begin hi, hi, hne, Nat.lt_succ_of_lt hi]
  · constructor
    · rintro ⟨hlt, -⟩
      exact .inr (by omega)
    · rintro (⟨hlt, -⟩ | rfl)
      · exact absurd hlt hi
      · refine ⟨by omega, ?_⟩
        simp [outcome?, turn, Resolving.begin, Resolving.outcome?]

/-- Whether a lookup is under way does not depend on the steps of others. -/
theorem underWay_advance_of_ne (hne : j ≠ i) :
    (pool.turn h (.advance j)).UnderWay i ↔ pool.UnderWay i := by
  rw [UnderWay, UnderWay, length_advance, outcome?_advance_of_ne hne]

/-- Nothing is under way just if every resolution has ended. -/
theorem not_underWay_iff_ended :
    (∀ i, ¬ pool.UnderWay i) ↔ ∀ r ∈ pool.resolutions, r.outcome?.isSome := by
  simp only [UnderWay, outcome?, not_and, List.forall_mem_iff_getElem]
  refine forall_congr' fun i => forall_congr' fun hi => ?_
  simp [hi, ← Option.isSome_iff_ne_none]

/-- A resolution that has ended takes no more steps. -/
theorem turn_advance_of_ended {outcome : Except Fault (Option Method)}
    (hended : pool.outcome? i = some outcome) : pool.turn h (.advance i) = pool := by
  rcases Option.bind_eq_some_iff.mp hended with ⟨r, hi, hr⟩
  have hstep : r.step h pool.memo = (r, pool.memo) := by
    unfold Resolving.outcome? at hr
    unfold Resolving.step
    cases hstage : r.stage <;> simp_all
  rcases List.getElem?_eq_some_iff.mp hi with ⟨hlt, rfl⟩
  rw [turn_advance_of_some hi, hstep, List.set_getElem_self]

/-- A lookup that has ended needs no more steps. -/
theorem settle_of_ended {outcome : Except Fault (Option Method)}
    (hended : pool.outcome? i = some outcome) (n : Nat) : pool.settle h i n = pool := by
  cases n with
  | zero => rfl
  | succ n => simp [settle, hended]

/-- To let a resolution come to its end is to give it turns. -/
theorem settle_eq_run (n : Nat) : pool.settle h i n = pool.run h (.replicate n (.advance i)) := by
  induction n generalizing pool with
  | zero => rfl
  | succ n ih =>
    rw [settle, List.replicate_succ, run_cons, ← ih]
    cases hended : pool.outcome? i with
    | none => rfl
    | some outcome =>
      rw [turn_advance_of_ended hended, settle_of_ended hended]
      rfl

/-- Once a resolution has ended, more turns for it do nothing. -/
theorem run_replicate_of_ended {m n : Nat}
    (hended : ((pool.run h (.replicate m (.advance i))).outcome? i).isSome) (hle : m ≤ n) :
    pool.run h (.replicate n (.advance i)) = pool.run h (.replicate m (.advance i)) := by
  rcases Option.isSome_iff_exists.mp hended with ⟨outcome, hended⟩
  rcases Nat.exists_eq_add_of_le hle with ⟨k, rfl⟩
  rw [← List.replicate_append_replicate, run_append, ← settle_eq_run k, settle_of_ended hended]

/-- A resolution that nobody disturbs ends as one that is made in one piece. -/
theorem settle_begin {t : TypeName} (hr : h.Represents p) (hacyclic : p.Acyclic) (s : Signature)
    (pool : Pool) :
    ∃ noted, (pool.turn h (.begin t s)).settle h pool.resolutions.length (Resolving.stepBound h)
      = ⟨((h.resolve t s).outcome pool.memo).2, pool.resolutions
          ++ [⟨t, s, noted, .done ((h.resolve t s).outcome pool.memo).1⟩]⟩ := by
  rcases Resolving.leads_resolve hr (hr.ends hacyclic t) s pool.memo with ⟨noted, hleads⟩
  have hbegun : (pool.turn h (.begin t s)).resolutions[pool.resolutions.length]?
      = some (.begin t s) := by
    simp [turn]
  rcases run_leads hbegun hleads with ⟨n, hrun⟩
  have hlast : (pool.turn h (.begin t s)).resolutions.set pool.resolutions.length
        ⟨t, s, noted, .done ((h.resolve t s).outcome pool.memo).1⟩
      = pool.resolutions ++ [⟨t, s, noted, .done ((h.resolve t s).outcome pool.memo).1⟩] := by
    simp [turn]
  rw [hlast] at hrun
  refine ⟨noted, ?_⟩
  rw [settle_eq_run, ← hrun]
  -- both numbers of turns are enough, so they make no difference
  rcases Nat.le_total n (Resolving.stepBound h) with hle | hle
  · refine run_replicate_of_ended ?_ hle
    rw [hrun]
    simp [outcome?, Resolving.outcome?]
  · obtain ⟨r, hr', hends⟩ := run_endsWithin hbegun (Resolving.endsWithin_begin hr hacyclic t s)
      (.replicate (Resolving.stepBound h) (.advance pool.resolutions.length))
    rw [List.count_replicate_self, Nat.sub_self] at hends
    rcases hends.done with ⟨outcome, hstage⟩
    refine (run_replicate_of_ended ?_ hle).symm
    simp [outcome?, hr', Resolving.outcome?, hstage]

end Pool

/-! ## Steps of a worker -/

namespace Plan

/-- A lookup that is not under way begins. -/
theorem finish_ask_none (l : Lookup) (next : Option Method → Plan α) (pool : Pool) :
    (ask l next).finish h none pool = (ask l next).finish h (some pool.resolutions.length)
      (pool.turn h (.begin l.start l.signature)) := by
  simp [finish]

end Plan

/-- All that the next step of a worker can be. -/
theorem Worker.step_cases {w : Worker α} {pool : Pool} {motive : Worker α × Pool → Prop}
    (idle : ∀ outcome, w.plan = .done outcome → motive (w, pool))
    (begins : ∀ l next, w.plan = .ask l next → w.slot = none →
      motive (⟨w.plan, some pool.resolutions.length⟩, pool.turn h (.begin l.start l.signature)))
    (waits : ∀ l next i, w.plan = .ask l next → w.slot = some i →
      (pool.turn h (.advance i)).outcome? i = none → motive (w, pool.turn h (.advance i)))
    (resumes : ∀ l next i outcome, w.plan = .ask l next → w.slot = some i →
      (pool.turn h (.advance i)).outcome? i = some outcome →
      motive ({ plan := (Plan.done outcome).bind next }, pool.turn h (.advance i))) :
    motive (w.step h pool) := by
  rcases w with ⟨plan, slot⟩
  unfold step
  cases plan with
  | done outcome => exact idle outcome rfl
  | ask l next =>
    cases slot with
    | none => exact begins l next rfl rfl
    | some i =>
      cases hended : (pool.turn h (.advance i)).outcome? i with
      | none => simpa only [hended] using waits l next i rfl rfl hended
      | some outcome => simpa only [hended] using resumes l next i outcome rfl rfl hended

namespace Crew

variable {crew : Crew α} {w : Worker α} {k : Nat}

/-- The place of the lookup that a worker waits for. -/
def slot? (crew : Crew α) (k : Nat) : Option Nat :=
  crew.workers[k]?.bind Worker.slot

theorem set_self (hw : crew.workers[k]? = some w) : crew.workers.set k w = crew.workers := by
  rcases List.getElem?_eq_some_iff.mp hw with ⟨_, rfl⟩
  exact List.set_getElem_self _

/-- A worker steps on the pool, and the others stay where they are. -/
theorem advance_of_some (hw : crew.workers[k]? = some w) :
    crew.advance h k = ⟨(w.step h crew.pool).2, crew.workers.set k (w.step h crew.pool).1⟩ := by
  simp only [advance, hw]

theorem advance_of_none (hnone : crew.workers[k]? = none) : crew.advance h k = crew := by
  simp only [advance, hnone]

@[simp] theorem run_nil : crew.run h [] = crew := rfl

@[simp] theorem run_cons (turns : List Nat) :
    crew.run h (k :: turns) = (crew.advance h k).run h turns := rfl

theorem run_append (turns more : List Nat) :
    crew.run h (turns ++ more) = (crew.run h turns).run h more :=
  List.foldl_append

/-- A step of a worker is a turn in the pool, or none. -/
theorem advance_pool (crew : Crew α) (k : Nat) :
    (crew.advance h k).pool = crew.pool
      ∨ ∃ turn, turn ≠ .forget ∧ (crew.advance h k).pool = crew.pool.turn h turn := by
  cases hw : crew.workers[k]? with
  | none => exact .inl (by rw [advance_of_none hw])
  | some w =>
    rw [advance_of_some hw]
    apply Worker.step_cases (motive := fun next =>
      next.2 = crew.pool ∨ ∃ turn, turn ≠ .forget ∧ next.2 = crew.pool.turn h turn)
    case idle =>
      intro outcome _
      exact .inl rfl
    case begins =>
      intro l next _ _
      exact .inr ⟨.begin l.start l.signature, by simp, rfl⟩
    case waits =>
      intro l next i _ _ _
      exact .inr ⟨.advance i, by simp, rfl⟩
    case resumes =>
      intro l next i outcome _ _ _
      exact .inr ⟨.advance i, by simp, rfl⟩

/-- So the steps of a crew are turns in its pool, and the memo is not emptied. -/
theorem run_pool (crew : Crew α) (turns : List Nat) :
    ∃ more, .forget ∉ more ∧ (crew.run h turns).pool = crew.pool.run h more := by
  induction turns generalizing crew with
  | nil => exact ⟨[], by simp, rfl⟩
  | cons k turns ih =>
    rcases ih (crew.advance h k) with ⟨more, hmore, hrun⟩
    rw [run_cons, hrun]
    rcases advance_pool (h := h) crew k with hpool | ⟨turn, hturn, hpool⟩
    · exact ⟨more, hmore, by rw [hpool]⟩
    · refine ⟨turn :: more, ?_, by rw [hpool]; rfl⟩
      simp [Ne.symm hturn, hmore]

/-! ## What workers wait for -/

/-- The lookups under way are those that the workers wait for. -/
structure Coherent (crew : Crew α) : Prop where
  /-- A worker that waits has asked the first question of its plan, and this lookup is under way. -/
  asked : ∀ (k : Nat) (w : Worker α) (i : Nat), crew.workers[k]? = some w → w.slot = some i →
    crew.pool.UnderWay i
    ∧ ∃ l next, w.plan = .ask l next ∧ crew.pool.questions[i]? = some l
  /-- Someone waits for every lookup under way. -/
  awaited : ∀ i, crew.pool.UnderWay i → ∃ k, crew.slot? k = some i
  /-- No two workers wait for the same lookup. -/
  apart : ∀ k k' i, crew.slot? k = some i → crew.slot? k' = some i → k = k'

/-- After a step of one worker, the others wait for what they waited for. -/
theorem slot?_set {pool : Pool} {workers : List (Worker α)} (hk : k < workers.length)
    (next : Worker α) (j : Nat) :
    slot? ⟨pool, workers.set k next⟩ j
      = if k = j then next.slot else slot? ⟨pool, workers⟩ j := by
  unfold slot?
  rw [List.getElem?_set]
  split
  · rename_i hj
    subst hj
    simp
  · rfl

/-- After a step of one worker, it is there in its new state, and the others as they were. -/
theorem getElem?_set_cases {workers : List (Worker α)} {next w' : Worker α} {j : Nat}
    (hw' : (workers.set k next)[j]? = some w') :
    k = j ∧ w' = next ∨ k ≠ j ∧ workers[j]? = some w' := by
  rw [List.getElem?_set] at hw'
  by_cases hkj : k = j
  · rw [if_pos hkj] at hw'
    split at hw'
    · exact .inl ⟨hkj, (Option.some.inj hw').symm⟩
    · cases hw'
  · rw [if_neg hkj] at hw'
    exact .inr ⟨hkj, hw'⟩

section Coherent

variable {i : Nat} (hcrew : crew.Coherent) (hw : crew.workers[k]? = some w)
include hcrew hw

/-- A worker that begins a lookup waits for it, at a place that nobody has waited for. -/
theorem Coherent.begins {l : Lookup} {next : Option Method → Plan α} (hplan : w.plan = .ask l next)
    (hnone : w.slot = none) :
    Coherent ⟨crew.pool.turn h (.begin l.start l.signature),
      crew.workers.set k ⟨w.plan, some crew.pool.resolutions.length⟩⟩ := by
  have hk : k < crew.workers.length := (List.getElem?_eq_some_iff.mp hw).1
  have hiff : ∀ j, (crew.pool.turn h (.begin l.start l.signature)).UnderWay j
      ↔ crew.pool.UnderWay j ∨ j = crew.pool.resolutions.length :=
    fun _ => Pool.underWay_begin
  constructor
  case asked =>
    intro k' w' i hw' hi
    rcases getElem?_set_cases hw' with ⟨-, rfl⟩ | ⟨-, hw'⟩
    · obtain rfl := Option.some.inj hi
      refine ⟨(hiff _).mpr (.inr rfl), l, next, hplan, ?_⟩
      simp [Pool.questions, Pool.turn_questions, Turn.begun?]
    · rcases hcrew.asked k' w' i hw' hi with ⟨hunder, l', next', hplan', hl'⟩
      refine ⟨(hiff _).mpr (.inl hunder), l', next', hplan', ?_⟩
      rw [Pool.questions, Pool.turn_questions]
      exact List.getElem?_append_left (List.getElem?_eq_some_iff.mp hl').1 ▸ hl'
  case awaited =>
    intro i hi
    rcases (hiff i).mp hi with hold | rfl
    · rcases hcrew.awaited i hold with ⟨k', hk'⟩
      have hne : k ≠ k' := by
        rintro rfl
        simp [slot?, hw, hnone] at hk'
      exact ⟨k', by rw [slot?_set hk, if_neg hne]; exact hk'⟩
    · exact ⟨k, by rw [slot?_set hk, if_pos rfl]⟩
  case apart =>
    have hnew : ∀ k', crew.slot? k' ≠ some crew.pool.resolutions.length := by
      intro k' hk'
      rcases Option.bind_eq_some_iff.mp hk' with ⟨w', hw', hi⟩
      exact absurd (hcrew.asked k' w' _ hw' hi).1.1 (Nat.lt_irrefl _)
    intro k₁ k₂ i h₁ h₂
    rw [slot?_set hk] at h₁ h₂
    split at h₁ <;> split at h₂
    · simp_all
    · exact absurd (h₂.trans h₁.symm) (hnew k₂)
    · exact absurd (h₁.trans h₂.symm) (hnew k₁)
    · exact hcrew.apart k₁ k₂ i h₁ h₂

/-- A lookup that takes a step and does not end with it is waited for as before. -/
theorem Coherent.waits (hi : w.slot = some i)
    (hwaits : (crew.pool.turn h (.advance i)).outcome? i = none) :
    Coherent ⟨crew.pool.turn h (.advance i), crew.workers⟩ := by
  have hunder := (hcrew.asked k w i hw hi).1
  have hiff : ∀ j, (crew.pool.turn h (.advance i)).UnderWay j ↔ crew.pool.UnderWay j := by
    intro j
    by_cases hij : i = j
    · subst hij
      refine iff_of_true ⟨?_, hwaits⟩ hunder
      rw [Pool.length_advance]
      exact hunder.1
    · exact Pool.underWay_advance_of_ne hij
  constructor
  case asked =>
    intro k' w' j hw' hj
    rw [hiff, Pool.questions_advance]
    exact hcrew.asked k' w' j hw' hj
  case awaited =>
    intro j hj
    exact hcrew.awaited j ((hiff j).mp hj)
  case apart => exact hcrew.apart

/-- A worker whose lookup has ended waits for nothing, and nobody else has waited for this lookup. -/
theorem Coherent.resumes {outcome : Except Fault (Option Method)} (hi : w.slot = some i)
    (hended : (crew.pool.turn h (.advance i)).outcome? i = some outcome) (plan : Plan α) :
    Coherent ⟨crew.pool.turn h (.advance i), crew.workers.set k { plan }⟩ := by
  have hk : k < crew.workers.length := (List.getElem?_eq_some_iff.mp hw).1
  have hslot : crew.slot? k = some i := by simp [slot?, hw, hi]
  have hiff : ∀ j, (crew.pool.turn h (.advance i)).UnderWay j
      ↔ crew.pool.UnderWay j ∧ i ≠ j := by
    intro j
    by_cases hij : i = j
    · subst hij
      simp [Pool.UnderWay, hended]
    · simp [Pool.underWay_advance_of_ne hij, hij]
  constructor
  case asked =>
    intro k' w' j hw' hj
    rcases getElem?_set_cases hw' with ⟨-, rfl⟩ | ⟨hk', hw'⟩
    · cases hj
    · rcases hcrew.asked k' w' j hw' hj with ⟨hunder, hasked⟩
      have hne : i ≠ j := by
        rintro rfl
        exact hk' (hcrew.apart k k' i hslot (by simp [slot?, hw', hj]))
      rw [hiff, Pool.questions_advance]
      exact ⟨⟨hunder, hne⟩, hasked⟩
  case awaited =>
    intro j hj
    rcases (hiff j).mp hj with ⟨hunder, hne⟩
    rcases hcrew.awaited j hunder with ⟨k', hk'⟩
    have hother : k ≠ k' := by
      rintro rfl
      exact hne (Option.some.inj (hslot.symm.trans hk'))
    exact ⟨k', by rw [slot?_set hk, if_neg hother]; exact hk'⟩
  case apart =>
    intro k₁ k₂ j h₁ h₂
    rw [slot?_set hk] at h₁ h₂
    split at h₁
    · cases h₁
    · split at h₂
      · cases h₂
      · exact hcrew.apart k₁ k₂ j h₁ h₂

end Coherent

/-- After a step of any worker, the lookups under way are those that the workers wait for. -/
theorem advance_coherent (hcrew : crew.Coherent) (k : Nat) : (crew.advance h k).Coherent := by
  cases hw : crew.workers[k]? with
  | none => rwa [advance_of_none hw]
  | some w =>
    rw [advance_of_some hw]
    apply Worker.step_cases
      (motive := fun next => Coherent ⟨next.2, crew.workers.set k next.1⟩)
    case idle =>
      intro outcome _
      rwa [set_self hw]
    case begins =>
      intro l next hplan hnone
      exact hcrew.begins (h := h) hw hplan hnone
    case waits =>
      intro l next i _ hi hwaits
      rw [set_self hw]
      exact hcrew.waits hw hi hwaits
    case resumes =>
      intro l next i outcome _ hi hended
      exact hcrew.resumes hw hi hended _

/-- So it is after any steps of the workers. -/
theorem run_coherent (hcrew : crew.Coherent) (turns : List Nat) : (crew.run h turns).Coherent :=
  List.foldlRecOn turns _ hcrew fun _ hnow k _ => advance_coherent hnow k

/-- Where nobody else waits, no two lookups are under way. -/
theorem Coherent.atMostOne (hcrew : crew.Coherent) (halone : ∀ k', k ≠ k' → crew.slot? k' = none) :
    crew.pool.AtMostOne := by
  have honly : ∀ i, crew.pool.UnderWay i → crew.slot? k = some i := by
    intro i hi
    rcases hcrew.awaited i hi with ⟨k', hk'⟩
    by_cases hne : k = k'
    · rwa [hne]
    · rw [halone k' hne] at hk'
      cases hk'
  intro i j hi hj
  exact Option.some.inj ((honly i hi).symm.trans (honly j hj))

/-- Steps of one worker do not change what another one waits for. -/
theorem slot?_run_replicate {k' : Nat} (hne : k ≠ k') (n : Nat) :
    (crew.run h (.replicate n k)).slot? k' = crew.slot? k' := by
  induction n generalizing crew with
  | zero => rfl
  | succ n ih =>
    rw [List.replicate_succ, run_cons, ih]
    cases hw : crew.workers[k]? with
    | none => rw [advance_of_none hw]
    | some w => rw [advance_of_some hw, slot?, slot?, List.getElem?_set_ne hne]

/-- Before their first steps the workers wait for nothing. -/
theorem coherent_of_new (memo : Memo) (plans : List (Plan α)) :
    Coherent ⟨{ memo }, plans.map fun plan => { plan }⟩ := by
  have hnone : ∀ k, slot? ⟨{ memo }, plans.map fun plan => { plan }⟩ k = none := by
    intro k
    simp only [slot?, List.getElem?_map, Option.bind_map]
    cases plans[k]? <;> rfl
  constructor
  case asked =>
    intro k w i hw hi
    have hslot := hnone k
    rw [slot?, hw, Option.bind_some, hi] at hslot
    cases hslot
  case awaited =>
    intro i hi
    exact absurd hi.1 (Nat.not_lt_zero i)
  case apart =>
    intro k k' i hi
    rw [hnone] at hi
    cases hi

/-! ## What every step keeps -/

section All

variable {good : Memo → Prop} {fine : Resolving → Prop} (hbegin : ∀ t s, fine (.begin t s))
  (hstep : ∀ r memo, good memo → fine r → fine (r.step h memo).1 ∧ good (r.step h memo).2)
include hbegin hstep

/-- What new resolutions have and every step keeps is kept by the steps of a crew. -/
theorem run_all (hall : crew.pool.All good fine) (turns : List Nat) :
    (crew.run h turns).pool.All good fine := by
  rcases run_pool (h := h) crew turns with ⟨more, hmore, hrun⟩
  rw [hrun]
  exact Pool.run_all hbegin hstep more (fun hforget => absurd hforget hmore) hall

end All

/-- No lookup of a crew is ever further from its end than a new one. -/
theorem run_bounded (hr : h.Represents p) (hacyclic : p.Acyclic) (hbounded : crew.pool.Bounded h)
    (turns : List Nat) : (crew.run h turns).pool.Bounded h :=
  run_all (Resolving.endsWithin_begin hr hacyclic) Pool.step_bounded hbounded turns

/-! ## To the end -/

section Finish

variable {l : Lookup} {next : Option Method → Plan α} {i : Nat}

/-- A worker that waits comes with its own steps to the end of its lookup, and goes on with the
answer. -/
theorem exists_run_settle {n : Nat} {r : Resolving} (hw : crew.workers[k]? = some w)
    (hplan : w.plan = .ask l next) (hslot : w.slot = some i)
    (hr : crew.pool.resolutions[i]? = some r) (hends : r.EndsWithin h n) :
    ∃ m outcome, (crew.pool.settle h i n).outcome? i = some outcome
      ∧ crew.run h (.replicate m k) = ⟨crew.pool.settle h i n,
          crew.workers.set k { plan := (Plan.done outcome).bind next }⟩ := by
  have hlast : ∀ {crew : Crew α} {outcome}, crew.workers[k]? = some w →
      (crew.pool.turn h (.advance i)).outcome? i = some outcome →
      crew.advance h k = ⟨crew.pool.turn h (.advance i),
        crew.workers.set k { plan := (Plan.done outcome).bind next }⟩ := by
    intro crew outcome hw hended
    rw [advance_of_some hw, Worker.step, hplan, hslot]
    simp only [hended]
  have hover : ∀ {crew : Crew α} {outcome} (n : Nat), crew.workers[k]? = some w →
      crew.pool.outcome? i = some outcome →
      ∃ m outcome, (crew.pool.settle h i n).outcome? i = some outcome
        ∧ crew.run h (.replicate m k) = ⟨crew.pool.settle h i n,
            crew.workers.set k { plan := (Plan.done outcome).bind next }⟩ := by
    intro crew outcome n hw hended
    have hsame := Pool.turn_advance_of_ended (h := h) hended
    have hadvance := hlast hw (hsame ▸ hended)
    rw [hsame] at hadvance
    rw [Pool.settle_of_ended hended]
    exact ⟨1, outcome, hended, hadvance⟩
  induction n generalizing crew r with
  | zero =>
    rcases hends.done with ⟨outcome, hstage⟩
    have hended : crew.pool.outcome? i = some outcome := by
      simp [Pool.outcome?, hr, Resolving.outcome?, hstage]
    exact hover 0 hw hended
  | succ n ih =>
    cases hended : crew.pool.outcome? i with
    | some outcome => exact hover (n + 1) hw hended
    | none =>
      have hsettle : crew.pool.settle h i (n + 1)
          = (crew.pool.turn h (.advance i)).settle h i n := by
        simp [Pool.settle, hended]
      rw [hsettle]
      cases hnext : (crew.pool.turn h (.advance i)).outcome? i with
      | some outcome =>
        rw [Pool.settle_of_ended hnext]
        exact ⟨1, outcome, hnext, hlast hw hnext⟩
      | none =>
        have hadvance : crew.advance h k = ⟨crew.pool.turn h (.advance i), crew.workers⟩ := by
          rw [advance_of_some hw, Worker.step, hplan, hslot]
          simp only [hnext, set_self hw]
        rcases Pool.turn_endsWithin hr hends (.advance i) with ⟨r', hr', hends'⟩
        have hw' : (⟨crew.pool.turn h (.advance i), crew.workers⟩ : Crew α).workers[k]? = some w := hw
        rcases ih hw' hr' (by simpa using hends') with ⟨m, outcome, houtcome, hrun⟩
        refine ⟨m + 1, outcome, houtcome, ?_⟩
        rw [List.replicate_succ, run_cons, hadvance, hrun]

variable (hr : h.Represents p) (hacyclic : p.Acyclic)
include hr hacyclic

/-- A worker comes with its own steps to the end of its plan. -/
theorem exists_run_finish (hw : crew.workers[k]? = some w) (hcrew : crew.Coherent)
    (hbounded : crew.pool.Bounded h) :
    ∃ n w', crew.run h (.replicate n k)
        = ⟨(w.plan.finish h w.slot crew.pool).2, crew.workers.set k w'⟩
      ∧ w'.plan = .done (w.plan.finish h w.slot crew.pool).1 := by
  rcases w with ⟨plan, slot⟩
  induction plan generalizing crew slot with
  | done outcome =>
    refine ⟨0, ⟨.done outcome, slot⟩, ?_, rfl⟩
    rw [set_self hw]
    rfl
  | ask l next ih =>
    have hwaiting : ∀ {crew : Crew α} {i}, crew.workers[k]? = some ⟨.ask l next, some i⟩ →
        crew.Coherent → crew.pool.Bounded h →
        ∃ n w', crew.run h (.replicate n k)
            = ⟨((Plan.ask l next).finish h (some i) crew.pool).2, crew.workers.set k w'⟩
          ∧ w'.plan = .done ((Plan.ask l next).finish h (some i) crew.pool).1 := by
      intro crew i hw hcrew hbounded
      have hk : k < crew.workers.length := (List.getElem?_eq_some_iff.mp hw).1
      have hi := (hcrew.asked k _ i hw rfl).1.1
      obtain ⟨m, outcome, houtcome, hrun⟩ := exists_run_settle hw rfl rfl
        (List.getElem?_eq_getElem hi) (hbounded.2 _ (List.getElem_mem hi))
      cases outcome with
      | error fault =>
        refine ⟨m, { plan := .done (.error fault) }, ?_⟩
        simp only [Plan.finish, Option.getD_some, Option.isSome_some, if_true, houtcome]
        exact ⟨hrun, trivial⟩
      | ok answer =>
        simp only [Plan.finish, Option.getD_some, Option.isSome_some, if_true, houtcome]
        have hcrew' := run_coherent (h := h) hcrew (.replicate m k)
        have hbounded' := run_bounded hr hacyclic hbounded (.replicate m k)
        rw [hrun] at hcrew' hbounded'
        obtain ⟨n, w', hrun', hw'⟩ :=
          ih answer hcrew' hbounded' none (List.getElem?_set_self hk)
        refine ⟨m + n, w', ?_, hw'⟩
        rw [← List.replicate_append_replicate, run_append, hrun, hrun', List.set_set]
    cases slot with
    | some i => exact hwaiting hw hcrew hbounded
    | none =>
      -- the first lookup begins
      have hk : k < crew.workers.length := (List.getElem?_eq_some_iff.mp hw).1
      have hadvance : crew.advance h k = ⟨crew.pool.turn h (.begin l.start l.signature),
          crew.workers.set k ⟨.ask l next, some crew.pool.resolutions.length⟩⟩ :=
        advance_of_some hw
      have hcrew' := advance_coherent (h := h) hcrew k
      have hbounded' := run_bounded hr hacyclic hbounded [k]
      rw [run_cons, run_nil, hadvance] at hbounded'
      rw [hadvance] at hcrew'
      rcases hwaiting (List.getElem?_set_self hk) hcrew' hbounded' with ⟨n, w', hrun, hw'⟩
      simp only [Plan.finish_ask_none]
      refine ⟨n + 1, w', ?_, hw'⟩
      rw [List.replicate_succ, run_cons, hadvance, hrun, List.set_set]

/-- Workers come to the ends of their plans one after the other. Where none of them waits at first, there
is never more than one lookup under way. -/
theorem exists_run_finishAll (before ws : List (Worker α)) (pool : Pool)
    (hcrew : Coherent ⟨pool, before ++ ws⟩) (hbounded : pool.Bounded h) :
    ∃ turns ws', run h ⟨pool, before ++ ws⟩ turns = ⟨(finishAll h ws pool).2, before ++ ws'⟩
      ∧ ws'.map Worker.plan = (finishAll h ws pool).1.map Plan.done
      ∧ ((∀ k, slot? ⟨pool, before ++ ws⟩ k = none) →
          ∀ front, front <+: turns → (run h ⟨pool, before ++ ws⟩ front).pool.AtMostOne) := by
  induction ws generalizing before pool with
  | nil =>
    refine ⟨[], [], rfl, rfl, fun hnone front hfront => ?_⟩
    rw [List.prefix_nil.mp hfront]
    exact hcrew.atMostOne (k := 0) fun k _ => hnone k
  | cons w ws ih =>
    have hw : (⟨pool, before ++ w :: ws⟩ : Crew α).workers[before.length]? = some w := by simp
    rcases exists_run_finish hr hacyclic hw hcrew hbounded with ⟨n, w', hrun, hplan⟩
    have hset : (before ++ w :: ws).set before.length w' = (before ++ [w']) ++ ws := by simp
    rw [hset] at hrun
    have hnext := run_coherent (h := h) hcrew (.replicate n before.length)
    have hbounded' : (run h ⟨pool, before ++ w :: ws⟩ (.replicate n before.length)).pool.Bounded h :=
      run_bounded hr hacyclic hbounded _
    rw [hrun] at hnext hbounded'
    rcases ih (before ++ [w']) _ hnext hbounded' with ⟨turns, ws', hrest, hplans, hone⟩
    refine ⟨.replicate n before.length ++ turns, w' :: ws', ?_, ?_, ?_⟩
    · rw [run_append, hrun, hrest, List.append_assoc]
      rfl
    · rw [List.map_cons, hplan, hplans]
      rfl
    · intro hnone front hfront
      have halone : ∀ m k, before.length ≠ k →
          (run h ⟨pool, before ++ w :: ws⟩ (.replicate m before.length)).slot? k = none := by
        intro m k hne
        rw [slot?_run_replicate hne]
        exact hnone k
      rcases hfront with ⟨rest, hfront⟩
      rcases List.append_eq_append_iff.mp hfront with ⟨more, hmore, -⟩ | ⟨more, rfl, hmore⟩
      · -- still at work on the first plan
        have hreplicate := (List.prefix_replicate_iff.mp ⟨more, hmore.symm⟩).2
        rw [hreplicate]
        exact (run_coherent hcrew _).atMostOne (halone _)
      · rw [run_append, hrun]
        refine hone ?_ more ⟨rest, hmore.symm⟩
        intro k
        by_cases hk : before.length = k
        · subst hk
          -- the first worker is done, and waits for nothing
          cases hslot : w'.slot with
          | none => simp [slot?, hslot]
          | some i =>
            rcases hnext.asked before.length w' i (by simp) hslot with ⟨-, l, next, hask, -⟩
            rw [hplan] at hask
            cases hask
        · rw [← hrun]
          exact halone n k hk

/-- To let all workers come to their ends is one more order of steps. Where nobody waits at first, no two
lookups are under way in the course of it. -/
theorem exists_turns (hcrew : crew.Coherent) (hbounded : crew.pool.Bounded h) :
    ∃ turns, (crew.run h turns).pool = (crew.finish h).2
      ∧ (crew.run h turns).workers.map Worker.plan = (crew.finish h).1.map Plan.done
      ∧ ((∀ k, crew.slot? k = none) →
          ∀ front, front <+: turns → (crew.run h front).pool.AtMostOne) := by
  obtain ⟨turns, ws, hrun, hplans, hone⟩ :=
    exists_run_finishAll hr hacyclic [] crew.workers crew.pool hcrew hbounded
  refine ⟨turns, ?_, ?_, hone⟩
  · exact congrArg Crew.pool hrun
  · exact (congrArg (List.map Worker.plan ∘ Crew.workers) hrun).trans hplans

end Finish

/-! ### What is there at the end -/

section Ended

variable (hr : h.Represents p) (hacyclic : p.Acyclic) (hcrew : crew.Coherent)
  (hbounded : crew.pool.Bounded h)
include hr hacyclic hcrew hbounded

/-- When all workers have come to their ends no lookup is under way. -/
theorem finish_ended (i : Nat) : ¬ (crew.finish h).2.UnderWay i := by
  rcases exists_turns hr hacyclic hcrew hbounded with ⟨turns, hpool, hplans, -⟩
  have hend := run_coherent (h := h) hcrew turns
  rw [← hpool]
  intro hi
  rcases hend.awaited i hi with ⟨k, hk⟩
  rcases Option.bind_eq_some_iff.mp hk with ⟨w, hw, hslot⟩
  rcases hend.asked k w i hw hslot with ⟨-, l, next, hask, -⟩
  -- a worker that waits has not come to its end
  have hplan : ((crew.run h turns).workers.map Worker.plan)[k]? = some (.ask l next) := by
    rw [List.getElem?_map, hw, ← hask]
    rfl
  rw [hplans, List.getElem?_map, Option.map_eq_some_iff] at hplan
  rcases hplan with ⟨outcome, -, houtcome⟩
  cases houtcome

end Ended

theorem length_run (turns : List Nat) : (crew.run h turns).workers.length = crew.workers.length := by
  induction turns generalizing crew with
  | nil => rfl
  | cons k turns ih =>
    rw [run_cons, ih]
    cases hw : crew.workers[k]? with
    | none => rw [advance_of_none hw]
    | some w => rw [advance_of_some hw, List.length_set]

/-- Every worker comes to one outcome. -/
theorem length_finishAll (ws : List (Worker α)) (pool : Pool) :
    (finishAll h ws pool).1.length = ws.length := by
  induction ws generalizing pool with
  | nil => rfl
  | cons w ws ih => exact congrArg (· + 1) (ih _)

end Crew

end ClassHierarchy

import ClassHierarchy.TypeName
import Mathlib.Logic.Relation

/-!
# Chains

A type has at most one parent, so climbing from a type is following a partial function. Its values
either come to an end, and are then listed without repetition, or they run into a cycle. The facts
here hold for every partial function `next`; a program and its hierarchy both give one.

* `Chain.nodup`, `Chain.length_le`: a chain that ends repeats nothing, so it is no longer than the
  number of links plus one.
* `ends_of_acyclic`: where links are finite in number and no cycle is reached, the chain ends.
* `Chain.mem_iff`: the chain lists just what is reached.
* `entersCycle_of_rho`: a walk that comes back to one of its own members enters a cycle there, and
  nothing that it passed before is on a cycle.
-/

namespace ClassHierarchy

variable {α : Type} {next : α → Option α} {a b c : α} {l l' : List α}

/-- `b` comes next after `a`. -/
def Linked (next : α → Option α) (a b : α) : Prop :=
  next a = some b

/-- `b` is reached from `a` by zero or more links. -/
abbrev Reaches (next : α → Option α) : α → α → Prop :=
  Relation.ReflTransGen (Linked next)

/-- One or more links lead from `a` back to `a`. -/
def OnCycle (next : α → Option α) (a : α) : Prop :=
  Relation.TransGen (Linked next) a a

/-- There is one next member at most. -/
theorem linked_unique : Relator.RightUnique (Linked next) := by
  intro a b c hab hac
  exact Option.some.inj (hab.symm.trans hac)

/-- What is reached is the start, or reached from the next member. -/
theorem reaches_iff_head :
    Reaches next a b ↔ a = b ∨ ∃ c, next a = some c ∧ Reaches next c b :=
  Relation.ReflTransGen.cases_head_iff

/-! ## Finite chains -/

/-- The chain from `a` is the list `l`: it starts with `a`, each member comes next after the one
before it, and nothing comes after the last one. -/
inductive Chain (next : α → Option α) : α → List α → Prop where
  | last {a : α} : next a = none → Chain next a [a]
  | link {a b : α} {l : List α} : next a = some b → Chain next b l → Chain next a (a :: l)

/-- The chain from `a` is finite. -/
def Ends (next : α → Option α) (a : α) : Prop :=
  ∃ l, Chain next a l

/-- A start has one chain. -/
theorem Chain.unique (h : Chain next a l) (h' : Chain next a l') : l = l' := by
  induction h generalizing l' with
  | last hnone =>
    cases h' with
    | last _ => rfl
    | link hsome _ => rw [hnone] at hsome; cases hsome
  | link hsome _ ih =>
    cases h' with
    | last hnone => rw [hnone] at hsome; cases hsome
    | link hsome' hrest =>
      obtain rfl := linked_unique hsome hsome'
      rw [ih hrest]

/-- Every member of a chain starts a chain of its own, the rest of the whole one. -/
theorem Chain.suffix_of_mem (h : Chain next a l) (hb : b ∈ l) :
    ∃ l', Chain next b l' ∧ l' <:+ l := by
  induction h with
  | last hnone =>
    obtain rfl := List.mem_singleton.mp hb
    exact ⟨[b], .last hnone, List.suffix_rfl⟩
  | link hsome hrest ih =>
    rcases List.mem_cons.mp hb with rfl | hb
    · exact ⟨_, .link hsome hrest, List.suffix_rfl⟩
    · obtain ⟨l', hl', hsuf⟩ := ih hb
      exact ⟨l', hl', hsuf.trans (List.suffix_cons _ _)⟩

/-- From any place on, a chain is the chain of the member that stands there. -/
theorem Chain.of_append {front back : List α} (h : Chain next a (front ++ b :: back)) :
    Chain next b (b :: back) := by
  induction front generalizing a with
  | nil =>
    cases h with
    | last hnone => exact .last hnone
    | link hsome hrest => exact .link hsome hrest
  | cons x front ih =>
    generalize hl : x :: front ++ b :: back = l at h
    cases h with
    | last _ => simp at hl
    | link _ hrest =>
      rw [List.cons_append, List.cons.injEq] at hl
      exact ih (hl.2 ▸ hrest)

/-- A chain that ends comes to no member twice, or it would go round for ever. -/
theorem Chain.nodup (h : Chain next a l) : l.Nodup := by
  induction h with
  | last _ => simp
  | link hsome hrest ih =>
    refine List.nodup_cons.mpr ⟨?_, ih⟩
    intro hmem
    -- the chain from a repeated member would be a proper part of itself
    obtain ⟨l', hl', hsuf⟩ := hrest.suffix_of_mem hmem
    have hlen := hsuf.length_le
    rw [← (Chain.link hsome hrest).unique hl', List.length_cons] at hlen
    omega

/-- A chain has what its start reaches. -/
theorem Chain.mem_iff (h : Chain next a l) : b ∈ l ↔ Reaches next a b := by
  induction h with
  | @last a hnone =>
    rw [List.mem_singleton, reaches_iff_head]
    constructor
    · rintro rfl
      exact .inl rfl
    · rintro (rfl | ⟨c, hc, -⟩)
      · rfl
      · rw [hnone] at hc
        cases hc
  | @link a c l hsome hrest ih =>
    rw [List.mem_cons, ih, reaches_iff_head (a := a)]
    constructor
    · rintro (rfl | hb)
      · exact .inl rfl
      · exact .inr ⟨c, hsome, hb⟩
    · rintro (rfl | ⟨c', hc', hb⟩)
      · exact .inl rfl
      · obtain rfl := linked_unique hsome hc'
        exact .inr hb

theorem Chain.head_eq (h : Chain next a l) : ∃ rest, l = a :: rest := by
  cases h with
  | last _ => exact ⟨[], rfl⟩
  | link _ _ => exact ⟨_, rfl⟩

theorem Chain.length_pos (h : Chain next a l) : 0 < l.length := by
  rcases h.head_eq with ⟨rest, rfl⟩
  exact Nat.succ_pos _

/-- All members but the last have a link of their own. -/
theorem Chain.length_le (h : Chain next a l) {sources : List α}
    (hsources : ∀ x y, next x = some y → x ∈ sources) : l.length ≤ sources.length + 1 := by
  -- the last member has no link, so it is left out of the count
  have hsub : l.dropLast ⊆ sources := by
    induction h with
    | last _ => simp
    | link hsome hrest ih =>
      obtain ⟨rest, rfl⟩ := hrest.head_eq
      rw [List.dropLast_cons_cons]
      exact List.cons_subset.mpr ⟨hsources _ _ hsome, ih⟩
  have hlen : l.dropLast.length ≤ sources.length :=
    (h.nodup.sublist (List.dropLast_sublist l)).length_le_of_subset hsub
  rw [List.length_dropLast] at hlen
  omega

/-! ## Ends and cycles -/

theorem ends_of_none (hnone : next a = none) : Ends next a :=
  ⟨[a], .last hnone⟩

/-- The links from a member end just if those from the next one do. -/
theorem ends_iff_of_linked (hsome : next a = some b) : Ends next a ↔ Ends next b := by
  constructor
  · rintro ⟨l, h⟩
    cases h with
    | last hnone => rw [hnone] at hsome; cases hsome
    | link hsome' hrest =>
      obtain rfl := linked_unique hsome hsome'
      exact ⟨_, hrest⟩
  · rintro ⟨l, h⟩
    exact ⟨a :: l, .link hsome h⟩

/-- The links end from all places on the way, or from none. -/
theorem ends_iff_of_reaches (h : Reaches next a b) : Ends next a ↔ Ends next b := by
  induction h with
  | refl => rfl
  | tail _ hlink ih => exact ih.trans (ends_iff_of_linked hlink)

/-- Who goes round in a cycle never comes to an end. -/
theorem Ends.not_onCycle (h : Ends next a) : ¬ OnCycle next a := by
  obtain ⟨l, hl⟩ := h
  intro hcycle
  obtain ⟨b, hab, hba⟩ := Relation.TransGen.head'_iff.mp hcycle
  cases hl with
  | last hnone => rw [Linked, hnone] at hab; cases hab
  | link hsome hrest =>
    obtain rfl := linked_unique hsome hab
    -- the cycle would bring the start back into the rest of its own chain
    have hnodup := (Chain.link hsome hrest).nodup
    exact (List.nodup_cons.mp hnodup).1 (hrest.mem_iff.mpr hba)

/-- What comes after a member of a cycle is on a cycle. -/
theorem OnCycle.forward (h : OnCycle next a) (hsome : next a = some b) : OnCycle next b := by
  obtain ⟨c, hac, hca⟩ := Relation.TransGen.head'_iff.mp h
  obtain rfl := linked_unique hsome hac
  exact Relation.TransGen.tail'_iff.mpr ⟨a, hca, hsome⟩

/-- Whatever is reached from a member of a cycle is on a cycle. -/
theorem OnCycle.of_reaches (h : OnCycle next a) (hab : Reaches next a b) : OnCycle next b := by
  induction hab with
  | refl => exact h
  | tail _ hlink ih => exact ih.forward hlink

/-- Where links are finite in number and no cycle is reached, the chain ends. The induction is on the
number of linked members that can still be reached: the start is one of them, and it is not reached
from the member after it. -/
theorem ends_of_acyclic {sources : List α} (hsources : ∀ x y, next x = some y → x ∈ sources)
    (hacyclic : ∀ b, Reaches next a b → ¬ OnCycle next b) : Ends next a := by
  classical
  generalize hn : sources.countP (fun x => Reaches next a x) = n
  induction n using Nat.strongRecOn generalizing a with
  | _ n ih =>
    cases hnext : next a with
    | none => exact ends_of_none hnext
    | some b =>
      have hbelow : ∀ c, Reaches next b c → Reaches next a c := fun c hc => .head hnext hc
      have hback : ¬ Reaches next b a := by
        intro hba
        exact hacyclic a .refl (Relation.TransGen.head'_iff.mpr ⟨b, hnext, hba⟩)
      have hfewer : sources.countP (fun x => Reaches next b x) < n := by
        rw [← hn]
        refine TypeName.countP_lt_countP ?_ (hsources a b hnext) (by simpa using hback) ?_
        · intro c _ hc
          simpa using hbelow c (by simpa using hc)
        · simpa using Relation.ReflTransGen.refl
      rw [ends_iff_of_linked hnext]
      exact ih _ hfewer (fun c hc => hacyclic c (hbelow c hc)) rfl

/-! ## Entering a cycle -/

/-- Following the links from `a`, the first member of a cycle that is met is `b`. -/
inductive EntersCycle (next : α → Option α) : α → α → Prop where
  | here {a : α} : OnCycle next a → EntersCycle next a a
  | later {a b c : α} : ¬ OnCycle next a → next a = some b → EntersCycle next b c →
      EntersCycle next a c

theorem EntersCycle.onCycle (h : EntersCycle next a b) : OnCycle next b := by
  induction h with
  | here hcycle => exact hcycle
  | later _ _ _ ih => exact ih

/-- Who enters a cycle never comes to an end. -/
theorem EntersCycle.not_ends (h : EntersCycle next a b) : ¬ Ends next a := by
  induction h with
  | here hcycle => exact fun hends => hends.not_onCycle hcycle
  | later _ hsome _ ih => exact fun hends => ih ((ends_iff_of_linked hsome).mp hends)

/-- There is one place at most where a cycle is entered. -/
theorem EntersCycle.unique (h : EntersCycle next a b) (h' : EntersCycle next a c) : b = c := by
  induction h with
  | here hcycle =>
    cases h' with
    | here _ => rfl
    | later hoff _ _ => exact absurd hcycle hoff
  | later hoff hsome _ ih =>
    cases h' with
    | here hcycle => exact absurd hcycle hoff
    | later _ hsome' hrest =>
      obtain rfl := linked_unique hsome hsome'
      exact ih hrest

/-- A walk from `a` over the members of `l`, in this order, has come to `b`. -/
inductive Walk (next : α → Option α) : α → List α → α → Prop where
  | start {a : α} : Walk next a [] a
  | step {a b c : α} {l : List α} : next a = some b → Walk next b l c → Walk next a (a :: l) c

/-- A walk goes on to the next member. -/
theorem Walk.concat (h : Walk next a l b) (hsome : next b = some c) :
    Walk next a (l ++ [b]) c := by
  induction h with
  | start => exact .step hsome .start
  | step hfirst _ ih => exact .step hfirst (ih hsome)

/-- A walk comes to the end of each front part. -/
theorem Walk.split {front back : List α} (h : Walk next a (front ++ back) c) :
    ∃ b, Walk next a front b ∧ Walk next b back c := by
  induction front generalizing a with
  | nil => exact ⟨a, .start, h⟩
  | cons x front ih =>
    cases h with
    | step hsome hrest =>
      obtain ⟨b, hfront, hback⟩ := ih hrest
      exact ⟨b, .step hsome hfront, hback⟩

theorem Walk.reaches (h : Walk next a l b) : Reaches next a b := by
  induction h with
  | start => exact .refl
  | step hsome _ ih => exact .head hsome ih

/-- A walk starts with a member, or has none. -/
theorem Walk.start_mem (h : Walk next a l b) : a ∈ l ∨ a = b := by
  cases h with
  | start => exact .inr rfl
  | step _ _ => exact .inl List.mem_cons_self

/-- After a member of a walk comes another one, or its end. -/
theorem Walk.exists_next (h : Walk next a l b) {x : α} (hx : x ∈ l) :
    ∃ y, next x = some y ∧ (y ∈ l ∨ y = b) := by
  induction h with
  | start => cases hx
  | step hsome hrest ih =>
    rcases List.mem_cons.mp hx with rfl | hx
    · exact ⟨_, hsome, hrest.start_mem.imp_left (List.mem_cons_of_mem x)⟩
    · obtain ⟨y, hy, hmem⟩ := ih hx
      exact ⟨y, hy, hmem.imp_left (List.mem_cons_of_mem _)⟩

/-- From a member of the walk, or from its end if that is a member, the links never leave it. -/
theorem Walk.mem_of_reaches (h : Walk next a l b) (hb : b ∈ l) (hc : Reaches next a c) : c ∈ l := by
  induction hc with
  | refl =>
    rcases h.start_mem with ha | rfl
    · exact ha
    · exact hb
  | tail _ hlink ih =>
    obtain ⟨y, hy, hmem⟩ := h.exists_next ih
    obtain rfl := linked_unique hlink hy
    -- after the last member comes `b`, which is a member as well
    rcases hmem with hmem | rfl
    · exact hmem
    · exact hb

/-- Where the links end no walk comes back to one of its members. -/
theorem Walk.not_mem_of_ends (h : Walk next a l b) (hends : Ends next a) : b ∉ l := by
  induction h with
  | start => exact List.not_mem_nil
  | step hsome hrest ih =>
    rw [List.mem_cons, not_or]
    refine ⟨?_, ih ((ends_iff_of_linked hsome).mp hends)⟩
    rintro rfl
    exact hends.not_onCycle (Relation.TransGen.head'_iff.mpr ⟨_, hsome, hrest.reaches⟩)

/-- A walk without repetition that comes back to one of its own members enters a cycle there. -/
theorem entersCycle_of_rho (h : Walk next a l b) (hnodup : l.Nodup) (hb : b ∈ l) :
    EntersCycle next a b := by
  induction h with
  | start => simp at hb
  | @step a d b l hsome hrest ih =>
    obtain ⟨hnew, hnodup⟩ := List.nodup_cons.mp hnodup
    by_cases hbl : b ∈ l
    · -- the walk comes back to a later member, so the first one is never met again
      have hoff : ¬ OnCycle next a := by
        intro hcycle
        obtain ⟨d', hd', hback⟩ := Relation.TransGen.head'_iff.mp hcycle
        obtain rfl := linked_unique hsome hd'
        exact hnew (hrest.mem_of_reaches hbl hback)
      exact .later hoff hsome (ih hnodup hbl)
    · obtain rfl : b = a := (List.mem_cons.mp hb).resolve_right hbl
      exact .here (Relation.TransGen.head'_iff.mpr ⟨d, hsome, hrest.reaches⟩)

end ClassHierarchy

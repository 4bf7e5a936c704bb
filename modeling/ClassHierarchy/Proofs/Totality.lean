import ClassHierarchy.Proofs.SharedWork
import ClassHierarchy.Proofs.Validity

/-!
# Valid programs have answers

The checks of `Program.validate` are what queries rely on. Parents do not form a cycle, so every walk
ends within as many types as there are classes and one. Every listed method has a receiver, so
reading its explicit parameters is no fault. Nothing is asked of the memo, which may hold anything,
or of the arguments, which need not occur in the program.

* `climb_staysOn`: a climb goes up the chain of parents, and no further.
* `allImplementations_bounded`: the search through interfaces lists defined types, each once.
* `AnswersAll`: every query has an answer, and every walk is bounded.
-/

namespace ClassHierarchy

/-- The query has an answer, whatever the memo holds. -/
def Query.Answers {α : Type} (q : Query α) : Prop :=
  ∀ memo, ∃ answer, (q.outcome memo).1 = .ok answer

/-- The climb looks at the types of a chain, from its start on, and at no others: it scans some of
them, and where it ends with a known answer it has looked at one type more. -/
def Climb.StaysOn (c : Climb) (chain : List TypeName) : Prop :=
  c.scanned <+: chain ∧ c.scanned.length + c.recalled.toNat ≤ chain.length

namespace Hierarchy

variable {h : Hierarchy} {p : Program} {t u : TypeName} {s : Signature}

/-- A query that fails only for the lack of a receiver answers where all methods have one. -/
theorem Safe.answers {α : Type} {q : Query α} (hsafe : Safe p q) (hreceivers : p.HasReceivers) :
    q.Answers := by
  intro memo
  have hfails := (Query.ensures_iff.mp hsafe memo trivial).1
  exact hfails.exists_ok hreceivers.not_fault

/-! ## Bounds -/

theorem staysOn_of_scanned {chain : List TypeName} {outcome : Except Fault (Option Method)}
    (hchain : Chain h.superclass? t chain) : Climb.StaysOn ⟨[t], false, outcome⟩ chain := by
  obtain ⟨rest, rfl⟩ := hchain.head_eq
  constructor
  · simp
  · simp

/-- A climb goes up the chain of parents. -/
theorem climb_staysOn (hr : h.Represents p) (s : Signature)
    (known : TypeName → Option (Option Method)) {chain : List TypeName}
    (hchain : Chain h.superclass? t chain) : (h.climb s known t).StaysOn chain := by
  suffices hall : ∀ chain, Chain h.superclass? t chain → (h.climb s known t).StaysOn chain from
    hall chain hchain
  apply climb_induction (motive := fun t c => ∀ chain, Chain h.superclass? t chain →
    c.StaysOn chain) hr ⟨chain, hchain⟩
  case recalled =>
    intro t answer _ chain hchain
    obtain ⟨rest, rfl⟩ := hchain.head_eq
    exact ⟨List.nil_prefix, by simp⟩
  case fault =>
    intro t fault _ _ chain hchain
    exact staysOn_of_scanned hchain
  case found =>
    intro t m _ _ chain hchain
    exact staysOn_of_scanned hchain
  case root =>
    intro t _ _ _ chain hchain
    exact staysOn_of_scanned hchain
  case parent =>
    intro t v _ _ hparent _ ih chain hchain
    cases hchain with
    | last hnone => rw [hnone] at hparent; cases hparent
    | link hsome hrest =>
      obtain rfl := linked_unique hparent hsome
      obtain ⟨hscanned, hlength⟩ := ih _ hrest
      refine ⟨List.cons_prefix_cons.mpr ⟨rfl, hscanned⟩, ?_⟩
      simp only [Climb.after, List.length_cons]
      omega

section Represents

variable (hr : h.Represents p)
include hr

/-- There are no more defined types than definitions. -/
theorem Represents.size_le : h.size ≤ p.classes.length := by
  rw [hr.size_eq]
  exact (firstsBy_sublist _ _).length_le

/-- Only defined types implement an interface. -/
theorem Represents.mem_types_of_implementations (hu : u ∈ h.implementations t) : u ∈ p.types := by
  rcases hr.mem_implementations_iff.mp hu with ⟨c, hc, rfl, -⟩
  exact List.mem_map_of_mem (Program.mem_classes_of_mem_firstDefinitions hc)

/-- The implementors of an interface are defined types, each of them once. -/
theorem allImplementations_bounded (t : TypeName) :
    (h.allImplementations t).Nodup ∧ h.allImplementations t ⊆ p.types := by
  refine ⟨TypeName.nodup_distinct _, fun u hu => ?_⟩
  obtain ⟨v, -, hu⟩ := List.mem_flatMap.mp (TypeName.mem_distinct.mp hu)
  exact hr.mem_types_of_implementations hu

end Represents

/-! ## Answers -/

/-- Every query has an answer, and every walk is bounded by the number of classes. -/
structure AnswersAll (h : Hierarchy) (p : Program) : Prop where
  resolve : ∀ t s, (h.resolve t s).Answers
  resolveSuper : ∀ t s, (h.resolveSuper t s).Answers
  anyTarget : ∀ kind s t, (h.anyTarget kind s t).Answers
  dispatch : ∀ site, (h.dispatch site).Answers
  isPolymorphic : ∀ site, (h.isPolymorphic site).Answers
  callTarget : ∀ site, (h.callTarget site).Answers
  callTargets : ∀ sites sharing, (h.callTargets sites sharing).Answers
  implementationsOf : ∀ t s, ∃ methods, h.implementationsOf t s = .ok methods
  allSubclasses : ∀ t, ∃ types, h.allSubclasses t = .ok types
    ∧ types.length ≤ p.classes.length + 1
  properSubclasses : ∀ t, ∃ types, h.properSubclasses t = .ok types
    ∧ types.length ≤ p.classes.length
  /-- The search through interfaces lists no type twice. -/
  allImplementations : ∀ t, (h.allImplementations t).Nodup
    ∧ (h.allImplementations t).length ≤ p.classes.length
  /-- A resolution goes up a chain of parents that ends, and looks at no other type. -/
  climb : ∀ s known t, ∃ chain, Chain p.parent? t chain ∧ chain.length ≤ p.classes.length + 1
    ∧ (h.climb s known t).StaysOn chain

/-- A valid program leaves no query without an answer. -/
theorem answers_of_valid (p : Program) (options : Options) (hvalid : p.validate = .ok ()) :
    AnswersAll (build p options) p := by
  have hwell := Program.validate_eq_ok_iff.mp hvalid
  have hreceivers := hwell.receivers
  have hacyclic : p.Acyclic := Program.acyclic_iff_ends.mpr (Program.wellFormed_iff.mp hwell).2
  have hr := represents_build p options
  have hsize := hr.size_le
  have hsubclasses : ∀ t, ∃ types, (build p options).allSubclasses t = .ok types
      ∧ types.length ≤ p.classes.length + 1 := by
    intro t
    obtain ⟨types, htypes, horder⟩ := allSubclasses_eq hr (hacyclic t)
    have hlength := horder.length_le (hacyclic t)
    rw [← hr.size_eq] at hlength
    exact ⟨types, htypes, by omega⟩
  exact {
    resolve := fun t s => (resolve_safe hr hacyclic t s).answers hreceivers
    resolveSuper := fun t s => (resolveSuper_safe hr hacyclic t s).answers hreceivers
    anyTarget := fun kind s t => (anyTarget_safe hr hacyclic kind s t).answers hreceivers
    dispatch := fun site => (dispatch_safe hr hacyclic site).answers hreceivers
    isPolymorphic := fun site => (isPolymorphic_safe hr hacyclic site).answers hreceivers
    callTarget := fun site => (callTarget_safe hr hacyclic site).answers hreceivers
    callTargets := fun sites sharing =>
      (callTargets_safe hr hacyclic sites sharing).answers hreceivers
    implementationsOf := fun t s =>
      (implementationsOf_failsOnly hr t s).exists_ok hreceivers.not_fault
    allSubclasses := hsubclasses
    properSubclasses := fun t => by
      -- the list starts with the type itself
      obtain ⟨types, htypes, hlength⟩ := hsubclasses t
      refine ⟨types.tail, by rw [properSubclasses, htypes]; rfl, ?_⟩
      rw [List.length_tail]
      omega
    allImplementations := fun t => by
      obtain ⟨hnodup, hsub⟩ := allImplementations_bounded hr t
      have hlength := hnodup.length_le_of_subset hsub
      rw [Program.types, List.length_map] at hlength
      exact ⟨hnodup, hlength⟩
    climb := fun s known t => by
      obtain ⟨chain, hchain⟩ := hr.ends hacyclic t
      have hlength := hr.chain_length_le hchain
      have hstays := climb_staysOn hr s known hchain
      rw [hr.superclass?_eq] at hchain
      exact ⟨chain, hchain, by omega, hstays⟩ }

/-- All queries about shapes have answers. -/
theorem answers_of_valid_shapes : Shapes.program.validate = .ok ()
    ∧ AnswersAll (build Shapes.program) Shapes.program := by
  have hvalid : Shapes.program.validate = .ok () := by
    have hok : Shapes.program.validate.isOk = true := by decide +kernel
    cases hresult : Shapes.program.validate with
    | ok => rfl
    | error e => simp [hresult, Except.isOk, Except.toBool] at hok
  exact ⟨hvalid, answers_of_valid Shapes.program {} hvalid⟩

end Hierarchy

end ClassHierarchy

import ClassHierarchy.Hierarchy.Implementors
import ClassHierarchy.Proofs.Ancestry
import ClassHierarchy.Proofs.Validity

/-!
# Inheritance

Where every listed method has a receiver, matching a method with a signature is no fault, and what a
type declares can be read off its definition. A type has a method from the nearest of its ancestors
that declares one, itself included: `Inherits` says this without a climb and without its bound.

* `declared_eq`, `declaredAll_eq`: what a type declares, in terms of the program.
* `lookup_eq_findSome?`: a signature means the first declaration along the chain of parents.
* `lookup_eq_some_iff`, `lookup_eq_some_iff_owner`: a signature means a method for a type just if the
  type inherits it; in a well-formed program the method itself says from where.
* `Inherits.of_between`, `Inherits.below_or_above`: whatever lies between a type and the ancestor that
  declares its method has the method from there too, so every ancestor of the type is above the
  declaration or has the method, and none in between declares one (`Inherits.not_declared_below`).
-/

namespace ClassHierarchy

variable {p : Program} {c : ClassDef} {m n : Method} {s : Signature} {t u a b : TypeName}

/-! ## Matching -/

/-- Name, result and explicit parameters are those of the signature. -/
def Method.Matches (m : Method) (s : Signature) : Prop :=
  m.name = s.name ∧ m.result = s.result ∧ m.params.tail = s.params

instance (m : Method) (s : Signature) : Decidable (m.Matches s) :=
  inferInstanceAs (Decidable (_ ∧ _ ∧ _))

/-- A method with a receiver answers without a fault. -/
theorem Method.answers_eq (hm : m.params ≠ []) : m.answers s = .ok (decide (m.Matches s)) := by
  obtain ⟨receiver, explicit, hparams⟩ := List.exists_cons_of_ne_nil hm
  have hexplicit : m.explicitParams = .ok m.params.tail := by
    rw [explicitParams, hparams]
    rfl
  rw [answers, hexplicit]
  by_cases hname : m.name = s.name ∧ m.result = s.result
  · rw [if_pos hname]
    simp [Matches, hname, Except.map]
  · rw [if_neg hname]
    have hno : ¬ m.Matches s := fun hall => hname ⟨hall.1, hall.2.1⟩
    simp [hno]

section Receivers

variable {ms : List Method} (hreceivers : ∀ m ∈ ms, m.params ≠ [])
include hreceivers

/-- Where all methods have receivers the search for the first answer is a pure one. -/
theorem findM?_answers_eq :
    ms.findM? (·.answers s) = (.ok (ms.find? (·.Matches s)) : Except Fault (Option Method)) := by
  induction ms with
  | nil => rfl
  | cons m ms ih =>
    have hrest := ih fun n hn => hreceivers n (List.mem_cons_of_mem m hn)
    rw [List.findM?, Method.answers_eq (hreceivers m List.mem_cons_self), List.find?_cons]
    by_cases hm : m.Matches s
    · simp [hm, bind, Except.bind, pure, Except.pure]
    · simp [hm, bind, Except.bind, hrest]

/-- Where all methods have receivers the search for all answers is a pure one. -/
theorem filterM_answers_eq :
    ms.filterM (·.answers s) = (.ok (ms.filter (·.Matches s)) : Except Fault (List Method)) := by
  have haux : ∀ found, ms.filterAuxM (·.answers s) found
      = (.ok ((ms.filter (·.Matches s)).reverse ++ found) : Except Fault (List Method)) := by
    induction ms with
    | nil => exact fun found => rfl
    | cons m ms ih =>
      intro found
      have hrest := ih fun n hn => hreceivers n (List.mem_cons_of_mem m hn)
      rw [List.filterAuxM, Method.answers_eq (hreceivers m List.mem_cons_self)]
      by_cases hm : m.Matches s <;> simp [hm, bind, Except.bind, hrest]
  rw [List.filterM, haux]
  simp [bind, Except.bind, pure, Except.pure]

end Receivers

/-! ## Declarations -/

namespace Program

/-- The first method with the signature that the definition of a type lists. -/
def declared? (p : Program) (t : TypeName) (s : Signature) : Option Method :=
  (p.find? t).bind fun c => c.methods.find? (·.Matches s)

/-- All methods with the signature that the definition of a type lists. -/
def declaredAll (p : Program) (t : TypeName) (s : Signature) : List Method :=
  (p.find? t).elim [] fun c => c.methods.filter (·.Matches s)

/-- What a type declares is listed by its first definition and matches. -/
theorem mem_declaredAll : m ∈ p.declaredAll t s
    ↔ ∃ c ∈ p.firstDefinitions, c.name = t ∧ m ∈ c.methods ∧ m.Matches s := by
  have hmem : m ∈ p.declaredAll t s ↔ ∃ c, p.find? t = some c ∧ m ∈ c.methods ∧ m.Matches s := by
    unfold declaredAll
    cases p.find? t <;> simp
  simp only [hmem, find?_eq_some_iff, and_assoc]

/-- In a well-formed program a method is declared by the type that owns it. -/
theorem owner_of_mem_declaredAll (hwell : p.WellFormed) (hm : m ∈ p.declaredAll t s) :
    m.owner = t := by
  obtain ⟨c, hc, rfl, hm, -⟩ := mem_declaredAll.mp hm
  exact hwell.owners c (mem_classes_of_mem_firstDefinitions hc) m hm

theorem mem_declaredAll_of_declared (hdeclared : p.declared? t s = some m) :
    m ∈ p.declaredAll t s := by
  obtain ⟨c, hc, hfound⟩ := Option.bind_eq_some_iff.mp hdeclared
  obtain ⟨hc, hname⟩ := find?_eq_some_iff.mp hc
  have hmatches : m.Matches s := by simpa using List.find?_some hfound
  exact mem_declaredAll.mpr ⟨c, hc, hname, List.mem_of_find?_eq_some hfound, hmatches⟩

theorem HasReceivers.of_find? (hreceivers : p.HasReceivers) (hc : p.find? t = some c) :
    ∀ m ∈ c.methods, m.params ≠ [] :=
  hreceivers c (mem_classes_of_mem_firstDefinitions (find?_eq_some_iff.mp hc).1)

end Program

namespace Hierarchy

variable {h : Hierarchy} (hr : h.Represents p) (hreceivers : p.HasReceivers)
include hr hreceivers

/-- With receivers, the hierarchy scans a type as the program declares it. -/
theorem declared_eq (t : TypeName) (s : Signature) : h.declared t s = .ok (p.declared? t s) := by
  rw [declared, hr.definition?, Program.declared?]
  cases hc : p.find? t with
  | none => rfl
  | some c => exact findM?_answers_eq (hreceivers.of_find? hc)

theorem declaredAll_eq (t : TypeName) (s : Signature) :
    h.declaredAll t s = .ok (p.declaredAll t s) := by
  rw [declaredAll, hr.definition?, Program.declaredAll]
  cases hc : p.find? t with
  | none => rfl
  | some c => exact filterM_answers_eq (hreceivers.of_find? hc)

/-- With receivers, the search through implementors has what they and their subtypes declare. -/
theorem implementationsOf_eq (t : TypeName) (s : Signature) :
    h.implementationsOf t s = .ok ((h.implementorTypes t).flatMap (p.declaredAll · s)) := by
  have hdeclared : (h.declaredAll · s) = fun u => pure (p.declaredAll u s) := by
    funext u
    exact declaredAll_eq hr hreceivers u s
  rw [implementationsOf, hdeclared, List.mapM_pure, List.flatMap]
  rfl

end Hierarchy

/-! ## Nearest declarations -/

/-- Type `t` has the method `m` for a signature from its ancestor `a`, the nearest that declares
one. -/
inductive Program.Inherits (p : Program) (s : Signature) (m : Method) :
    TypeName → TypeName → Prop where
  | own {a : TypeName} : p.declared? a s = some m → p.Inherits s m a a
  | above {t u a : TypeName} : p.declared? t s = none → p.parent? t = some u →
      p.Inherits s m u a → p.Inherits s m t a

namespace Program.Inherits

/-- What is inherited is declared by the type that it comes from. -/
theorem declared (hinherits : p.Inherits s m t a) : p.declared? a s = some m := by
  induction hinherits with
  | own hdeclared => exact hdeclared
  | above _ _ _ ih => exact ih

/-- What is inherited comes from an ancestor. -/
theorem reaches (hinherits : p.Inherits s m t a) : Reaches p.parent? t a := by
  induction hinherits with
  | own _ => exact .refl
  | above _ hparent _ ih => exact .head hparent ih

theorem mem_declaredAll (hinherits : p.Inherits s m t a) : m ∈ p.declaredAll a s :=
  mem_declaredAll_of_declared hinherits.declared

/-- A type above which a method is declared has no other method from there. -/
theorem unique (hm : p.Inherits s m t a) (hn : p.Inherits s n u a) : m = n :=
  Option.some.inj (hm.declared.symm.trans hn.declared)

/-- What lies between a type and the ancestor that declares its method has the method from there. -/
theorem of_between (hacyclic : p.Acyclic) (hinherits : p.Inherits s m t a)
    (htu : Reaches p.parent? t u) (hua : Reaches p.parent? u a) : p.Inherits s m u a := by
  induction htu using Relation.ReflTransGen.head_induction_on with
  | refl => exact hinherits
  | @head t v hparent hvu ih =>
    cases hinherits with
    | own _ =>
      -- the type itself declares the method, and nothing lies between
      have hcycle : OnCycle p.parent? a := Relation.TransGen.head' hparent (hvu.trans hua)
      exact absurd hcycle (hacyclic a)
    | above _ hparent' hrest =>
      obtain rfl := linked_unique hparent hparent'
      exact ih hrest

/-- Below the ancestor that declares the method, no type that has it from there declares one. -/
theorem not_declared_below (hacyclic : p.Acyclic) (hinherits : p.Inherits s m t a)
    (htu : Reaches p.parent? t u) (hua : Relation.TransGen (Linked p.parent?) u a) :
    p.declared? u s = none := by
  cases hinherits.of_between hacyclic htu hua.to_reflTransGen with
  | own _ => exact absurd hua (hacyclic _)
  | above hmissing _ _ => exact hmissing

/-- A method is declared at or below an ancestor of a type that has it, or the ancestor has it too: of
two ancestors one is above the other. -/
theorem below_or_above (hacyclic : p.Acyclic) (hinherits : p.Inherits s m t a)
    (htu : Reaches p.parent? t u) : Reaches p.parent? a u ∨ p.Inherits s m u a := by
  rcases Relation.ReflTransGen.total_of_right_unique linked_unique htu hinherits.reaches
    with hua | hau
  · exact .inr (hinherits.of_between hacyclic htu hua)
  · exact .inl hau

end Program.Inherits

/-- A type that declares a method has this one. -/
theorem Program.inherits_iff_of_declared (hfound : p.declared? t s = some n) :
    (∃ a, p.Inherits s m t a) ↔ n = m := by
  constructor
  · rintro ⟨a, hown | ⟨hmissing, -, -⟩⟩
    · exact Option.some.inj (hfound.symm.trans hown)
    · rw [hfound] at hmissing
      cases hmissing
  · rintro rfl
    exact ⟨t, .own hfound⟩

/-- A type that declares none has what its parent has. -/
theorem Program.inherits_iff_of_not_declared (hmissing : p.declared? t s = none) :
    (∃ a, p.Inherits s m t a) ↔ ∃ u, p.parent? t = some u ∧ ∃ a, p.Inherits s m u a := by
  constructor
  · rintro ⟨a, hown | ⟨-, hparent, hrest⟩⟩
    · rw [hmissing] at hown
      cases hown
    · exact ⟨_, hparent, a, hrest⟩
  · rintro ⟨u, hparent, a, hrest⟩
    exact ⟨a, .above hmissing hparent hrest⟩

/-- The nearest declaration is the first one along the chain of parents. -/
theorem Program.inherits_iff_findSome? {chain : List TypeName} (hchain : Chain p.parent? t chain) :
    (∃ a, p.Inherits s m t a) ↔ chain.findSome? (p.declared? · s) = some m := by
  induction hchain with
  | @last t hnone =>
    cases hfound : p.declared? t s with
    | some n => simp [inherits_iff_of_declared hfound, hfound]
    | none => simp [inherits_iff_of_not_declared hfound, hfound, hnone]
  | @link t u l hsome _ ih =>
    cases hfound : p.declared? t s with
    | some n => simp [inherits_iff_of_declared hfound, hfound]
    | none => simp [inherits_iff_of_not_declared hfound, hfound, hsome, ih]

/-- What some type at or below `b` has is declared there, or `b` has it too. -/
theorem Program.exists_inherits_below_iff {b : TypeName} (hacyclic : p.Acyclic) :
    (∃ t, Reaches p.parent? t b ∧ ∃ a, p.Inherits s m t a)
      ↔ (∃ a, Reaches p.parent? a b ∧ p.declared? a s = some m) ∨ ∃ a, p.Inherits s m b a := by
  constructor
  · rintro ⟨t, htb, a, hinherits⟩
    rcases hinherits.below_or_above hacyclic htb with hab | habove
    · exact .inl ⟨a, hab, hinherits.declared⟩
    · exact .inr ⟨a, habove⟩
  · rintro (⟨a, hab, hown⟩ | habove)
    · -- nothing comes before a type's own declaration
      exact ⟨a, hab, a, .own hown⟩
    · exact ⟨b, .refl, habove⟩

namespace Hierarchy

variable {h : Hierarchy} (hr : h.Represents p) (hacyclic : p.Acyclic)
  (hreceivers : p.HasReceivers)
include hr hacyclic hreceivers

omit hacyclic in
/-- A signature means the first declaration along the chain of parents, if the chain ends. Cycles
elsewhere do no harm. -/
theorem lookup_eq_findSome? {chain : List TypeName} (hchain : Chain p.parent? t chain) :
    h.lookup t s = .ok (chain.findSome? (p.declared? · s)) := by
  have hdeclared := declared_eq hr hreceivers
  induction hchain with
  | @last t hnone =>
    cases hfound : p.declared? t s with
    | some n =>
      rw [lookup_of_found ((hdeclared t s).trans (congrArg _ hfound)), List.findSome?_cons, hfound]
    | none =>
      rw [← hr.superclass?] at hnone
      rw [lookup_of_root ((hdeclared t s).trans (congrArg _ hfound)) hnone, List.findSome?_cons,
        hfound, List.findSome?_nil]
  | @link t u l hsome hrest ih =>
    cases hfound : p.declared? t s with
    | some n =>
      rw [lookup_of_found ((hdeclared t s).trans (congrArg _ hfound)), List.findSome?_cons, hfound]
    | none =>
      have hends : Ends h.superclass? t := by
        rw [hr.superclass?_eq]
        exact ⟨t :: l, .link hsome hrest⟩
      rw [← hr.superclass?] at hsome
      rw [lookup_of_parent hr hends ((hdeclared t s).trans (congrArg _ hfound)) hsome, ih,
        List.findSome?_cons, hfound]

/-- A signature means a method for a type just if the type inherits it. -/
theorem lookup_eq_some_iff : h.lookup t s = .ok (some m) ↔ ∃ a, p.Inherits s m t a := by
  rcases hr.ends hacyclic t with ⟨chain, hchain⟩
  rw [hr.superclass?_eq] at hchain
  rw [lookup_eq_findSome? hr hreceivers hchain, Program.inherits_iff_findSome? hchain,
    Except.ok.injEq]

omit hacyclic hreceivers in
/-- In a well-formed program the method that a lookup finds is inherited from its owner. -/
theorem lookup_eq_some_iff_owner (hwell : p.WellFormed) :
    h.lookup t s = .ok (some m) ↔ p.Inherits s m t m.owner := by
  rw [lookup_eq_some_iff hr hwell.parents_acyclic hwell.receivers]
  constructor
  · rintro ⟨a, hinherits⟩
    have howner := Program.owner_of_mem_declaredAll hwell hinherits.mem_declaredAll
    exact howner ▸ hinherits
  · intro hinherits
    exact ⟨m.owner, hinherits⟩

end Hierarchy

end ClassHierarchy

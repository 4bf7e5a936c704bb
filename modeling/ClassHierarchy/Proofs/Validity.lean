import ClassHierarchy.Proofs.Construction
import ClassHierarchy.Proofs.CycleSearch
import Mathlib.Data.List.Induction

/-!
# Validity

`Program.validate` accepts just the programs in which no type is declared twice, every listed method
has a receiver and belongs to the class that lists it, and no type is its own ancestor
(`WellFormed`). Of a program that breaks a rule it reports the first breach (`FirstBreach`):
declarations come before parent links, and are read class by class.

* `breach?_eq_some_iff`, `firstBreach?_eq_some`, `firstBreach?_of_breaks`: the first breach in the
  declarations.
* `parentLinks_eq`: without repeated types, the links that are searched are those of the hierarchy.
* `validate_eq_ok_iff`, `validate_eq_error_iff`: the check and its errors.
-/

namespace ClassHierarchy

variable {p : Program} {c : ClassDef} {m : Method} {e : ProgramError}
  {cs earlier before after : List ClassDef} {declared : TypeSet} {t u : TypeName}

/-! ## The contract -/

/-- The method has a receiver and belongs to the class that lists it. -/
def Method.Fits (m : Method) (listing : TypeName) : Prop :=
  m.params ≠ [] ∧ m.owner = listing

/-- No type is declared twice, and every class lists methods of its own that have a receiver. -/
structure WellDeclared (cs : List ClassDef) : Prop where
  distinct : (cs.map ClassDef.name).Nodup
  fits : ∀ c ∈ cs, ∀ m ∈ c.methods, m.Fits c.name

namespace Program

/-- Some definition gives `t` the parent `u`. -/
def Extends (p : Program) (t u : TypeName) : Prop :=
  ∃ c ∈ p.classes, c.name = t ∧ c.parent = some u

/-- The contract of a program. -/
structure WellFormed (p : Program) : Prop where
  distinct : p.types.Nodup
  receivers : p.HasReceivers
  owners : ∀ c ∈ p.classes, ∀ m ∈ c.methods, m.owner = c.name
  acyclic : ∀ t, ¬ Relation.TransGen p.Extends t t

end Program

/-- The rule that a listed method breaks. -/
inductive Method.Breaks (m : Method) (listing : TypeName) : ProgramError → Prop where
  | noReceiver : m.params = [] → m.Breaks listing (.missingReceiver listing m.name)
  | foreign : m.params ≠ [] → m.owner ≠ listing →
      m.Breaks listing (.foreignMethod m.name listing m.owner)

/-- The first rule that a definition breaks, after the definitions `earlier`. -/
inductive ClassDef.Breaks (c : ClassDef) (earlier : List ClassDef) : ProgramError → Prop where
  | repeated : c.name ∈ earlier.map ClassDef.name → c.Breaks earlier (.duplicateType c.name)
  | method {front back : List Method} {m : Method} {e : ProgramError} :
      c.name ∉ earlier.map ClassDef.name → c.methods = front ++ m :: back →
      (∀ n ∈ front, n.Fits c.name) → m.Breaks c.name e → c.Breaks earlier e

/-- The first rule that a program breaks. -/
inductive Program.FirstBreach (p : Program) : ProgramError → Prop where
  /-- A definition is at fault, and none before it. -/
  | declaration {before after : List ClassDef} {c : ClassDef} {e : ProgramError} :
      p.classes = before ++ c :: after → WellDeclared before → c.Breaks before e → p.FirstBreach e
  /-- No definition is at fault. Climbing from the first class whose chain of parents never ends, the
  first type on a cycle is `t`. -/
  | cycle {before after : List ClassDef} {c : ClassDef} {t : TypeName} :
      WellDeclared p.classes → p.classes = before ++ c :: after →
      (∀ d ∈ before, Ends p.parent? d.name) → ¬ Ends p.parent? c.name →
      EntersCycle p.parent? c.name t → p.FirstBreach (.cyclicHierarchy t)

/-! ## Declarations -/

/-- The check of a method passes just if the method fits. -/
theorem Method.breach?_eq_none_iff : m.breach? t = none ↔ m.Fits t := by
  unfold breach? Fits
  by_cases hparams : m.params = []
  · simp [hparams]
  · by_cases howner : m.owner = t <;> simp [hparams, howner]

/-- The check of a method reports just what the method breaks. -/
theorem Method.breach?_eq_some_iff : m.breach? t = some e ↔ m.Breaks t e := by
  unfold breach?
  constructor
  · intro hbreach
    by_cases hparams : m.params = []
    · rw [if_pos hparams] at hbreach
      cases hbreach
      exact .noReceiver hparams
    · rw [if_neg hparams] at hbreach
      by_cases howner : m.owner ≠ t
      · rw [if_pos howner] at hbreach
        cases hbreach
        exact .foreign hparams howner
      · rw [if_neg howner] at hbreach
        cases hbreach
  · rintro (hparams | ⟨hparams, howner⟩)
    · rw [if_pos hparams]
    · rw [if_neg hparams, if_pos howner]

theorem Method.Fits.not_breaks (hfits : m.Fits t) : ¬ m.Breaks t e := by
  rintro (hnone | ⟨-, hforeign⟩)
  · exact hfits.1 hnone
  · exact hforeign hfits.2

/-- The set of the types declared before is that of the earlier definitions. -/
def Records (declared : TypeSet) (earlier : List ClassDef) : Prop :=
  ∀ t, t ∈ declared ↔ t ∈ earlier.map ClassDef.name

theorem Records.contains_iff (hrecords : Records declared earlier) :
    declared.contains t = true ↔ t ∈ earlier.map ClassDef.name :=
  Std.TreeSet.contains_iff_mem.trans (hrecords t)

/-- One more definition is recorded under its name. -/
theorem Records.insert (hrecords : Records declared earlier) (c : ClassDef) :
    Records (declared.insert c.name) (earlier ++ [c]) := by
  intro t
  rw [TypeName.mem_insert, hrecords, List.map_append, List.mem_append, List.map_singleton,
    List.mem_singleton, or_comm]

/-- The check of a definition passes just if its name is new and its methods fit. -/
theorem ClassDef.breach?_eq_none_iff (hrecords : Records declared earlier) :
    c.breach? declared = none ↔
      c.name ∉ earlier.map ClassDef.name ∧ ∀ m ∈ c.methods, m.Fits c.name := by
  simp only [breach?, hrecords.contains_iff]
  split
  · rename_i hold
    simp only [reduceCtorEq, hold, not_true, false_and]
  · rename_i hnew
    simp only [List.findSome?_eq_none_iff, Method.breach?_eq_none_iff, hnew, not_false_eq_true,
      true_and]

/-- The check of a definition reports just what the definition breaks first. -/
theorem ClassDef.breach?_eq_some_iff (hrecords : Records declared earlier) :
    c.breach? declared = some e ↔ c.Breaks earlier e := by
  simp only [breach?, hrecords.contains_iff]
  constructor
  · intro hbreach
    by_cases hold : c.name ∈ earlier.map ClassDef.name
    · rw [if_pos hold] at hbreach
      cases hbreach
      exact .repeated hold
    · rw [if_neg hold] at hbreach
      obtain ⟨front, m, back, hsplit, hm, hfront⟩ := List.findSome?_eq_some_iff.mp hbreach
      refine .method hold hsplit ?_ (Method.breach?_eq_some_iff.mp hm)
      exact fun n hn => Method.breach?_eq_none_iff.mp (hfront n hn)
  · rintro (hold | ⟨hnew, hsplit, hfront, hm⟩)
    · rw [if_pos hold]
    · rw [if_neg hnew]
      refine List.findSome?_eq_some_iff.mpr
        ⟨_, _, _, hsplit, Method.breach?_eq_some_iff.mpr hm, ?_⟩
      exact fun n hn => Method.breach?_eq_none_iff.mpr (hfront n hn)

/-- Definitions are well declared if all but the last are, and the last one is new and fits. -/
theorem wellDeclared_concat_iff : WellDeclared (cs ++ [c]) ↔ WellDeclared cs
    ∧ c.name ∉ cs.map ClassDef.name ∧ ∀ m ∈ c.methods, m.Fits c.name := by
  constructor
  · rintro ⟨hdistinct, hfits⟩
    rw [List.map_append, List.nodup_append] at hdistinct
    refine ⟨⟨hdistinct.1, fun d hd => hfits d (List.mem_append_left _ hd)⟩, ?_, hfits c (by simp)⟩
    intro hold
    exact hdistinct.2.2 _ hold c.name (by simp) rfl
  · rintro ⟨⟨hdistinct, hfits⟩, hnew, hmethods⟩
    constructor
    · rw [List.map_append, List.nodup_append]
      refine ⟨hdistinct, by simp, ?_⟩
      rintro t ht u hu rfl
      exact hnew (List.mem_singleton.mp hu ▸ ht)
    · intro d hd
      rcases List.mem_append.mp hd with hd | hd
      · exact hfits d hd
      · exact List.mem_singleton.mp hd ▸ hmethods

/-- A well declared list begins with one. -/
theorem WellDeclared.of_append (hwell : WellDeclared (before ++ after)) : WellDeclared before := by
  refine ⟨?_, fun d hd => hwell.fits d (List.mem_append_left _ hd)⟩
  have hdistinct := hwell.distinct
  rw [List.map_append] at hdistinct
  exact (List.nodup_append.mp hdistinct).1

/-- A definition among well-declared ones breaks nothing. -/
theorem WellDeclared.not_breaks (hwell : WellDeclared (before ++ c :: after)) :
    ¬ c.Breaks before e := by
  have hfirst : WellDeclared (before ++ [c]) := by
    rw [List.append_cons] at hwell
    exact hwell.of_append
  obtain ⟨-, hnew, hfits⟩ := wellDeclared_concat_iff.mp hfirst
  intro hbreaks
  cases hbreaks with
  | repeated hold => exact hnew hold
  | @method front back m _ _ hsplit _ hm => exact (hfits m (by simp [hsplit])).not_breaks hm

namespace Program

/-- A list without a breach continues the definitions before it. -/
theorem firstBreach?_eq_none (hrecords : Records declared earlier) (hearlier : WellDeclared earlier)
    (hnone : firstBreach? declared cs = none) : WellDeclared (earlier ++ cs) := by
  induction cs generalizing declared earlier with
  | nil => rwa [List.append_nil]
  | cons c cs ih =>
    rw [firstBreach?] at hnone
    cases hc : c.breach? declared with
    | some breach =>
      rw [hc] at hnone
      cases hnone
    | none =>
      rw [hc] at hnone
      have hclean := (ClassDef.breach?_eq_none_iff hrecords).mp hc
      rw [List.append_cons]
      exact ih (hrecords.insert c) (wellDeclared_concat_iff.mpr ⟨hearlier, hclean⟩) hnone

/-- A breach is that of a definition with none at fault before it. -/
theorem firstBreach?_eq_some (hrecords : Records declared earlier) (hearlier : WellDeclared earlier)
    (hsome : firstBreach? declared cs = some e) : ∃ before c after, cs = before ++ c :: after
      ∧ WellDeclared (earlier ++ before) ∧ c.Breaks (earlier ++ before) e := by
  induction cs generalizing declared earlier with
  | nil => cases hsome
  | cons c cs ih =>
    rw [firstBreach?] at hsome
    cases hc : c.breach? declared with
    | some breach =>
      rw [hc] at hsome
      cases hsome
      have hbreaks := (ClassDef.breach?_eq_some_iff hrecords).mp hc
      exact ⟨[], c, cs, rfl, by simpa using hearlier, by simpa using hbreaks⟩
    | none =>
      rw [hc] at hsome
      have hclean := (ClassDef.breach?_eq_none_iff hrecords).mp hc
      obtain ⟨before, d, after, rfl, hwell, hbreaks⟩ :=
        ih (hrecords.insert c) (wellDeclared_concat_iff.mpr ⟨hearlier, hclean⟩) hsome
      rw [← List.append_cons] at hwell hbreaks
      exact ⟨c :: before, d, after, rfl, hwell, hbreaks⟩

/-- Definitions that are not at fault are passed over, up to one that is. -/
theorem firstBreach?_of_breaks (hrecords : Records declared earlier)
    (hwell : WellDeclared (earlier ++ before)) (hbreaks : c.Breaks (earlier ++ before) e) :
    firstBreach? declared (before ++ c :: after) = some e := by
  induction before generalizing declared earlier with
  | nil =>
    rw [List.append_nil] at hbreaks
    rw [List.nil_append, firstBreach?, (ClassDef.breach?_eq_some_iff hrecords).mpr hbreaks]
  | cons d before ih =>
    rw [List.append_cons] at hwell hbreaks
    have hclean := (wellDeclared_concat_iff.mp hwell.of_append).2
    rw [List.cons_append, firstBreach?, (ClassDef.breach?_eq_none_iff hrecords).mpr hclean]
    exact ih (hrecords.insert d) hwell hbreaks

theorem records_empty : Records ∅ [] := by
  simp [Records]

theorem wellDeclared_nil : WellDeclared [] :=
  ⟨List.nodup_nil, by simp⟩

/-- The check of all definitions passes just if they are well declared. -/
theorem firstBreach?_eq_none_iff : firstBreach? ∅ cs = none ↔ WellDeclared cs := by
  constructor
  · exact firstBreach?_eq_none records_empty wellDeclared_nil
  · intro hwell
    cases hbreach : firstBreach? ∅ cs with
    | none => rfl
    | some e =>
      obtain ⟨before, c, after, rfl, -, hbreaks⟩ :=
        firstBreach?_eq_some records_empty wellDeclared_nil hbreach
      exact absurd hbreaks hwell.not_breaks

/-- The check of all definitions reports the first one that breaks something. -/
theorem firstBreach?_eq_some_iff : firstBreach? ∅ cs = some e ↔ ∃ before c after,
    cs = before ++ c :: after ∧ WellDeclared before ∧ c.Breaks before e := by
  constructor
  · exact firstBreach?_eq_some records_empty wellDeclared_nil
  · rintro ⟨before, c, after, rfl, hwell, hbreaks⟩
    exact firstBreach?_of_breaks records_empty hwell hbreaks

/-! ## Parent links -/

/-- Where no type is defined twice all definitions are first ones. -/
theorem firstDefinitions_eq (hdistinct : p.types.Nodup) : p.firstDefinitions = p.classes :=
  firstsBy_eq_self hdistinct

theorem extends_eq (hdistinct : p.types.Nodup) : p.Extends = Linked p.parent? := by
  funext t u
  rw [Linked, parent?_eq_some_iff, firstDefinitions_eq hdistinct]
  rfl

/-- Without repeated types every link is the one that the hierarchy has. -/
theorem parentLinks_eq (hdistinct : p.types.Nodup) (t : TypeName) :
    p.parentLinks[t]? = p.parent? t := by
  obtain ⟨cs⟩ := p
  induction cs using List.reverseRecOn with
  | nil => simp [parentLinks, parent?, find?]
  | append_singleton cs c ih =>
    rw [types, List.map_append, List.nodup_append] at hdistinct
    have hrest := ih hdistinct.1
    have hmissing : find? ⟨cs⟩ c.name = none := by
      rw [find?_eq_none_iff]
      intro hold
      exact hdistinct.2.2 _ hold c.name (by simp) rfl
    rw [parent?, find?_concat]
    rw [parentLinks] at hrest ⊢
    rw [List.foldl_append, List.foldl_cons, List.foldl_nil]
    by_cases ht : c.name = t
    · -- nothing before `c` defines its type, so no link is overwritten
      subst ht
      rw [parent?, hmissing] at hrest
      rw [hmissing, if_pos rfl, Option.none_or, Option.bind_some]
      cases c.parent with
      | none => exact hrest
      | some parent => simp
    · rw [if_neg ht, Option.or_none, ← parent?, ← hrest]
      cases c.parent with
      | none => rfl
      | some parent => simp [Std.TreeMap.getElem?_insert, ht]

/-- A program is acyclic if the chains of its classes end: a cycle goes through classes only. -/
theorem acyclic_iff_ends : p.Acyclic ↔ ∀ t ∈ p.types, Ends p.parent? t := by
  constructor
  · intro hacyclic t _
    exact ends_of_acyclic (fun _ _ hlink => mem_of_parent? hlink) fun u _ => hacyclic u
  · intro hends t hcycle
    -- a type on a cycle has a parent, and so a definition
    obtain ⟨u, hlink, -⟩ := Relation.TransGen.head'_iff.mp hcycle
    have ht : t ∈ p.types :=
      ((firstsBy_sublist ClassDef.name p.classes).map ClassDef.name).subset (mem_of_parent? hlink)
    exact (hends t ht).not_onCycle hcycle

/-! ## The check -/

/-- A program is well formed if it is well declared and all chains of parents end. -/
theorem wellFormed_iff :
    p.WellFormed ↔ WellDeclared p.classes ∧ ∀ t ∈ p.types, Ends p.parent? t := by
  rw [← acyclic_iff_ends]
  constructor
  · rintro ⟨hdistinct, hreceivers, howners, hacyclic⟩
    rw [extends_eq hdistinct] at hacyclic
    exact ⟨⟨hdistinct, fun c hc m hm => ⟨hreceivers c hc m hm, howners c hc m hm⟩⟩, hacyclic⟩
  · rintro ⟨⟨hdistinct, hfits⟩, hacyclic⟩
    refine ⟨hdistinct, fun c hc m hm => (hfits c hc m hm).1,
      fun c hc m hm => (hfits c hc m hm).2, ?_⟩
    rw [extends_eq hdistinct]
    exact hacyclic

/-- A well-formed program has no cycle of parents. -/
theorem WellFormed.parents_acyclic (hwell : p.WellFormed) : p.Acyclic :=
  acyclic_iff_ends.mpr (wellFormed_iff.mp hwell).2

/-- A report of a cycle names where the first chain without an end enters its cycle. -/
theorem clearChains_eq_error_iff (hwell : WellDeclared p.classes) :
    clearChains p.parentLinks ∅ p.types = .error t ↔ ∃ before c after,
      p.classes = before ++ c :: after ∧ (∀ d ∈ before, Ends p.parent? d.name)
        ∧ EntersCycle p.parent? c.name t := by
  rw [clearChains_error_iff (parentLinks_eq hwell.distinct) (by simp)]
  constructor
  · rintro ⟨front, u, back, hsplit, hfront, henters⟩
    obtain ⟨before, rest, hclasses, rfl, hrest⟩ := List.map_eq_append_iff.mp hsplit
    obtain ⟨c, after, rfl, rfl, rfl⟩ := List.map_eq_cons_iff.mp hrest
    exact ⟨before, c, after, hclasses, List.forall_mem_map.mp hfront, henters⟩
  · rintro ⟨before, c, after, hclasses, hbefore, henters⟩
    refine ⟨before.map ClassDef.name, c.name, after.map ClassDef.name, ?_,
      List.forall_mem_map.mpr hbefore, henters⟩
    rw [types, hclasses, List.map_append, List.map_cons]

/-- All chains are cleared just if all of them end. -/
theorem clearChains_ok_iff (hwell : WellDeclared p.classes) :
    (∃ cleared, clearChains p.parentLinks ∅ p.types = .ok cleared)
      ↔ ∀ t ∈ p.types, Ends p.parent? t := by
  have hlinks := parentLinks_eq hwell.distinct
  constructor
  · rintro ⟨cleared, hok⟩
    exact clearChains_ok hlinks (by simp) hok
  · intro hends
    cases hsearch : clearChains p.parentLinks ∅ p.types with
    | ok cleared => exact ⟨cleared, rfl⟩
    | error u =>
      obtain ⟨before, t, after, hsplit, -, henters⟩ :=
        (clearChains_error_iff hlinks (by simp)).mp hsearch
      exact absurd (hends t (by simp [hsplit])) henters.not_ends

/-- A program is accepted just if it is well formed. -/
theorem validate_eq_ok_iff : p.validate = .ok () ↔ p.WellFormed := by
  rw [wellFormed_iff, validate]
  cases hbreach : firstBreach? ∅ p.classes with
  | some breach =>
    refine ⟨nofun, fun ⟨hwell, _⟩ => ?_⟩
    rw [firstBreach?_eq_none_iff.mpr hwell] at hbreach
    cases hbreach
  | none =>
    have hwell := firstBreach?_eq_none_iff.mp hbreach
    cases hsearch : clearChains p.parentLinks ∅ p.types with
    | ok cleared =>
      have hends := (clearChains_ok_iff hwell).mp ⟨cleared, hsearch⟩
      exact ⟨fun _ => ⟨hwell, hends⟩, fun _ => rfl⟩
    | error t =>
      refine ⟨nofun, fun ⟨_, hends⟩ => ?_⟩
      obtain ⟨cleared, hok⟩ := (clearChains_ok_iff hwell).mpr hends
      rw [hok] at hsearch
      cases hsearch

theorem validate_of_isOk (hok : p.validate.isOk) : p.validate = .ok () := by
  cases hresult : p.validate with
  | ok => rfl
  | error e => simp [hresult, Except.isOk, Except.toBool] at hok

/-- A program that is not accepted is reported with the first thing that it breaks. -/
theorem validate_eq_error_iff : p.validate = .error e ↔ p.FirstBreach e := by
  constructor
  · intro herror
    rw [validate] at herror
    cases hbreach : firstBreach? ∅ p.classes with
    | some breach =>
      rw [hbreach] at herror
      cases herror
      obtain ⟨before, c, after, hsplit, hwell, hbreaks⟩ := firstBreach?_eq_some_iff.mp hbreach
      exact .declaration hsplit hwell hbreaks
    | none =>
      have hwell := firstBreach?_eq_none_iff.mp hbreach
      cases hsearch : clearChains p.parentLinks ∅ p.types with
      | ok cleared =>
        rw [hbreach, hsearch] at herror
        cases herror
      | error t =>
        rw [hbreach, hsearch] at herror
        cases herror
        obtain ⟨before, c, after, hsplit, hbefore, henters⟩ :=
          (clearChains_eq_error_iff hwell).mp hsearch
        exact .cycle hwell hsplit hbefore henters.not_ends henters
  · intro hfirst
    rw [validate]
    cases hfirst with
    | declaration hsplit hwell hbreaks =>
      rw [firstBreach?_eq_some_iff.mpr ⟨_, _, _, hsplit, hwell, hbreaks⟩]
    | cycle hwell hsplit hbefore _ henters =>
      rw [firstBreach?_eq_none_iff.mpr hwell,
        (clearChains_eq_error_iff hwell).mpr ⟨_, _, _, hsplit, hbefore, henters⟩]

/-- A program is accepted just if it keeps the contract. Otherwise the error is its first breach; a
cycle is reported with a type that lies on it. -/
theorem validate_exact (p : Program) :
    (p.validate = .ok () ↔ p.WellFormed) ∧ (∀ e, p.validate = .error e ↔ p.FirstBreach e)
    ∧ ∀ t, p.validate = .error (.cyclicHierarchy t) → Relation.TransGen p.Extends t t := by
  refine ⟨validate_eq_ok_iff, fun e => validate_eq_error_iff, fun t herror => ?_⟩
  cases validate_eq_error_iff.mp herror with
  | declaration _ _ hbreaks =>
    -- no declaration is at fault for a cycle
    cases hbreaks with
    | method _ _ _ hm => cases hm
  | cycle hwell _ _ _ henters =>
    rw [extends_eq hwell.distinct]
    exact henters.onCycle

end Program

end ClassHierarchy

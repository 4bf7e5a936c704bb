import ClassHierarchy.Hierarchy.Walks
import ClassHierarchy.Proofs.Construction

/-!
# Descent

`Hierarchy.allSubclasses` lists the subtypes of a type with a stack and a bound on the number of
types. `PreOrder` says what the list is without either: a type, then the pre-order of its children,
then that of its later siblings. From a type that is not its own ancestor the pre-order exists, lists
just the types that reach it, lists each once, and so fits within the bound.

* `PreOrder.mem_iff`, `PreOrder.nodup`: the members of a pre-order, and that none is repeated.
* `PreOrder.length_le`: its length, in terms of the number of definitions.
* `Hierarchy.allSubclasses_eq`: the walk gives the pre-order.
-/

namespace ClassHierarchy

variable {p : Program} {t u : TypeName} {ts us l l' : List TypeName}

/-- The pre-order below a list of types: each of them, followed by the pre-order of its children. -/
inductive PreOrder (p : Program) : List TypeName → List TypeName → Prop where
  | nil : PreOrder p [] []
  | cons {t : TypeName} {ts below rest : List TypeName} : PreOrder p (p.children t) below →
      PreOrder p ts rest → PreOrder p (t :: ts) (t :: (below ++ rest))

namespace PreOrder

/-- Pre-orders below two lists of types make one below both. -/
theorem append (hts : PreOrder p ts l) (hus : PreOrder p us l') :
    PreOrder p (ts ++ us) (l ++ l') := by
  induction hts with
  | nil => exact hus
  | cons hbelow _ _ ih =>
    rw [List.cons_append, List.cons_append, List.append_assoc]
    exact .cons hbelow ih

/-- The stack of the walk: in place of a type, its children. -/
theorem of_cons (hl : PreOrder p (t :: ts) l) :
    ∃ rest, l = t :: rest ∧ PreOrder p (p.children t ++ ts) rest := by
  cases hl with
  | cons hbelow hrest => exact ⟨_, rfl, hbelow.append hrest⟩

/-- A list of types has a pre-order if each of them has. -/
theorem exists_of_forall (hts : ∀ t ∈ ts, ∃ l, PreOrder p [t] l) : ∃ l, PreOrder p ts l := by
  induction ts with
  | nil => exact ⟨[], .nil⟩
  | cons t ts ih =>
    obtain ⟨l, hl⟩ := hts t List.mem_cons_self
    obtain ⟨l', hl'⟩ := ih fun u hu => hts u (List.mem_cons_of_mem t hu)
    exact ⟨l ++ l', hl.append hl'⟩

end PreOrder

/-! ## Existence -/

/-- A type that is not its own ancestor has a pre-order. The induction is on the number of its proper
descendants: a child is one of them, and is none of its own. -/
theorem exists_preOrder (hoff : ¬ OnCycle p.parent? t) : ∃ l, PreOrder p [t] l := by
  classical
  generalize hn : (p.firstDefinitions.map ClassDef.name).countP
    (fun u => Relation.TransGen (Linked p.parent?) u t) = n
  induction n using Nat.strongRecOn generalizing t with
  | _ n ih =>
    have hbelow : ∀ c ∈ p.children t, ∃ l, PreOrder p [c] l := by
      intro c hc
      have hparent := Program.mem_children.mp hc
      have hoffc : ¬ OnCycle p.parent? c := fun hcycle => hoff (hcycle.forward hparent)
      refine ih _ ?_ hoffc rfl
      rw [← hn]
      refine TypeName.countP_lt_countP ?_ (Program.mem_of_parent? hparent)
        (by simpa [OnCycle] using hoffc) ?_
      · intro u _ hu
        have hu : Relation.TransGen (Linked p.parent?) u c := by simpa using hu
        simpa using hu.tail hparent
      · simpa using Relation.TransGen.single (r := Linked p.parent?) hparent
    obtain ⟨below, hbelow⟩ := PreOrder.exists_of_forall hbelow
    exact ⟨_, .cons hbelow .nil⟩

/-! ## Members -/

/-- A type reaches another if it is that type, or reaches one of its children. -/
theorem reaches_iff_child :
    Reaches p.parent? u t ↔ u = t ∨ ∃ c ∈ p.children t, Reaches p.parent? u c := by
  constructor
  · intro hut
    rcases Relation.ReflTransGen.cases_tail hut with rfl | ⟨c, huc, hct⟩
    · exact .inl rfl
    · exact .inr ⟨c, Program.mem_children.mpr hct, huc⟩
  · rintro (rfl | ⟨c, hc, huc⟩)
    · exact .refl
    · exact huc.tail (Program.mem_children.mp hc)

/-- A pre-order has what climbs to one of its starts. -/
theorem PreOrder.mem_iff (hl : PreOrder p ts l) : u ∈ l ↔ ∃ t ∈ ts, Reaches p.parent? u t := by
  induction hl with
  | nil => simp
  | cons _ _ hbelow hrest =>
    rw [List.mem_cons, List.mem_append, hbelow, hrest, List.exists_mem_cons_iff, reaches_iff_child,
      or_assoc]

/-- A pre-order below a type has what climbs to it. -/
theorem PreOrder.mem_singleton_iff (hl : PreOrder p [t] l) : u ∈ l ↔ Reaches p.parent? u t := by
  rw [hl.mem_iff]
  simp

/-! ## Repetition and length -/

/-- No type descends from both. -/
def Program.Apart (p : Program) (t u : TypeName) : Prop :=
  ∀ v, Reaches p.parent? v t → ¬ Reaches p.parent? v u

/-- Siblings have no descendants in common, unless their parent is its own ancestor: of two ancestors
of a type one is above the other, and with a sibling so is the parent. -/
theorem children_apart (hoff : ¬ OnCycle p.parent? t) : (p.children t).Pairwise p.Apart := by
  have habove : ∀ a b, p.parent? a = some t → p.parent? b = some t → a ≠ b →
      ¬ Reaches p.parent? a b := by
    intro a b ha hb hne hab
    rcases reaches_iff_head.mp hab with rfl | ⟨c, hac, hcb⟩
    · exact hne rfl
    · -- above `a` comes `t`, so `t` is among the ancestors of `b`, whose parent it is
      obtain rfl := linked_unique ha hac
      exact hoff (Relation.TransGen.tail'_iff.mpr ⟨b, hcb, hb⟩)
  refine (p.nodup_children t).imp_of_mem ?_
  intro a b ha hb hne v hva hvb
  have ha := Program.mem_children.mp ha
  have hb := Program.mem_children.mp hb
  rcases Relation.ReflTransGen.total_of_right_unique linked_unique hva hvb with hab | hba
  · exact habove a b ha hb hne hab
  · exact habove b a hb ha hne.symm hba

/-- Below types that are apart no type is listed twice, as it has one chain of parents. -/
theorem PreOrder.nodup_of_apart (hl : PreOrder p ts l) (hoff : ∀ t ∈ ts, ¬ OnCycle p.parent? t)
    (hapart : ts.Pairwise p.Apart) : l.Nodup := by
  induction hl with
  | nil => exact List.nodup_nil
  | @cons t ts below rest hbelow hrest ihbelow ihrest =>
    have hofft := hoff t List.mem_cons_self
    obtain ⟨hfirst, hapart⟩ := List.pairwise_cons.mp hapart
    -- whatever comes below `t` descends from a child of `t`
    have hdescends : ∀ u ∈ below, ∃ c, p.parent? c = some t ∧ Reaches p.parent? u c := by
      intro u hu
      obtain ⟨c, hc, huc⟩ := hbelow.mem_iff.mp hu
      exact ⟨c, Program.mem_children.mp hc, huc⟩
    have hnodup : below.Nodup := by
      refine ihbelow ?_ (children_apart hofft)
      intro c hc hcycle
      exact hofft (hcycle.forward (Program.mem_children.mp hc))
    -- and what descends from `t` does not descend from a later type of the list
    have hlater : ∀ u, Reaches p.parent? u t → u ∉ rest := by
      intro u hu hmem
      obtain ⟨v, hv, huv⟩ := hrest.mem_iff.mp hmem
      exact hfirst v hv u hu huv
    refine List.nodup_cons.mpr ⟨?_, ?_⟩
    · intro hmem
      rcases List.mem_append.mp hmem with hmem | hmem
      · obtain ⟨c, hct, htc⟩ := hdescends t hmem
        exact hofft (Relation.TransGen.tail'_iff.mpr ⟨c, htc, hct⟩)
      · exact hlater t .refl hmem
    · refine List.nodup_append'.mpr ⟨hnodup, ?_, ?_⟩
      · exact ihrest (fun u hu => hoff u (List.mem_cons_of_mem t hu)) hapart
      · intro u hu
        obtain ⟨c, hct, huc⟩ := hdescends u hu
        exact hlater u (huc.tail hct)

/-- Below a type that is on no cycle no type is listed twice. -/
theorem PreOrder.nodup (hl : PreOrder p [t] l) (hoff : ¬ OnCycle p.parent? t) : l.Nodup :=
  hl.nodup_of_apart (fun _ hu => List.mem_singleton.mp hu ▸ hoff) (List.pairwise_singleton _ _)

/-- All members but the first have a parent, and so a definition. -/
theorem PreOrder.length_le (hl : PreOrder p [t] l) (hoff : ¬ OnCycle p.parent? t) :
    l.length ≤ p.firstDefinitions.length + 1 := by
  have hnodup := hl.nodup hoff
  obtain ⟨rest, rfl, -⟩ := hl.of_cons
  obtain ⟨hfirst, hnodup⟩ := List.nodup_cons.mp hnodup
  have hsub : rest ⊆ p.firstDefinitions.map ClassDef.name := by
    intro u hu
    have hut := hl.mem_singleton_iff.mp (List.mem_cons_of_mem t hu)
    rcases reaches_iff_head.mp hut with rfl | ⟨v, huv, -⟩
    · exact absurd hu hfirst
    · exact Program.mem_of_parent? huv
  have hlen := hnodup.length_le_of_subset hsub
  rw [List.length_map] at hlen
  rw [List.length_cons]
  omega

/-! ## The walk -/

namespace Hierarchy

variable {h : Hierarchy} (hr : h.Represents p)
include hr

/-- The walk lists the pre-order of its stack, if it may list so many types. -/
theorem preorder?_eq {n : Nat} {stack : List TypeName} (hl : PreOrder p stack l)
    (hlen : l.length ≤ n) : h.preorder? n stack = some l := by
  induction n generalizing stack l with
  | zero =>
    obtain rfl := List.length_eq_zero_iff.mp (Nat.le_zero.mp hlen)
    cases hl
    rw [preorder?]
  | succ n ih =>
    cases stack with
    | nil =>
      cases hl
      rw [preorder?]
    | cons t stack =>
      obtain ⟨rest, rfl, hrest⟩ := hl.of_cons
      rw [List.length_cons] at hlen
      rw [preorder?, hr.subclasses, ih hrest (by omega)]
      rfl

/-- The walk down lists the pre-order, if there is one. -/
theorem allSubclasses_of_preOrder (hl : PreOrder p [t] l) (hoff : ¬ OnCycle p.parent? t) :
    h.allSubclasses t = .ok l := by
  rw [allSubclasses, preorder?_eq hr hl (hr.size_eq ▸ hl.length_le hoff)]

/-- From a type that is not its own ancestor the walk comes to an end and lists the pre-order. -/
theorem allSubclasses_eq (hoff : ¬ OnCycle p.parent? t) :
    ∃ l, h.allSubclasses t = .ok l ∧ PreOrder p [t] l := by
  obtain ⟨l, hl⟩ := exists_preOrder hoff
  exact ⟨l, allSubclasses_of_preOrder hr hl hoff, hl⟩

/-- The subtypes of a type are those that climb to it. -/
theorem mem_allSubclasses_iff (hoff : ¬ OnCycle p.parent? t) (hl : h.allSubclasses t = .ok l) :
    u ∈ l ↔ Reaches p.parent? u t := by
  obtain ⟨l', hl', horder⟩ := allSubclasses_eq hr hoff
  obtain rfl := Except.ok.inj (hl'.symm.trans hl)
  exact horder.mem_singleton_iff

end Hierarchy

end ClassHierarchy

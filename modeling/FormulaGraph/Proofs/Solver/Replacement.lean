import FormulaGraph.Proofs.Rewrite.Replacement
import FormulaGraph.Proofs.Solver.OverEnumerator

/-!
Replacing terms by terms of their sorts, on the enumerating engine: it never fails, and what is
answered is the node of the shape that replacing makes.
-/

namespace FormulaGraph.Solver

open FormulaGraph.Action

variable {s s' : Solver Enumerator LogicSort Handle} {m : TermMap} {t u v : Term}
  {ts us : List Term}

/-- The map takes terms of the session to terms of the session, and keeps their sorts. -/
def Suits (s : Solver Enumerator LogicSort Handle) (m : TermMap) : Prop :=
  ∀ p ∈ m.toList, s.session.Has p.1 ∧ s.session.Has p.2 ∧ p.1.sort = p.2.sort

theorem Suits.extend (suits : s.Suits m) (extension : s.session.Extends s'.session) :
    s'.Suits m := by
  intro p hp
  obtain ⟨key, value, same⟩ := suits p hp
  exact ⟨extension.has p.1 key, extension.has p.2 value, same⟩

theorem suits_empty (s : Solver Enumerator LogicSort Handle) : s.Suits {} :=
  fun p hp => absurd hp (by simp)

theorem Suits.insert (suits : s.Suits m) (ht : s.session.Has t) (hu : s.session.Has u)
    (sorts : t.sort = u.sort) : s.Suits (m.insert t u) := by
  intro p hp
  cases List.mem_cons.mp (Std.HashMap.toList_insert_perm.mem_iff.mp hp) with
  | inl same => exact same ▸ ⟨ht, hu, sorts⟩
  | inr hp => exact suits p (List.mem_filter.mp hp).1

structure Ready (m : TermMap) (s : Solver Enumerator LogicSort Handle) : Prop where
  coherent : s.Coherent Enumerator.contract
  suits : s.Suits m

namespace Ready

theorem interned (ready : Ready m s) : s.session.Interned := ready.coherent.canonical.toInterned

theorem refl (ready : Ready m s) : Kept Enumerator.contract s s :=
  .refl Enumerator.contract_honoured ready.coherent

theorem after (ready : Ready m s) (kept : Kept Enumerator.contract s s') : Ready m s' :=
  ⟨kept.coherent, ready.suits.extend kept.extension⟩

theorem key (ready : Ready m s) (found : m[t]? = some v) :
    ∃ k, s.session.Has k ∧ k.id = t.id ∧ s.session.Has v ∧ k.sort = v.sort := by
  obtain ⟨k, same, member⟩ := Std.HashMap.getElem?_eq_some_iff_exists_beq_and_mem_toList.mp found
  obtain ⟨hk, hv, sorts⟩ := ready.suits (k, v) member
  exact ⟨k, hk, (Term.beq_iff.mp same).symm, hv, sorts⟩

theorem image (ready : Ready m s) (ht : s.session.Has t) (found : m[t]? = some v) :
    s.session.Has v ∧ v.sort = t.sort := by
  obtain ⟨k, hk, same, hv, sorts⟩ := ready.key found
  rw [← ready.interned.identified k t hk ht same]
  exact ⟨hv, sorts.symm⟩

theorem sort_replaced (ready : Ready m s) (ht : s.session.Has t) :
    (t.replaced m).sort = t.sort := by
  cases found : m[t]? with
  | some v =>
    rw [Term.replaced_key found, Term.shape_eq]
    exact (ready.image ht found).2
  | none =>
    cases value : t.isValue with
    | true => rw [Term.replaced_value found value, Term.shape_eq]
    | false => rw [Term.replaced_node found value]

end Ready

/-- The action answers the node that replacing by the map makes of the term. -/
def Replaces (m : TermMap) (t : Term) (act : Action (Solver Enumerator LogicSort Handle) Term)
    (s : Solver Enumerator LogicSort Handle) : Prop :=
  Succeeds act s fun u s' =>
    Kept Enumerator.contract s s' ∧ s'.session.Has u ∧ u.shape = t.replaced m

def ReplacesAll (m : TermMap) (ts : List Term)
    (act : Action (Solver Enumerator LogicSort Handle) (List Term))
    (s : Solver Enumerator LogicSort Handle) : Prop :=
  Succeeds act s fun us s' =>
    Kept Enumerator.contract s s' ∧ (∀ u ∈ us, s'.session.Has u) ∧
      us.map Term.shape = ts.map (Term.replaced m)

theorem Replaces.outcome {act : Action (Solver Enumerator LogicSort Handle) Term}
    (replaces : Replaces m t act s) (hu : s.session.Has u) (shape : u.shape = t.replaced m) :
    act.outcome s = .ok u := by
  obtain ⟨v, s', run, kept, hv, same⟩ := replaces
  have interned := kept.coherent.canonical.toInterned
  have eq := interned.eq_of_shape hv (kept.extension.has u hu) (same.trans shape.symm)
  rw [Action.outcome_ok run, eq]

theorem Replaces.shape_of_outcome {act : Action (Solver Enumerator LogicSort Handle) Term}
    (replaces : Replaces m t act s) (answered : act.outcome s = .ok u) :
    u.shape = t.replaced m := by
  obtain ⟨v, s', run, _, _, shape⟩ := replaces
  rw [Action.outcome_ok run] at answered
  cases answered
  exact shape

theorem ReplacesAll.outcome {act : Action (Solver Enumerator LogicSort Handle) (List Term)}
    (replaces : ReplacesAll m ts act s) (hus : ∀ u ∈ us, s.session.Has u)
    (shapes : us.map Term.shape = ts.map (Term.replaced m)) : act.outcome s = .ok us := by
  obtain ⟨vs, s', run, kept, hvs, same⟩ := replaces
  have interned := kept.coherent.canonical.toInterned
  have eq := interned.eq_of_shapes hvs (fun u hu => kept.extension.has u (hus u hu))
    (same.trans shapes.symm)
  rw [Action.outcome_ok run, eq]

theorem mapM_replaces {act : Term → Action (Solver Enumerator LogicSort Handle) Term}
    (each : ∀ t ∈ ts, ∀ s, Ready m s → s.session.Has t → Replaces m t (act t) s)
    (ready : Ready m s) (known : ∀ t ∈ ts, s.session.Has t) : ReplacesAll m ts (ts.mapM act) s := by
  induction ts generalizing s with
  | nil => exact succeeds_pure ⟨ready.refl, fun u hu => absurd hu List.not_mem_nil, rfl⟩
  | cons t ts ih =>
    rw [List.mapM_cons]
    refine Succeeds.bind (each t List.mem_cons_self s ready (known t List.mem_cons_self)) ?_
    rintro u s₁ ⟨kept₁, hu, shape⟩
    refine (ih (fun t ht => each t (List.mem_cons_of_mem _ ht)) (ready.after kept₁)
      fun t ht => kept₁.extension.has t (known t (List.mem_cons_of_mem _ ht))).bind ?_
    rintro us s₂ ⟨kept₂, hus, shapes⟩
    refine succeeds_pure ⟨kept₁.trans Enumerator.contract_honoured kept₂, fun v hv => ?_, ?_⟩
    · cases List.mem_cons.mp hv with
      | inl same => exact same ▸ kept₂.extension.has u hu
      | inr hv => exact hus v hv
    · rw [List.map_cons, List.map_cons, shape, shapes]

theorem Ready.application (ready : Ready m s) (ht : s.session.Has t) (children : t.children ≠ [])
    (value : t.isValue = false) : t.kind = .application := by
  have formed := ready.interned.formed t ht
  cases kind : t.kind with
  | application => rfl
  | symbol name =>
    rw [Term.Formed, kind] at formed
    exact absurd formed.2 children
  | value l | constArray =>
    rw [Term.isValue, kind] at value
    cases value

theorem Ready.rebuild (ready : Ready m s) (ht : s.session.Has t)
    (application : t.kind = .application) (absent : m[t]? = none)
    (known : ∀ u ∈ us, s.session.Has u)
    (shapes : us.map Term.shape = t.children.map (Term.replaced m)) :
    Replaces m t (makeTerm t.op us) s := by
  have sorts : us.map Term.sort = t.children.map Term.sort := by
    have mapped := congrArg (List.map Shape.sort) shapes
    rw [List.map_map, List.map_map] at mapped
    calc
      us.map Term.sort = us.map (Shape.sort ∘ Term.shape) :=
        List.map_congr_left fun u _ => by rw [Function.comp, Term.shape_eq]
      _ = t.children.map (Shape.sort ∘ Term.replaced m) := mapped
      _ = t.children.map Term.sort :=
        List.map_congr_left fun c hc => ready.sort_replaced (ready.interned.children t ht c hc).1
  have derived := derived_of_has ready.coherent ht application
  rw [← sorts] at derived
  refine (makeTerm_succeeds ready.coherent known derived).mono ?_
  rintro u s' ⟨kept, hu, op, sort, kind, children⟩
  have value : t.isValue = false := by rw [Term.isValue, application]
  refine ⟨kept, hu, ?_⟩
  rw [Term.shape_eq, Term.replaced_node absent value, op, sort, kind, children, application, shapes]

/-- Replacing by recursion never fails. -/
theorem Ready.replace (ready : Ready m s) (ht : s.session.Has t) :
    Replaces m t (Solver.replace m t) s := by
  induction t generalizing s with
  | node t ih =>
    cases found : m[t]? with
    | some v =>
      rw [replace_key found]
      exact succeeds_pure ⟨ready.refl, (ready.image ht found).1, (Term.replaced_key found).symm⟩
    | none =>
      have same : (∀ c ∈ t.children, c.replaced m = c.shape) → t.shape = t.replaced m :=
        fun children => (Term.replaced_of_children found children).symm
      cases value : t.isValue with
      | true =>
        rw [replace_leaf found (.inr value)]
        exact succeeds_pure ⟨ready.refl, ht, (Term.replaced_value found value).symm⟩
      | false =>
        by_cases leaf : t.children = []
        · rw [replace_leaf found (.inl leaf)]
          refine succeeds_pure ⟨ready.refl, ht, same ?_⟩
          rw [leaf]
          exact fun c hc => absurd hc List.not_mem_nil
        · rw [replace_node found leaf value]
          have known := fun c hc => (ready.interned.children t ht c hc).1
          refine Succeeds.bind
            (mapM_replaces (fun c hc s ready hc' => ih c hc ready hc') ready known) ?_
          rintro us s₁ ⟨kept₁, hus, shapes⟩
          have ready₁ := ready.after kept₁
          have rebuilt :=
            ready₁.rebuild (kept₁.extension.has t ht) (ready.application ht leaf value)
              found hus shapes
          refine rebuilt.mono ?_
          rintro u s₂ ⟨kept₂, hu, shape⟩
          exact ⟨kept₁.trans Enumerator.contract_honoured kept₂, hu, shape⟩

end FormulaGraph.Solver

import FormulaGraph.Proofs.Enumeration.Contract
import FormulaGraph.Proofs.Solver.Run

/-!
What a solver on the enumerating engine does not fail at: it applies every operator whose sort is
derived from the arguments, and makes the truth values.
-/

namespace FormulaGraph

theorem SortArbiter.derive_succeeds {a : SortArbiter} {op : Op} {args : List LogicSort}
    {sort : Option LogicSort} (faithful : a.Faithful) (result : op.resultSort args = .ok sort) :
    ∃ a', derive op args a = .ok sort a' := by
  cases h : derive op args a with
  | ok sort' a' =>
    have same := (derive_ok faithful h).1.symm.trans result
    cases same
    exact ⟨a', rfl⟩
  | error e a' =>
    have failed := (derive_error h).1.symm.trans result
    cases failed

namespace Enumerator

variable {e : Enumerator} {n : Handle} {sort : LogicSort}

theorem makeTerm_succeeds (op : Op) {args : List Handle} {sorts : List LogicSort}
    (operands : List.Forall₂ (fun a s => ∃ node, e.store.find? a = some (node, s)) args sorts)
    (derived : op.resultSort sorts = .ok (some sort)) :
    ∃ n e', makeTerm op args e = .ok n e' ∧ ∃ node, e'.store.find? n = some (node, sort) := by
  have bound := index_lt_of_operands operands
  have known : ∀ c ∈ (Node.application op args).operands, c.index < e.store.size := by
    simpa [Node.operands] using bound
  obtain ⟨found, mapped, same⟩ := mapM_find operands
  have result := applicationSort_eq_ok_iff.mpr derived
  refine ⟨(e.addNode (.application op args) sort known).1,
    (e.addNode (.application op args) sort known).2, ?_, .application op args, ?_⟩
  · rw [makeTerm, dif_pos bound, mapped]
    simp only [Except.bind, same, result]
  · have index := NodeStore.index_push e.store (.application op args) sort known
    show (e.store.push _ sort known).2.find? (e.store.push _ sort known).1 = _
    rw [NodeStore.find?_push, if_pos index]

theorem derived_of_makeTerm {op : Op} {args : List Handle}
    {sorts : List LogicSort} {e' : Enumerator}
    (operands : List.Forall₂ (fun a s => ∃ node, e.store.find? a = some (node, s)) args sorts)
    (made : makeTerm op args e = .ok n e') : ∃ sort, op.resultSort sorts = .ok (some sort) := by
  obtain ⟨found, mapped, same⟩ := mapM_find operands
  rw [makeTerm, dif_pos (index_lt_of_operands operands), mapped] at made
  simp only [Except.bind, same] at made
  cases result : applicationSort op sorts with
  | ok sort => exact ⟨sort, applicationSort_eq_ok_iff.mp result⟩
  | error x =>
    rw [result] at made
    cases made

end Enumerator

namespace Solver

open FormulaGraph.Action

variable {α : Type} {s s' : Solver Enumerator LogicSort Handle} {t : Term} {op : Op}
  {args : List Term} {sort : LogicSort}

theorem onEngine_ok {act : Action Enumerator α} {a : α} {e e' : Enumerator}
    (called : act e = .ok a e') (session : Session LogicSort Handle) :
    onEngine act ⟨e, session⟩ = .ok a ⟨e', session⟩ := by
  rw [onEngine, called]
  rfl

theorem onEngine_error {act : Action Enumerator α} {x : Error} {e e' : Enumerator}
    (called : act e = .error x e') (session : Session LogicSort Handle) :
    onEngine act ⟨e, session⟩ = .error x ⟨e', session⟩ := by
  rw [onEngine, called]
  rfl

theorem onEngine_answered {act : Action Enumerator α} {a : α} (done : onEngine act s = .ok a s') :
    ∃ e, act s.engine = .ok a e ∧ s' = ⟨e, s.session⟩ := by
  cases called : act s.engine with
  | ok b e =>
    cases (onEngine_ok called s.session).symm.trans done
    exact ⟨e, rfl, rfl⟩
  | error x e => cases (onEngine_error called s.session).symm.trans done

theorem native_of_recorded {n : Handle} (number : t.session = s.session.number)
    (recorded : s.session.natives[t]? = some n) : native t s = .ok n s := by
  rw [native, ask, Session.native_of_has number recorded]

theorem wrapValue_eq_leaf {n : Handle} {l : Literal}
    (aliases : s.engine.aliasing = s.session.arbiter.aliasing) (fits : l.fits sort = true)
    (found : s.engine.store.find? n = some (.value l, sort)) :
    wrapValue n sort s = leaf sort (.value l) [] n s := by
  have literal := Enumerator.reading_eq fits found
  rw [wrapValue_eq_reading, ← aliases, literal]

theorem natives_ok {ns : List Handle} (coherent : s.Coherent Enumerator.contract)
    (known : ∀ a ∈ args, s.session.Has a) (renders : s.session.Renders args ns) :
    natives args s = .ok ns s := by
  have numbered := coherent.canonical.numbered
  induction renders with
  | nil => rfl
  | @cons t n ts ns found _ ih =>
    have first := native_of_recorded (numbered t (known t List.mem_cons_self)) found
    have rest := ih fun a ha => known a (List.mem_cons_of_mem _ ha)
    rw [natives, List.mapM_cons, bind_ok first]
    show ((natives ts >>= _ : Action _ _) s) = _
    rw [bind_ok rest]
    rfl

theorem update_succeeds (change : Session LogicSort Handle → α × Session LogicSort Handle) :
    Succeeds (update change) s fun _ _ => True :=
  ⟨_, _, rfl, trivial⟩

theorem Coherent.operands (coherent : s.Coherent Enumerator.contract)
    (known : ∀ a ∈ args, s.session.Has a) {ns : List Handle} (renders : s.session.Renders args ns) :
    List.Forall₂ (fun n sort => ∃ node, s.engine.store.find? n = some (node, sort)) ns
      (args.map Term.sort) := by
  refine (coherent.mirrored.sorted known renders).imp ?_
  rintro n sort ⟨b, ⟨node, found, _⟩, same⟩
  exact ⟨node, same ▸ found⟩

/-- The engine gives the operands of a term's node the sorts of its children. -/
theorem Coherent.sorts_of_operands (coherent : s.Coherent Enumerator.contract)
    (ht : s.session.Has t)
    {ns : List Handle} (renders : s.session.Renders t.children ns) {sorts : List LogicSort}
    (typed : List.Forall₂ (fun n sort => ∃ node, s.engine.store.find? n = some (node, sort))
      ns sorts) :
    sorts = t.children.map Term.sort := by
  have known := fun c hc => (coherent.canonical.children t ht c hc).1
  have unique : Relator.RightUnique fun (n : Handle) (sort : LogicSort) =>
      ∃ node, s.engine.store.find? n = some (node, sort) := by
    rintro n sort sort' ⟨node, found⟩ ⟨node', found'⟩
    cases found.symm.trans found'
    rfl
  exact List.right_unique_forall₂' unique typed (coherent.operands known renders)

theorem derived_of_has (coherent : s.Coherent Enumerator.contract) (ht : s.session.Has t)
    (application : t.kind = .application) :
    t.op.resultSort (t.children.map Term.sort) = .ok (some t.sort) := by
  obtain ⟨n, recorded⟩ := coherent.native ht
  obtain ⟨ns, renders, node, found, built⟩ := coherent.mirrored.names t n ht recorded
  rw [application] at built
  obtain rfl := built.of_application
  obtain ⟨sorts, typed, derived⟩ := coherent.mirrored.valid.sorted n _ _ found
  exact coherent.sorts_of_operands ht renders typed ▸ derived

theorem Coherent.truths_of_connective (coherent : s.Coherent Enumerator.contract)
    (ht : s.session.Has t) (connective : t.op.prim.signature = .connective) :
    t.kind = .application ∧ ∀ c ∈ t.children, c.sort = .bool := by
  have application : t.kind = .application := by
    refine (coherent.canonical.formed t ht).application fun null => ?_
    rw [null] at connective
    cases connective
  have given := Op.signature_of_resultSort (derived_of_has coherent ht application)
  rw [connective] at given
  exact ⟨application, fun c hc => Op.bools_of_connective given c.sort (List.mem_map_of_mem hc)⟩

theorem makeTerm_succeeds (coherent : s.Coherent Enumerator.contract)
    (known : ∀ a ∈ args, s.session.Has a)
    (derived : op.resultSort (args.map Term.sort) = .ok (some sort)) :
    Succeeds (makeTerm op args) s fun t s' => Kept Enumerator.contract s s' ∧ s'.session.Has t ∧
      t.op = op ∧ t.sort = sort ∧ t.kind = .application ∧ t.children = args := by
  obtain ⟨ns, renders⟩ := coherent.renders known
  obtain ⟨arbiter, derives⟩ :=
    SortArbiter.derive_succeeds coherent.canonical.memo derived
  have operands := coherent.operands known renders
  obtain ⟨n, e, made, node, found⟩ := Enumerator.makeTerm_succeeds op operands derived
  obtain ⟨reported, sorted, -⟩ := Enumerator.sortOf_of_found found
  have derives' : derive op (args.map Term.sort) s =
      .ok (some sort) ⟨s.engine, { s.session with arbiter }⟩ := by
    rw [derive, derives]
  have succeeds : Succeeds (makeTerm op args) s fun _ _ => True := by
    have called : (Engine.makeTerm op ns : Action Enumerator Handle) s.engine = .ok n e := made
    have asked : (Engine.sortOf n : Action Enumerator LogicSort) e = .ok reported e := sorted
    rw [makeTerm, Succeeds, bind_ok (natives_ok coherent known renders), bind_ok derives',
      bind_ok (onEngine_ok called _), bind_ok (onEngine_ok asked _)]
    exact (update_succeeds _).bind fun _ _ _ => update_succeeds _
  have genuine := fun a ha => coherent.canonical.toInterned.genuine (known a ha)
  obtain ⟨t, s', run, kept, ⟨has, rfl, kind, rfl, -⟩, -⟩ :=
    (keeps_application Enumerator.contract_honoured coherent op genuine).and succeeds
  refine ⟨t, s', run, kept, has, rfl, ?_, kind, rfl⟩
  have gives := kept.coherent.canonical.formed t has
  rw [Term.Formed, kind] at gives
  cases gives with
  | inl same =>
    rw [derived] at same
    cases same
    rfl
  | inr none =>
    rw [derived] at none
    cases none

theorem get_bind (next : Solver Enumerator LogicSort Handle → Action _ α)
    (s : Solver Enumerator LogicSort Handle) : (get >>= next) s = next s s := rfl

theorem nativeSort_bool_succeeds (s : Solver Enumerator LogicSort Handle) :
    Succeeds (nativeSort .bool) s fun _ _ => True := by
  rw [nativeSort, Succeeds, get_bind]
  cases s.session.sorts[LogicSort.bool]? with
  | some known => exact ⟨known, s, rfl, trivial⟩
  | none => exact ⟨.bool, _, rfl, trivial⟩

theorem makeBool_succeeds (coherent : s.Coherent Enumerator.contract) (b : Bool) :
    Succeeds (makeBool b) s fun t s' => Kept Enumerator.contract s s' ∧ s'.session.Has t ∧
      t.sort = .bool ∧ t.kind = .value (.bool b) := by
  have succeeds : Succeeds (makeBool b) s fun _ _ => True := by
    show Succeeds (nativeSort .bool >>= _) s _
    exact (nativeSort_bool_succeeds s).bind fun made s₁ _ => ⟨_, _, rfl, trivial⟩
  obtain ⟨t, s', run, kept, ⟨has, sort_eq, ⟨l, normal, kind⟩, -⟩, -⟩ :=
    (keeps_literal Enumerator.contract_honoured coherent (.bool b) .bool).and succeeds
  cases normal
  exact ⟨t, s', run, kept, has, sort_eq, kind⟩

theorem run_truth_values (start : Enumerator → Prop) {e : Enumerator} (starts : start e)
    (fresh : e.Fresh) : ∃ (s : Solver Enumerator LogicSort Handle) (t f : Term),
      Run start s [t, f] ∧ s.Coherent Enumerator.contract ∧ (s.session.Has t ∧ s.session.Has f) ∧
        (t.sort = .bool ∧ t.kind = .value (.bool true)) ∧
        f.sort = .bool ∧ f.kind = .value (.bool false) := by
  have new : Run start (Solver.new e {} : Solver Enumerator LogicSort Handle) [] := .new starts {}
  have begins := (Run.coherent Enumerator.contract_honoured (.new fresh {})).1
  obtain ⟨t, s₁, run₁, kept₁, has₁, sort₁, kind₁⟩ := makeBool_succeeds begins true
  obtain ⟨f, s₂, run₂, kept₂, has₂, sort₂, kind₂⟩ := makeBool_succeeds kept₁.coherent false
  have first := new.answer_term (.makeBool true) (fun u hu => absurd hu List.not_mem_nil) rfl run₁
    kept₁.extension.number
  have second := first.answer_term (.makeBool false) (fun u hu => absurd hu List.not_mem_nil) rfl
    run₂ kept₂.extension.number
  exact ⟨s₂, t, f, second, kept₂.coherent, ⟨kept₂.extension.has t has₁, has₂⟩,
    ⟨sort₁, kind₁⟩, sort₂, kind₂⟩

theorem Run.negates {start : Enumerator → Prop} {issued : List Term} {t : Term}
    (run : Run start s issued)
    (coherent : s.Coherent Enumerator.contract) (made : t ∈ issued) (ht : s.session.Has t)
    (sort : t.sort = .bool) : ∃ u s', Run start s' (issued ++ [u]) ∧ Kept Enumerator.contract s s' ∧
      s'.session.Has u ∧ u.sort = .bool ∧ u.children = [t] := by
  have derived : (PrimOp.not : Op).resultSort ([t].map Term.sort) = .ok (some .bool) := by
    rw [List.map_cons, sort]
    rfl
  obtain ⟨u, s', negated, kept, hu, -, sort', -, children⟩ :=
    makeTerm_succeeds coherent (fun a ha => List.mem_singleton.mp ha ▸ ht) derived
  have longer := run.answer_term (.command (.makeTerm PrimOp.not [t]))
    (fun a ha b below _ => ⟨t, made, by rwa [List.mem_singleton.mp ha] at below⟩) rfl negated
    kept.extension.number
  exact ⟨u, s', longer, kept, hu, sort', children⟩

end Solver

end FormulaGraph

import FormulaGraph.Proofs.Solver.StackedSorts

/-!
Terms in a solver on top of another. What is made above is made below first, of the terms that its
children stand on, and there it passes every check that it has passed above; so it fails where it
fails directly, at the engine.
-/

namespace FormulaGraph

open FormulaGraph.Action

namespace Session

variable {i : Session LogicSort Handle} {s : Session LogicSort Term}
    {r : Session LogicSort Handle} {t v : Term}
  {n : Handle} {ts vs : List Term} {ns : List Handle}

/-- The terms above stand on these, one by one. -/
inductive StandAll (i : Session LogicSort Handle) (s : Session LogicSort Term)
    (r : Session LogicSort Handle) :
    List Term → List Term → List Handle → Prop
  | nil : StandAll i s r [] [] []
  | cons {t v : Term} {n : Handle} {ts vs : List Term} {ns : List Handle}
      (first : Stands i s r t v n)
      (rest : StandAll i s r ts vs ns) : StandAll i s r (t :: ts) (v :: vs) (n :: ns)

namespace StandAll

theorem congr {i' : Session LogicSort Handle} {s' : Session LogicSort Term}
    {r' : Session LogicSort Handle}
    (stand : StandAll i s r ts vs ns) (below : SameGraph i i') (above : SameGraph s s')
    (direct : SameGraph r r') : StandAll i' s' r' ts vs ns := by
  induction stand with
  | nil => exact .nil
  | cons first _ ih => exact .cons (first.congr below above direct) ih

theorem has (stand : StandAll i s r ts vs ns) : ∀ t ∈ ts, s.Has t := by
  induction stand with
  | nil => exact fun _ ht => absurd ht List.not_mem_nil
  | cons first _ ih =>
    intro u hu
    cases List.mem_cons.mp hu with
    | inl same => exact same ▸ first.has
    | inr hu => exact ih u hu

theorem hasBelow (stand : StandAll i s r ts vs ns) : ∀ v ∈ vs, i.Has v := by
  induction stand with
  | nil => exact fun _ hv => absurd hv List.not_mem_nil
  | cons first _ ih =>
    intro w hw
    cases List.mem_cons.mp hw with
    | inl same => exact same ▸ first.below
    | inr hw => exact ih w hw

theorem shapes (stand : StandAll i s r ts vs ns) : vs.map Term.shape = ts.map Term.shape := by
  induction stand with
  | nil => rfl
  | cons first _ ih => rw [List.map_cons, List.map_cons, first.shape, ih]

theorem sorts (stand : StandAll i s r ts vs ns) : vs.map Term.sort = ts.map Term.sort :=
  Term.sorts_of_shapes stand.shapes

theorem renders (stand : StandAll i s r ts vs ns) : r.Renders ts ns := by
  induction stand with
  | nil => exact .nil
  | cons first _ ih => exact .cons first.direct ih

end StandAll

end Session

namespace Solver

variable {n : Stacked} {m i : Direct} {s : Session LogicSort Term} {t v : Term} {ts vs : List Term}
  {h : Handle} {hs : List Handle} {op : Op} {sort : LogicSort} {kind : TermKind}

theorem reconcile_eq {σ S T : Type} [BEq T] [Hashable T] (s : Solver σ S T) (op : Op)
    (sort reported : LogicSort) :
    ∃ notices, reconcile op (some sort) reported s =
      .ok sort ⟨s.engine, { s.session with notices }⟩ := by
  have settled := s.session.arbiter.reconcile_some op sort reported
  rw [reconcile, update_apply]
  generalize s.session.arbiter.reconcile op (some sort) reported = pair at settled ⊢
  obtain ⟨chosen, notice⟩ := pair
  obtain rfl : chosen = sort := settled
  cases notice with
  | none => exact ⟨_, rfl⟩
  | some notice => exact ⟨_, rfl⟩

theorem leafSymbol_eq {σ S T : Type} [BEq T] [Hashable T] (s : Solver σ S T)
    (name : String) (sort : LogicSort) (native : T) {t : Term} {session : Session S T}
    (interns : s.session.intern .null sort (.symbol name) [] native = (t, session)) :
    (do let t ← leaf sort (.symbol name) [] native
        record fun s => { s with symbols := s.symbols.insert name t }
        return t : Action (Solver σ S T) Term) s =
      .ok t ⟨s.engine, { session with symbols := session.symbols.insert name t }⟩ := by
  have leafed : leaf sort (.symbol name) [] native s = .ok t ⟨s.engine, session⟩ := by
    rw [leaf, update_apply, interns]
  rw [bind_ok leafed]
  rfl

namespace Level

section Lookups

variable (level : Level n m)

include level

theorem native (genuine : n.session.Genuine t) :
    Concur Level
      (fun v h n' m' =>
        n' = n ∧ m' = m ∧ Session.Stands n.engine.session n.session m.session t v h)
      (Solver.native t n) (Solver.native t m) := by
  rw [Solver.native, Solver.native, ask, ask]
  obtain ⟨v, h, stands, above, direct⟩ | ⟨e, above, direct⟩ := level.sessions.native genuine
  · rw [above, direct]
    exact .ok level ⟨rfl, rfl, stands⟩
  · rw [above, direct]
    exact .error e level

theorem native_below (stands : Session.Stands n.engine.session n.session m.session t v h) :
    Solver.native v n.engine = .ok h n.engine := by
  rw [Solver.native, ask, level.sessions.native_below stands]

theorem natives (genuine : ∀ t ∈ ts, n.session.Genuine t) :
    Concur Level (fun vs hs n' m' => n' = n ∧ m' = m ∧
        Session.StandAll n.engine.session n.session m.session ts vs hs)
      (Solver.natives ts n) (Solver.natives ts m) := by
  induction ts with
  | nil => exact .ok level ⟨rfl, rfl, .nil⟩
  | cons t ts ih =>
    rw [Solver.natives, Solver.natives, List.mapM_cons, List.mapM_cons]
    refine Concur.bind (level.native (genuine t List.mem_cons_self)) ?_
    rintro v h _ _ - ⟨rfl, rfl, first⟩
    refine Concur.bind (ih fun u hu => genuine u (List.mem_cons_of_mem _ hu)) ?_
    rintro vs hs _ _ level ⟨rfl, rfl, rest⟩
    exact .ok level ⟨rfl, rfl, .cons first rest⟩

theorem natives_below (stand : Session.StandAll n.engine.session n.session m.session ts vs hs) :
    Solver.natives vs n.engine = .ok hs n.engine := by
  induction stand with
  | nil => rfl
  | cons first _ ih =>
    rw [Solver.natives, List.mapM_cons, bind_ok (level.native_below first)]
    exact bind_ok ih

end Lookups

theorem leaf (level : Level ⟨i, s⟩ m) (kind : TermKind)
    (stand : Session.StandAll i.session s m.session ts vs hs)
    (formed : (s.candidate .null sort kind ts).Formed) (proper : sort.Proper) (h : Handle) :
    Alike ((Solver.onEngine (Solver.leaf sort kind vs h) >>= Solver.leaf sort kind ts) ⟨i, s⟩)
      (Solver.leaf sort kind ts h m) := by
  obtain ⟨notices, run⟩ := stacked_ok (update_apply (Session.intern .null sort kind vs h) i) s
  have quiet := level.sessions.quiet i.session.notices notices m.session.notices
  have interns :=
    quiet.intern .null kind stand.has stand.hasBelow stand.shapes formed proper Op.null_proper h
  rw [Solver.leaf, bind_ok run]
  exact .ok ⟨level.engine, interns.levels.quiet _ _ _⟩ interns.same

theorem makeValue (level : Level n m) (l : Literal) (proper : sort.Proper) :
    Alike (Solver.makeValue l sort n) (Solver.makeValue l sort m) := by
  unfold Solver.makeValue
  refine .guard .rfl level fun misfit => ?_
  refine .checked level fun l' normal => ?_
  have fits := Literal.fits_normalize (by simpa using misfit) normal
  refine Concur.bind (level.nativeSort sort proper) ?_
  rintro _ sort ⟨i, s⟩ m level ⟨rfl, rfl, known, -⟩
  have known' := (level.sessions.sorts sort).1.trans known
  have below : (Engine.makeValue l' sort : Action Direct Term) i = ((do
      let native ← Solver.onEngine (Engine.makeValue l' sort)
      Solver.leaf sort (.value l') [] native) : Action Direct Term) i := by
    show Solver.makeValue l' sort i = _
    rw [Solver.makeValue, if_neg (by simpa using fits), Literal.normalize_normalize normal]
    exact bind_ok (nativeSort_known known')
  rw [bind_of_eq (onEngine_congr below s)]
  refine Concur.below (level.onEngine _) ?_
  rintro _ h i m level ⟨rfl, -⟩
  exact level.leaf (.value l') .nil ⟨rfl, rfl⟩ proper h

theorem makeConstArray (level : Level n m) (genuine : n.session.Genuine t) (proper : sort.Proper) :
    Alike (Solver.makeConstArray t sort n) (Solver.makeConstArray t sort m) := by
  refine .checked level fun (index, element) array => ?_
  refine .checked level fun _ agrees => ?_
  refine Concur.bind (level.native genuine) ?_
  rintro v h _ _ - ⟨rfl, rfl, stands⟩
  refine Concur.bind (level.nativeSort sort proper) ?_
  rintro _ sort ⟨i, s⟩ m level ⟨rfl, rfl, known, only⟩
  have stands := stands.congr only.below only.above only.direct
  have known' := (level.sessions.sorts sort).1.trans known
  have agrees' : element.expectSame v.sort = .ok () := by
    rwa [(Term.shape_eq_iff.mp stands.shape).2.1]
  have below : (Engine.makeConstArray v sort : Action Direct Term) i = ((do
      let native ← Solver.onEngine (Engine.makeConstArray h sort)
      Solver.leaf sort .constArray [v] native) : Action Direct Term) i := by
    show Solver.makeConstArray v sort i = _
    rw [Solver.makeConstArray, array, ofExcept_then]
    dsimp only
    rw [agrees', ofExcept_then, bind_ok (level.native_below stands)]
    exact bind_ok (nativeSort_known known')
  rw [bind_of_eq (onEngine_congr below s)]
  refine Concur.below (level.onEngine _) ?_
  rintro _ h' ⟨e, _⟩ ⟨e', _⟩ level ⟨rfl, -, rfl, rfl⟩
  refine level.leaf .constArray (.cons stands .nil) ⟨rfl, t, index, rfl, ?_⟩ proper h'
  rw [LogicSort.eq_of_expectArray array, LogicSort.expectSame_eq_ok_iff.mp agrees]
  rfl

theorem makeSymbol (level : Level n m) (name : String) (proper : sort.Proper) :
    Alike (Solver.makeSymbol name sort n) (Solver.makeSymbol name sort m) := by
  refine .get (.guard (by rw [level.sessions.symbols]) level fun unused => ?_)
  refine Concur.bind (level.nativeSort sort proper) ?_
  rintro _ sort ⟨i, s⟩ m level ⟨rfl, rfl, known, only⟩
  have known' := (level.sessions.sorts sort).1.trans known
  have unused' : ¬ i.session.symbols.contains name = true := by
    rw [level.sessions.named, only.symbols]
    exact unused
  have below : (Engine.makeSymbol name sort : Action Direct Term) i = ((do
      let native ← Solver.onEngine (Engine.makeSymbol name sort)
      let t ← Solver.leaf sort (.symbol name) [] native
      Solver.record fun s => { s with symbols := s.symbols.insert name t }
      return t) : Action Direct Term) i := by
    show Solver.makeSymbol name sort i = _
    rw [Solver.makeSymbol, get_then, if_neg unused']
    exact bind_ok (nativeSort_known known')
  rw [bind_of_eq (onEngine_congr below s)]
  refine Concur.below (level.onEngine _) ?_
  rintro _ h i m level ⟨rfl, -⟩
  cases below : i.session.intern .null sort (.symbol name) [] h with | mk v i' => ?_
  obtain ⟨notices, run⟩ := stacked_ok (leafSymbol_eq i name sort h below) s
  have quiet : Session.Levels i.session { s with notices } m.session := level.sessions.quiet _ _ _
  have interns := quiet.intern .null (.symbol name) (fun _ hc => absurd hc List.not_mem_nil)
    (fun _ hc => absurd hc List.not_mem_nil) rfl ⟨rfl, rfl⟩ proper Op.null_proper h
  rw [below] at interns
  cases above :
    Session.intern .null sort (.symbol name) [] v { s with notices } with | mk t s' => ?_
  cases direct : m.session.intern .null sort (.symbol name) [] h with | mk t' r' => ?_
  rw [above, direct] at interns
  obtain rfl : t' = t := interns.same
  rw [bind_ok run, leafSymbol_eq _ name sort v above, leafSymbol_eq m name sort h direct]
  exact .ok ⟨level.engine, (interns.levels.addSymbol name v t').quiet _ _ _⟩ rfl

/-- The same is derived above and directly. -/
structure Derived (op : Op) (args : List LogicSort) (n : Stacked) (m : Direct)
    (d d' : Option LogicSort) (n' : Stacked) (m' : Direct) : Prop where
  same : d' = d
  derived : op.resultSort args = .ok d
  engine : n'.engine = n.engine
  above : Session.SameGraph n.session n'.session
  direct : Session.SameGraph m.session m'.session

theorem derive (level : Level n m) (op : Op) (args : List LogicSort) :
    Concur Level (Derived op args n m) (Solver.derive op args n) (Solver.derive op args m) := by
  obtain ⟨memo, memo', memo''⟩ := level.sessions.memos
  obtain ⟨aliasing, aliasing'⟩ := level.sessions.aliasing
  unfold Solver.derive
  dsimp only
  obtain ⟨d, a, a', run, run', derived, ⟨faithful, kept⟩, faithful', kept'⟩ | ⟨e, run, run'⟩ :=
    SortArbiter.derive_both memo' memo'' op args
  · rw [run, run']
    refine .ok ⟨level.engine, ?_⟩ ⟨rfl, derived, rfl, ⟨rfl, rfl, rfl, rfl⟩, ⟨rfl, rfl, rfl, rfl⟩⟩
    exact { level.sessions with
      toGraphs := level.sessions.toGraphs.congr (.refl _) ⟨rfl, rfl, rfl, rfl⟩ ⟨rfl, rfl, rfl, rfl⟩
      aliasing := ⟨aliasing.trans kept.symm, kept'.trans (aliasing'.trans kept.symm)⟩
      memos := ⟨memo, faithful, faithful'⟩ }
  · rw [run, run']
    exact .error e level

theorem derive_below (level : Level ⟨i, s⟩ m) {args : List LogicSort} {d : Option LogicSort}
    (derived : op.resultSort args = .ok d) : ∃ arbiter,
      Solver.derive op args i = .ok d ⟨i.engine, { i.session with arbiter }⟩ ∧
        Level ⟨⟨i.engine, { i.session with arbiter }⟩, s⟩ m := by
  obtain ⟨memo, memo', memo''⟩ := level.sessions.memos
  obtain ⟨aliasing, aliasing'⟩ := level.sessions.aliasing
  obtain ⟨d', a, run, derived', faithful, kept⟩ | ⟨e, run, failed⟩ :=
    SortArbiter.derive_cases memo op args
  · cases derived.symm.trans derived'
    refine ⟨a, by rw [Solver.derive, run], level.engine, ?_⟩
    exact { level.sessions with
      toGraphs := level.sessions.toGraphs.congr ⟨rfl, rfl, rfl, rfl⟩ (.refl _) (.refl _)
      aliasing := ⟨kept.trans aliasing, aliasing'⟩
      memos := ⟨faithful, memo', memo''⟩ }
  · cases derived.symm.trans failed

theorem reconcile (level : Level ⟨i, s⟩ m) (op : Op) (sort reported : LogicSort) :
    Concur (fun i m => Level ⟨i, s⟩ m) (fun a a' i' m' => a = sort ∧ a' = sort ∧
        Session.SameGraph i.session i'.session ∧ Session.SameGraph m.session m'.session)
      (Solver.reconcile op (some sort) reported i)
        (Solver.reconcile op (some sort) reported m) := by
  obtain ⟨notices, run⟩ := reconcile_eq i op sort reported
  obtain ⟨notices', run'⟩ := reconcile_eq m op sort reported
  rw [run, run']
  exact .ok ⟨level.engine, level.sessions.quiet _ _ _⟩
    ⟨rfl, rfl, ⟨rfl, rfl, rfl, rfl⟩, ⟨rfl, rfl, rfl, rfl⟩⟩

/-- An application that was made below, is reported by its sort, and is then made above. -/
theorem application (level : Level ⟨i, s⟩ m)
    (stand : Session.StandAll i.session s m.session ts vs hs)
    (derived : op.resultSort (ts.map Term.sort) = .ok (some sort)) (used : op.Proper)
    (proper : sort.Proper) (h : Handle) :
    Alike
      ((Solver.onEngine (update (Session.intern op sort .application vs h)) >>= fun v => do
        let reported ← Solver.onEngine (Engine.sortOf v)
        let sort ← Solver.reconcile op (some sort) reported
        update (Session.intern op sort .application ts v)) ⟨i, s⟩)
      (update (Session.intern op sort .application ts h) m) := by
  cases below : i.session.intern op sort .application vs h with | mk v i' => ?_
  have made : update (Session.intern op sort .application vs h) i = .ok v ⟨i.engine, i'⟩ := by
    rw [update_apply, below]
  obtain ⟨notices, run⟩ := stacked_ok made s
  have reported :
    (Engine.sortOf v : Action Direct LogicSort) ⟨i.engine, { i' with notices := #[] }⟩ =
      .ok v.sort ⟨i.engine, { i' with notices := #[] }⟩ := rfl
  obtain ⟨notices', reports⟩ := stacked_ok reported { s with notices }
  obtain ⟨notices'', chooses⟩ := reconcile_eq (σ := Direct) (S := LogicSort)
    ⟨⟨i.engine, { i' with notices := #[] }⟩, { s with notices := notices' }⟩ op sort v.sort
  rw [bind_ok run, bind_ok reports, bind_ok chooses, update_apply, update_apply]
  have quiet : Session.Levels i.session { s with notices := notices'' } m.session :=
    level.sessions.quiet _ _ _
  have interns := quiet.intern op .application stand.has stand.hasBelow stand.shapes
    (.inl derived) proper used h
  rw [below] at interns
  exact .ok ⟨level.engine, interns.levels.quiet _ _ _⟩ interns.same

theorem makeTerm (level : Level n m) (coherent : m.Coherent Enumerator.contract)
    (genuine : ∀ t ∈ ts, n.session.Genuine t) (used : op.Proper) :
    Alike (Solver.makeTerm op ts n) (Solver.makeTerm op ts m) := by
  refine Concur.bind (level.natives genuine) ?_
  rintro vs hs n m - ⟨rfl, rfl, stand⟩
  have known : ∀ t ∈ ts, m.session.Has t := fun t ht => by
    rw [Session.Has, level.sessions.table]
    exact stand.has t ht
  have operands := coherent.operands known stand.renders
  rw [level.engine] at operands
  have proper : ∀ sort ∈ ts.map Term.sort, sort.Proper := fun sort hs => by
    obtain ⟨t, ht, rfl⟩ := List.mem_map.mp hs
    exact level.sessions.proper_sort (stand.has t ht)
  refine Concur.bind (level.derive op _) ?_
  rintro _ d ⟨i, s⟩ m level ⟨rfl, derived, rfl, above, direct⟩
  have stand := stand.congr (.refl _) above direct
  have looked := level.natives_below stand
  obtain ⟨arbiter, run, level⟩ := level.derive_below derived
  have below : (Engine.makeTerm op vs : Action Direct Term) n.engine = ((do
      let native ← Solver.onEngine (Engine.makeTerm op hs)
      let reported ← Solver.onEngine (Engine.sortOf native)
      let sort ← Solver.reconcile op d reported
      update (Session.intern op sort .application vs native)) : Action Direct Term)
        ⟨n.engine.engine, { n.engine.session with arbiter }⟩ := by
    show Solver.makeTerm op vs n.engine = _
    rw [Solver.makeTerm, bind_ok looked, stand.sorts]
    exact bind_ok run
  rw [bind_of_eq (onEngine_congr below s)]
  have stand : Session.StandAll { n.engine.session with arbiter } s m.session ts vs hs :=
    stand.congr ⟨rfl, rfl, rfl, rfl⟩ (.refl _) (.refl _)
  refine Concur.below (level.onEngine _) ?_
  rintro _ h ⟨e, _⟩ ⟨e', _⟩ level ⟨rfl, made, rfl, rfl⟩
  have made : Enumerator.makeTerm op hs n.engine.engine = .ok h e := made
  obtain ⟨sort, some⟩ := Enumerator.derived_of_makeTerm operands made
  cases derived.symm.trans some
  refine Concur.below (level.onEngine _) ?_
  rintro _ reported ⟨e, _⟩ ⟨e', _⟩ level ⟨rfl, -, rfl, rfl⟩
  refine Concur.below (level.reconcile op sort reported) ?_
  rintro _ _ i m level ⟨rfl, rfl, below, direct⟩
  exact level.application (stand.congr below (.refl _) direct) derived used
    (Op.proper_resultSort used proper derived) h

end Level

end Solver

end FormulaGraph

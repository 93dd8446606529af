import FormulaGraph.Proofs.Solver.Blind

/-!
Reading values, asserting and checking do the same on a solver and its twin: the engines report a
truth value differently, but it is wrapped as the same literal.
-/

namespace FormulaGraph.Solver

open FormulaGraph.Action

variable {s s' : Solver Enumerator LogicSort Handle} {t : Term}

section Values

/-- The engine is sound, and the session reads its values as they are meant. -/
structure Attuned (s : Solver Enumerator LogicSort Handle) : Prop where
  sound : s.engine.Sound
  aliases : s.engine.aliasing = s.session.arbiter.aliasing

theorem Coherent.attuned (coherent : s.Coherent Enumerator.contract) : s.Attuned :=
  ⟨coherent.mirrored.valid, coherent.mirrored.aliases⟩

/-- The node is a value of the sort. -/
def IsValue (e : Enumerator) (sort : LogicSort) (n : Handle) : Prop :=
  ∃ l, e.store.find? n = some (.value l, sort)

variable {n : Handle} {sort : LogicSort}

theorem blind_wrapValue (attuned : s.Attuned) (value : IsValue s.engine sort n) :
    Blind (wrapValue n sort) s := by
  intro guise
  obtain ⟨l, found⟩ := value
  have fits := attuned.sound.sorted n _ _ found
  have aliases := s.engine.aliasing_withAliasing.trans guise.aliasing.symm
  rw [wrapValue_eq_leaf attuned.aliases fits found,
    wrapValue_eq_leaf (s := s.aliased guise) aliases fits found]
  exact blind_intern _ _ _ _ _ s guise

theorem arbiter_intern (session : Session LogicSort Handle) (op : Op) (sort : LogicSort)
    (kind : TermKind) (children : List Term) (native : Handle) :
    (session.intern op sort kind children native).2.arbiter = session.arbiter := by
  unfold Session.intern
  dsimp only
  split <;> rfl

theorem wrapValue_leaves (n : Handle) (sort : LogicSort) (s : Solver Enumerator LogicSort Handle) :
    ∃ u session, wrapValue n sort s = .ok u ⟨s.engine, session⟩ ∧
      session.arbiter = s.session.arbiter :=
  ⟨_, _, rfl, arbiter_intern _ _ _ _ _ _⟩

theorem Attuned.wrapValue {u : Term} (attuned : s.Attuned) (done : wrapValue n sort s = .ok u s') :
    s'.Attuned ∧ s'.engine = s.engine := by
  obtain ⟨_, _, run, same⟩ := wrapValue_leaves n sort s
  cases run.symm.trans done
  exact ⟨⟨attuned.sound, attuned.aliases.trans (congrArg _ same.symm)⟩, rfl⟩

theorem isValue_of_value {e e' : Enumerator} {aliasing : Bool}
    (value : Enumerator.contract.Value aliasing sort n e) (grows : Enumerator.contract.Grows e e') :
    IsValue e' sort n := by
  obtain ⟨node, found, built⟩ := value e' grows
  rw [built.of_value] at found
  exact ⟨_, found⟩

theorem sortOf_value {e : Enumerator} (value : IsValue e sort n)
    (session : Session LogicSort Handle) :
    ∃ reported, onEngine (Engine.sortOf n) ⟨e, session⟩ = .ok reported ⟨e, session⟩ ∧
      reported.isArray = sort.isArray := by
  obtain ⟨l, found⟩ := value
  obtain ⟨reported, run, same⟩ := Enumerator.sortOf_of_found found
  exact ⟨reported, onEngine_ok run session, same⟩

theorem blind_wrapBase {base : Option Handle} {element : LogicSort} (attuned : s.Attuned)
    (values : ∀ b ∈ base, IsValue s.engine element b) : Blind (wrapBase base element) s := by
  cases base with
  | none => exact blind_pure none s
  | some b =>
    have value := values b rfl
    intro guise
    -- The engines may report different sorts, but both are array sorts or neither is.
    obtain ⟨reported, asks, same⟩ := sortOf_value value s.session
    obtain ⟨reported', asks', same'⟩ :=
      sortOf_value (e := s.engine.withAliasing) value (s.session.aliased guise)
    rw [wrapBase, bind_ok asks, show s.aliased guise = ⟨_, _⟩ from rfl, bind_ok asks', same, same']
    refine blind_guard (s := s) (fun _ => ?_) guise
    exact (blind_wrapValue attuned value).bind fun _ s' _ => blind_pure _ s'

theorem Attuned.wrapBase {base : Option Handle} {element : LogicSort} {b : Option Term}
    (attuned : s.Attuned) (values : ∀ n ∈ base, IsValue s.engine element n)
    (done : Solver.wrapBase base element s = .ok b s') :
    s'.Attuned ∧ s'.engine = s.engine := by
  cases base with
  | none =>
    cases done
    exact ⟨attuned, rfl⟩
  | some n =>
    obtain ⟨reported, asks, -⟩ := sortOf_value (values n rfl) s.session
    obtain ⟨u, _, wrapped, -⟩ := wrapValue_leaves n element s
    rw [Solver.wrapBase, bind_ok asks] at done
    split at done
    · cases done
    · have run : (do return some (← Solver.wrapValue n element) :
          Action (Solver Enumerator LogicSort Handle) (Option Term)) s = .ok (some u) _ :=
        bind_ok wrapped
      cases run.symm.trans done
      exact attuned.wrapValue wrapped

theorem Attuned.wrapCell {index element : LogicSort} {i x : Handle} {p : Term × Term}
    (attuned : s.Attuned)
    (done : (do
      let i ← Solver.wrapValue i index
      return (i, ← Solver.wrapValue x element)) s = .ok p s') :
    s'.Attuned ∧ s'.engine = s.engine := by
  obtain ⟨u, _, first, -⟩ := wrapValue_leaves i index s
  obtain ⟨v, _, second, -⟩ := wrapValue_leaves x element _
  obtain ⟨attuned₁, same₁⟩ := attuned.wrapValue first
  obtain ⟨attuned₂, same₂⟩ := attuned₁.wrapValue second
  rw [bind_ok first, bind_ok second] at done
  cases done
  exact ⟨attuned₂, same₂.trans same₁⟩

theorem blind_wrapCells {index element : LogicSort} {cells : List (Handle × Handle)}
    {s : Solver Enumerator LogicSort Handle} (attuned : s.Attuned)
    (values : ∀ p ∈ cells, IsValue s.engine index p.1 ∧ IsValue s.engine element p.2) :
    Blind (cells.mapM fun (i, x) => do
      let i ← wrapValue i index
      return (i, ← wrapValue x element)) s := by
  induction cells generalizing s with
  | nil => exact blind_pure [] s
  | cons cell cells ih =>
    obtain ⟨iValue, xValue⟩ := values cell List.mem_cons_self
    have first : Blind (do
        let i ← wrapValue cell.1 index
        return (i, ← wrapValue cell.2 element)) s := by
      refine (blind_wrapValue attuned iValue).bind fun i s₁ done => ?_
      obtain ⟨attuned₁, same⟩ := attuned.wrapValue done
      exact (blind_wrapValue attuned₁ (same ▸ xValue)).bind fun x s₂ _ => blind_pure (i, x) s₂
    rw [List.mapM_cons]
    refine first.bind fun p s₁ done => ?_
    obtain ⟨attuned₁, same⟩ := attuned.wrapCell done
    refine Blind.bind (ih attuned₁ fun q hq => ?_) fun ps s₂ _ => blind_pure (p :: ps) s₂
    rw [same]
    exact values q (List.mem_cons_of_mem _ hq)

theorem blind_getArrayValues (coherent : s.Coherent Enumerator.contract)
    (genuine : s.session.Genuine t) : Blind (getArrayValues t) s := by
  have honoured := Enumerator.contract_honoured
  refine (blind_ofExcept _ s).after
    (keeps_ofExcept honoured coherent (LogicSort.plainly_expectArray t.sort)) ?_
  rintro ⟨index, element⟩ _ - ⟨array, rfl⟩
  have sort_eq := LogicSort.expectArray_ok array
  refine (blind_native t s).after (keeps_native honoured coherent genuine) ?_
  rintro n _ - ⟨rfl, known, found⟩
  obtain ⟨ns, -, named⟩ := coherent.mirrored.names t n known found
  have call := honoured.getArrayValues s.engine n _ index element _ named sort_eq
    coherent.mirrored.aliases
  refine (blind_onEngine (Enumerator.blind_getArrayValues n) s).after
    (keeps_onEngine honoured coherent call) ?_
  rintro raw s₁ kept ⟨⟨e, made, grows⟩, -⟩
  have attuned := kept.coherent.attuned
  have base : ∀ b ∈ raw.base, IsValue s₁.engine element b :=
    fun b hb => isValue_of_value (made.base b hb) grows
  have cells : ∀ p ∈ raw.cells, IsValue s₁.engine index p.1 ∧ IsValue s₁.engine element p.2 :=
    fun p hp =>
      ⟨isValue_of_value (made.cells p hp).1 grows, isValue_of_value (made.cells p hp).2 grows⟩
  refine (blind_wrapBase attuned base).bind fun b s₂ done => ?_
  obtain ⟨attuned₂, same⟩ := attuned.wrapBase base done
  rw [← same] at cells
  exact (blind_wrapCells attuned₂ cells).bind fun _ s₃ _ => blind_pure _ s₃

theorem blind_storeAll {cells : List (Term × Term)} {array : Term}
    {s : Solver Enumerator LogicSort Handle} (coherent : s.Coherent Enumerator.contract)
    (known : s.session.Has array)
    (cellsKnown : ∀ p ∈ cells, s.session.Has p.1 ∧ s.session.Has p.2) :
    Blind (cells.foldlM (fun array (i, x) => makeTerm PrimOp.store [array, i, x]) array) s := by
  have honoured := Enumerator.contract_honoured
  induction cells generalizing array s with
  | nil => exact blind_pure array s
  | cons cell cells ih =>
    rw [List.foldlM_cons]
    have genuine := coherent.genuine_cell known (cellsKnown cell List.mem_cons_self)
    refine (blind_makeTerm coherent _ genuine).after (keeps_makeTerm honoured coherent _ genuine)
      fun next s' kept known' => ih kept.coherent known' fun p hp => ?_
    have both := cellsKnown p (List.mem_cons_of_mem _ hp)
    exact ⟨kept.extension.has _ both.1, kept.extension.has _ both.2⟩

theorem blind_getArray (coherent : s.Coherent Enumerator.contract) (genuine : s.session.Genuine t) :
    Blind (getArray t) s := by
  have honoured := Enumerator.contract_honoured
  refine (blind_getArrayValues coherent genuine).after
    (keeps_getArrayValues honoured coherent genuine) fun m s₁ kept₁ known => ?_
  obtain ⟨hbase, hcells⟩ := known
  cases found : m.base with
  | none => exact .get (fun _ => rfl) (blind_throw _ s₁)
  | some base =>
    have fill := kept₁.coherent.canonical.toInterned.genuine (hbase base found)
    refine (blind_makeConstArray base t.sort s₁).after
      (keeps_makeConstArray honoured kept₁.coherent fill t.sort) fun array s₂ kept₂ harray => ?_
    exact blind_storeAll kept₂.coherent harray fun p hp =>
      ⟨kept₂.extension.has _ (hcells p hp).1, kept₂.extension.has _ (hcells p hp).2⟩

theorem blind_getValue (coherent : s.Coherent Enumerator.contract) (genuine : s.session.Genuine t) :
    Blind (getValue t) s := by
  have honoured := Enumerator.contract_honoured
  unfold getValue
  split
  · exact blind_getArray coherent genuine
  · refine (blind_native t s).after (keeps_native honoured coherent genuine) ?_
    rintro n _ - ⟨rfl, known, found⟩
    obtain ⟨ns, -, named⟩ := coherent.mirrored.names t n known found
    have call := honoured.getValue s.engine n _ _ named coherent.mirrored.aliases
    refine (blind_onEngine (Enumerator.blind_getValue n) s).after
      (keeps_onEngine honoured coherent call) ?_
    rintro v s₁ kept ⟨⟨e, ⟨value, -⟩, grows⟩, -⟩
    exact blind_wrapValue kept.coherent.attuned (isValue_of_value value grows)

end Values

section Checks

theorem blind_assertFormula (t : Term) (s : Solver Enumerator LogicSort Handle) :
    Blind (assertFormula t) s :=
  (blind_ofExcept _ s).bind fun _ s₁ _ => (blind_native t s₁).bind fun n s₂ _ =>
    blind_onEngine (Enumerator.blind_assertFormula n) s₂

theorem blind_checkSatAssuming (assumptions : List Term)
    (s : Solver Enumerator LogicSort Handle) : Blind (checkSatAssuming assumptions) s :=
  (blind_ofExcept _ s).bind fun _ s₁ _ => (blind_natives assumptions s₁).bind fun ns s₂ _ =>
    (blind_record fun guise => ⟨{ guise with
      notices := (rememberAssumptions ns assumptions (s₂.session.aliased guise)).notices },
        rfl⟩).bind fun _ s₃ _ =>
      blind_onEngine (Enumerator.blind_checkSatAssuming ns) s₃

theorem blind_getUnsatCore (s : Solver Enumerator LogicSort Handle) :
    Blind (getUnsatCore : Action (Solver Enumerator LogicSort Handle) (List Term)) s :=
  (blind_onEngine Enumerator.blind_getUnsatCore s).bind fun _ _ _ =>
    .get (fun _ => rfl) (blind_ask fun _ => rfl)

theorem blind_reset (s : Solver Enumerator LogicSort Handle) :
    Blind (reset : Action (Solver Enumerator LogicSort Handle) Unit) s :=
  Blind.bind (blind_onEngine Enumerator.blind_reset s)
    fun _ _ _ => blind_record fun guise => ⟨guise, rfl⟩

theorem blind_resetAssertions (s : Solver Enumerator LogicSort Handle) :
    Blind (resetAssertions : Action (Solver Enumerator LogicSort Handle) Unit) s :=
  Blind.bind (blind_record fun guise => ⟨guise, rfl⟩)
    fun _ s₁ _ => blind_onEngine Enumerator.blind_resetAssertions s₁

end Checks

end FormulaGraph.Solver

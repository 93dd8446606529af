import FormulaGraph.Proofs.Solver.Cores
import FormulaGraph.Proofs.Solver.Foreign
import FormulaGraph.Proofs.Solver.Spelling

/-!
Model values are exact and canonical: what is answered for the value of a term spells out the datum
that the term is evaluated to in the model, so terms of one sort have one node for their values just
if they have the same value.
-/

namespace FormulaGraph.Solver

open FormulaGraph.Action

variable {s s' : Solver Enumerator LogicSort Handle} {t u : Term} {n : Handle} {env : Assignment}
  {sort index element : LogicSort} {x : Datum} {issued : List Term} {scopes : List (List Term)}

/-- The session reads the values of the engine as they are meant. -/
structure Listens (s : Solver Enumerator LogicSort Handle) : Prop where
  interned : s.session.Interned
  aliases : s.engine.aliasing = s.session.arbiter.aliasing

theorem wrapValue_reads (listens : s.Listens) (holds : sort.Holds x)
    (isDatum : s.engine.IsDatum sort x n) :
    Succeeds (wrapValue n sort) s fun u s' =>
      u.IsLiteral sort x ∧ s'.engine = s.engine ∧ s'.Listens := by
  obtain ⟨l, told, found⟩ := isDatum
  have formed : (s.session.candidate .null sort (.value l) []).Formed := ⟨rfl, rfl⟩
  have interns := listens.interned.intern (fun _ hc => absurd hc List.not_mem_nil) formed n
  have run : wrapValue n sort s = .ok (s.session.intern .null sort (.value l) [] n).1
      ⟨s.engine, (s.session.intern .null sort (.value l) [] n).2⟩ :=
    wrapValue_eq_leaf listens.aliases (Datum.fits_of_holds told holds) found
  obtain ⟨op, sort_eq, kind, children⟩ := interns.structure_eq
  refine ⟨_, _, run, ⟨op, sort_eq, ⟨l, told, kind⟩, children⟩, rfl, interns.interned, ?_⟩
  rw [interns.extension.aliasing]
  exact listens.aliases

theorem wrapBase_reads (listens : s.Listens) (scalar : element.IsScalar) (holds : element.Holds x)
    (isDatum : s.engine.IsDatum element x n) :
    Succeeds (wrapBase (some n) element) s fun base s' =>
      ∃ fill, base = some fill ∧ fill.IsLiteral element x ∧ s'.engine = s.engine ∧ s'.Listens := by
  obtain ⟨l, -, found⟩ := id isDatum
  obtain ⟨reported, run, same⟩ := Enumerator.sortOf_of_found found
  have plain : element.isArray = false := by
    cases element with
    | bool | bitVec => rfl
    | _ => cases scalar
  have called : (Engine.sortOf n : Action Enumerator LogicSort) s.engine =
    .ok reported s.engine := run
  rw [wrapBase, Succeeds, bind_ok (onEngine_ok called s.session), same, plain]
  refine (wrapValue_reads listens holds isDatum).bind ?_
  rintro fill s' ⟨isLiteral, engine, listens'⟩
  exact succeeds_pure ⟨fill, rfl, isLiteral, engine, listens'⟩

theorem wrapCells_reads {w : UInt64} {ds : List (Nat × Datum)} {raw : List (Handle × Handle)}
    {e : Enumerator} {s : Solver Enumerator LogicSort Handle} (listens : s.Listens)
    (engine : s.engine = e) (holds : ∀ d ∈ ds, element.Holds d.2)
    (areCells : List.Forall₂ (e.IsCell (.bitVec w) element w) ds raw) :
    Succeeds (raw.mapM fun (i, x) => do
      let i ← wrapValue i (.bitVec w)
      return (i, ← wrapValue x element)) s fun cells _ =>
        List.Forall₂ (Term.IsCell w element) ds cells := by
  induction areCells generalizing s with
  | nil => exact succeeds_pure .nil
  | @cons d c ds raw isCell _ ih =>
    obtain ⟨i, y⟩ := c
    obtain ⟨isIndex, isElement⟩ := isCell
    obtain ⟨head, tail⟩ := List.forall_mem_cons.mp holds
    subst engine
    have both : Succeeds (do
        let i ← wrapValue i (.bitVec w)
        return (i, ← wrapValue y element)) s fun cell s' =>
          Term.IsCell w element d cell ∧ s'.engine = s.engine ∧ s'.Listens := by
      refine (wrapValue_reads listens (LogicSort.holds_ofBits w _) isIndex).bind ?_
      rintro ti s₁ ⟨index, engine₁, listens₁⟩
      refine (wrapValue_reads listens₁ head (engine₁ ▸ isElement)).bind ?_
      rintro tx s₂ ⟨cell, engine₂, listens₂⟩
      exact succeeds_pure ⟨⟨index, cell⟩, engine₂.trans engine₁, listens₂⟩
    rw [List.mapM_cons]
    refine both.bind ?_
    rintro cell s₁ ⟨isCell, engine₁, listens₁⟩
    refine (ih listens₁ engine₁ tail).bind ?_
    exact fun cells s₂ areCells => succeeds_pure (.cons isCell areCells)

section Reading

variable (coherent : s.Coherent Enumerator.contract) (ht : s.session.Has t)
    (model : s.engine.model = some env)

include coherent ht model

theorem getArrayValues_succeeds (sort : t.sort = .array index element) (scalar : element.IsScalar)
    (honest : s.engine.faulty = false) (value : s.valueUnder env t = .ok x) :
    Succeeds (getArrayValues t) s fun m _ => ∃ w first rest fill, index = .bitVec w ∧
      x = .array (first :: rest) ∧ m.base = some fill ∧ fill.IsLiteral element first ∧
      List.Forall₂ (Term.IsCell w element) (first.differences 1 rest) m.cells := by
  obtain ⟨n, ns, node, recorded, -, found, -⟩ := coherent.node ht
  have number := coherent.canonical.numbered t ht
  rw [sort] at found
  rw [valueUnder_eq number recorded] at value
  have sorted :
    (Action.ofExcept t.sort.expectArray : Action (Solver Enumerator LogicSort Handle) _) s =
      .ok (index, element) s := by
    rw [sort]
    rfl
  have sound := coherent.mirrored.valid
  obtain ⟨raw, e, read, w, first, rest, b, rfl, length, rfl, based, isBase, areCells⟩ :=
    Enumerator.getArrayValues_succeeds sound scalar model honest found value
  have grown := ((Enumerator.ends_getArrayValues sound found).answer read).1
  obtain ⟨-, each⟩ := NodeStore.holds_eval sound.sorted (sound.model env model) found value
  obtain ⟨head, tail⟩ := List.forall_mem_cons.mp each
  have listens : Listens ⟨e, s.session⟩ :=
    ⟨coherent.canonical.toInterned, grown.2.aliasing.trans coherent.mirrored.aliases⟩
  have called :
    (onEngine (Engine.getArrayValues n) : Action (Solver Enumerator LogicSort Handle) _) s =
      .ok raw ⟨e, s.session⟩ := onEngine_ok read s.session
  rw [getArrayValues, Succeeds, bind_ok sorted]
  show Succeeds (native t >>= _) s _
  rw [Succeeds, bind_ok (native_of_recorded number recorded), bind_ok called, based]
  refine (wrapBase_reads (s := ⟨e, s.session⟩) listens scalar head isBase).bind ?_
  rintro _ s₂ ⟨fill, rfl, isFill, engine, listens₂⟩
  refine (wrapCells_reads listens₂ engine
    (fun d hd => tail d.2 (Datum.bounds_of_difference hd).2.2) areCells).bind
      fun cells s₃ areCells' => ?_
  exact succeeds_pure ⟨w, first, rest, fill, rfl, rfl, rfl, isFill, areCells'⟩

theorem valued_of_getArrayValues (sort : t.sort = .array index element) {m : ArrayModel Term}
    (done : getArrayValues t s = .ok m s') : ∃ x, s.valueUnder env t = .ok x := by
  obtain ⟨n, ns, node, recorded, -, found, -⟩ := coherent.node ht
  have number := coherent.canonical.numbered t ht
  have sorted :
    (Action.ofExcept t.sort.expectArray : Action (Solver Enumerator LogicSort Handle) _) s =
      .ok (index, element) s := by
    rw [sort]
    rfl
  rw [getArrayValues, bind_ok sorted] at done
  obtain ⟨raw, s₁, called, -⟩ :=
    of_bind_ok ((bind_ok (native_of_recorded number recorded)).symm.trans done)
  obtain ⟨e, read, -⟩ := onEngine_answered called
  rw [valueUnder_eq number recorded]
  exact Enumerator.valued_of_getArrayValues model found read

theorem getArray_reads {w : UInt64} (sort : t.sort = .array (.bitVec w) element)
    (scalar : element.IsScalar)
    (honest : s.engine.faulty = false) (done : getArray t s = .ok u s') :
    ∃ x, s.valueUnder env t = .ok x ∧ u.Spells t.sort x := by
  have honoured := Enumerator.contract_honoured
  obtain ⟨m, s₁, read, done⟩ := of_bind_ok done
  obtain ⟨x, value⟩ := valued_of_getArrayValues coherent ht model sort read
  obtain ⟨m', _, read', _, first, rest, fill, ⟨⟩, rfl, base, isFill, areCells⟩ :=
    getArrayValues_succeeds coherent ht model sort scalar honest value
  cases read.symm.trans read'
  obtain ⟨kept₁, fillKnown, cellsKnown⟩ := (keeps_getArrayValues honoured coherent
    (coherent.canonical.toInterned.genuine ht)).answer read
  rw [base] at done
  obtain ⟨start, s₂, made, done⟩ := of_bind_ok done
  have genuine := kept₁.coherent.canonical.toInterned.genuine (fillKnown fill base)
  obtain ⟨kept₂, known, ⟨op, sort_eq, kind, children⟩, -⟩ :=
    (keeps_constArray honoured kept₁.coherent genuine t.sort).answer made
  obtain ⟨-, -, overwrites⟩ := (keeps_storeAll honoured kept₂.coherent known fun p hp =>
    ⟨kept₂.extension.has _ (cellsKnown p hp).1, kept₂.extension.has _ (cellsKnown p hp).2⟩).answer
      done
  refine ⟨_, value, ?_⟩
  rw [sort]
  exact .chain isFill ⟨op, sort_eq.trans sort, kind, children⟩ areCells overwrites

theorem readValue_succeeds (plain : ¬ t.sort.isArray = true) (scalar : t.sort.IsScalar)
    (value : s.valueUnder env t = .ok x) : Succeeds (getValue t) s fun u _ =>
      u.IsLiteral t.sort x := by
  obtain ⟨n, ns, node, recorded, -, found, -⟩ := coherent.node ht
  have number := coherent.canonical.numbered t ht
  rw [valueUnder_eq number recorded] at value
  have sound := coherent.mirrored.valid
  obtain ⟨v, e, read, isDatum⟩ := Enumerator.getValue_succeeds sound scalar model found value
  have grown := ((Enumerator.ends_getValue sound found).answer read).1
  have holds := NodeStore.holds_eval sound.sorted (sound.model env model) found value
  have listens : Listens ⟨e, s.session⟩ :=
    ⟨coherent.canonical.toInterned, grown.2.aliasing.trans coherent.mirrored.aliases⟩
  have called : (onEngine (Engine.getValue n) : Action (Solver Enumerator LogicSort Handle) _) s =
      .ok v ⟨e, s.session⟩ := onEngine_ok read s.session
  rw [getValue, if_neg plain, Succeeds,
    bind_ok (native_of_recorded number recorded), bind_ok called]
  exact (wrapValue_reads (s := ⟨e, s.session⟩) listens holds isDatum).mono fun _ _ h => h.1

/-- What is answered for a value spells it out. -/
theorem getValue_reads (readable : t.sort.IsReadable) (honest : s.engine.faulty = false)
    (done : getValue t s = .ok u s') : ∃ x, s.valueUnder env t = .ok x ∧ u.Spells t.sort x := by
  obtain ⟨w, element, sort, -, scalar⟩ | ⟨plain, scalar⟩ := LogicSort.cases_of_readable readable
  · rw [getValue, if_pos (by rw [sort]; rfl)] at done
    exact getArray_reads coherent ht model sort scalar honest done
  · obtain ⟨n, ns, node, recorded, -, found, -⟩ := coherent.node ht
    have number := coherent.canonical.numbered t ht
    have read := done
    rw [getValue, if_neg plain] at read
    obtain ⟨v, s₁, called, -⟩ :=
      of_bind_ok ((bind_ok (native_of_recorded number recorded)).symm.trans read)
    obtain ⟨e, read, -⟩ := onEngine_answered called
    obtain ⟨x, value⟩ := Enumerator.valued_of_getValue model found read
    have value := (valueUnder_eq number recorded).trans value
    obtain ⟨_, _, run, isLiteral⟩ := readValue_succeeds coherent ht model plain scalar value
    cases run.symm.trans done
    exact ⟨x, value, .literal isLiteral⟩

end Reading

section Totality

theorem storeAll_succeeds {cells : List (Term × Term)} {array : Term}
    {s : Solver Enumerator LogicSort Handle}
    (coherent : s.Coherent Enumerator.contract) (known : s.session.Has array)
    (sort : array.sort = .array index element)
    (cellsKnown : ∀ p ∈ cells, (s.session.Has p.1 ∧ p.1.sort = index) ∧ s.session.Has p.2 ∧
      p.2.sort = element) :
    Succeeds (cells.foldlM (fun array (i, x) => makeTerm PrimOp.store [array, i, x]) array) s
      fun _ _ => True := by
  induction cells generalizing array s with
  | nil => exact succeeds_pure trivial
  | cons cell cells ih =>
    obtain ⟨⟨⟨hi, sortI⟩, hx, sortX⟩, others⟩ := List.forall_mem_cons.mp cellsKnown
    have all : ∀ a ∈ [array, cell.1, cell.2], s.session.Has a := by simp [known, hi, hx]
    have derived : (PrimOp.store : Op).resultSort ([array, cell.1, cell.2].map Term.sort) =
        .ok (some (.array index element)) := by
      simp only [List.map_cons, List.map_nil, sort, sortI, sortX]
      exact Op.resultSort_store index element
    rw [List.foldlM_cons]
    refine (makeTerm_succeeds coherent all derived).bind ?_
    rintro next s' ⟨kept, has, -, sort', -⟩
    refine ih kept.coherent has sort' fun p hp => ?_
    obtain ⟨⟨hi, sortI⟩, hx, sortX⟩ := others p hp
    exact ⟨⟨kept.extension.has _ hi, sortI⟩, kept.extension.has _ hx, sortX⟩

variable (coherent : s.Coherent Enumerator.contract) (ht : s.session.Has t)
    (model : s.engine.model = some env)
  (honest : s.engine.faulty = false) (value : s.valueUnder env t = .ok x)

include coherent ht model honest value

theorem getArray_succeeds (sort : t.sort = .array index element) (scalar : element.IsScalar)
    (counted : ∃ bits, t.sort.searchBits = .ok bits) : Succeeds (getArray t) s fun _ _ => True := by
  have honoured := Enumerator.contract_honoured
  obtain ⟨m, s₁, read, w, first, rest, fill, rfl, -, base, isFill, areCells⟩ :=
    getArrayValues_succeeds coherent ht model sort scalar honest value
  obtain ⟨kept₁, fillKnown, cellsKnown⟩ := (keeps_getArrayValues honoured coherent
    (coherent.canonical.toInterned.genuine ht)).answer read
  have hf := fillKnown fill base
  have same : t.sort = .array (.bitVec w) fill.sort := by rw [sort, isFill.sort_eq]
  rw [getArray, Succeeds, bind_ok read, base]
  show Succeeds (makeConstArray fill t.sort >>= _) s₁ _
  rw [same] at counted ⊢
  have starts := (keeps_constArray honoured kept₁.coherent
    (kept₁.coherent.canonical.toInterned.genuine hf) _).and
      (makeConstArray_succeeds kept₁.coherent hf (.inr counted))
  refine starts.bind ?_
  rintro array s₂ ⟨kept₂, ⟨known, ⟨-, sort', -⟩, -⟩, -⟩
  refine storeAll_succeeds kept₂.coherent known sort' fun p hp => ?_
  obtain ⟨d, -, isCell⟩ := exists_of_forall₂ areCells hp
  obtain ⟨hi, hx⟩ := cellsKnown p hp
  exact ⟨⟨kept₂.extension.has _ hi, isCell.index.sort_eq⟩, kept₂.extension.has _ hx,
    isCell.cell.sort_eq.trans isFill.sort_eq.symm⟩

theorem getValue_succeeds (readable : t.sort.IsReadable)
    (counted : ∃ bits, t.sort.searchBits = .ok bits) :
    Succeeds (getValue t) s fun _ _ => True := by
  obtain ⟨w, element, sort, -, scalar⟩ | ⟨plain, scalar⟩ := LogicSort.cases_of_readable readable
  · rw [getValue, if_pos (by rw [sort]; rfl)]
    exact getArray_succeeds coherent ht model honest value sort scalar counted
  · exact (readValue_succeeds coherent ht model plain scalar value).mono fun _ _ _ => trivial

end Totality

theorem number_of_getValue (done : getValue t s = .ok u s') : t.session = s.session.number := by
  by_cases own : t.session = s.session.number
  · exact own
  · obtain ⟨x, -, refused⟩ :=
      refused_getValue (show t.session ≠ s.session.number from own)
    cases (refused Enumerator s.engine).symm.trans done

/-- The value of a term is exact: it spells out, and has, the value of the term in the model. -/
theorem getValue_exact (coherent : s.Coherent Enumerator.contract) (genuine : s.session.Genuine t)
    (readable : t.sort.IsReadable) (honest : s.engine.faulty = false)
    (model : s.engine.model = some env) (done : getValue t s = .ok u s') :
    s.session.Has t ∧ Kept Enumerator.contract s s' ∧ s'.session.Has u ∧
      ∃ x, s.valueUnder env t = .ok x ∧ u.Spells t.sort x ∧
        ∀ env', s'.valueUnder env' u = .ok x := by
  have ht := genuine.has (number_of_getValue done)
  obtain ⟨kept, hu⟩ := (keeps_getValue Enumerator.contract_honoured coherent genuine).answer done
  obtain ⟨x, value, spells⟩ := getValue_reads coherent ht model readable honest done
  have holds := holds_of_valueUnder coherent ht (coherent.mirrored.valid.model env model) value
  exact ⟨ht, kept, hu, x, value, spells, fun _ =>
    valueUnder_spells kept.coherent hu spells readable holds⟩

/-- Model values are exact and canonical. What is answered for the value of a term is closed, of the
sort of the term, and has the value that the term has in the model, whatever the symbols stand for;
for an array it is a constant array that is overwritten at strictly increasing indices. Until the
session ends, the value of another term of the sort is the same node just if the term has the same
value. -/
theorem model_values_canonical (history : History Enumerator.Honest s issued scopes)
    (model : s.engine.model = some env) (available : s.Available issued t)
    (readable : t.sort.IsReadable) (done : getValue t s = .ok u s') :
    (u.sort = t.sort ∧ u.IsClosed ∧ s'.engine.model = some env ∧
      ∃ x, s.valueUnder env t = .ok x ∧ ∀ env', s'.valueUnder env' u = .ok x) ∧
    (t.sort.isArray = true → ∃ w fill start cells indices, Term.IsFilled start t.sort fill ∧
      Overwrites start cells u ∧
      List.Forall₂ (fun c i => c.1.kind = .value (.bitVec w i)) cells indices ∧
      indices.Pairwise (· < ·)) ∧
    ∀ s₂ issued₂, Since (· ≠ .command .reset) s' (issued ++ [u]) s₂ issued₂ →
      ∀ env₂ t' u' s₃, s₂.engine.model = some env₂ → s₂.Available issued₂ t' → t'.sort = t.sort →
        getValue t' s₂ = .ok u' s₃ →
        (u' = u ↔ s₂.valueUnder env₂ t' = s₂.valueUnder env t) := by
  have honoured := Enumerator.contract_honoured
  obtain ⟨coherent, known⟩ := history.unused.fresh.coherent honoured
  obtain ⟨tidy, -⟩ := history.unused.asserted
  obtain ⟨_, cored⟩ := history.cored
  obtain ⟨ht, kept, hu, x, value, spells, closed⟩ :=
    getValue_exact coherent (available.genuine known) readable cored.honest model done
  have holds := holds_of_valueUnder coherent ht (coherent.mirrored.valid.model env model) value
  have asks : (Request.command (.getValue t)).perform s = .ok (.term u) s' := map_ok done
  have among : ∀ a ∈ [t], s.Available issued a := fun a ha => List.mem_singleton.mp ha ▸ available
  have model' : s'.engine.model = some env :=
    ((retains_perform (q := .command (.getValue t)) tidy trivial).answer asks).1.model.trans model
  refine ⟨⟨sort_of_spells kept.coherent hu spells, isClosed_of_spells spells,
    model', x, value, closed⟩, chain_of_spells spells readable holds, ?_⟩
  intro s₂ issued₂ since env₂ t' u' s₃ model₂ available₂ sort₂ done₂
  have longer := history.answer (.command (.getValue t)) among asks kept.extension.number
  obtain ⟨_, history₂⟩ := longer.since since
  obtain ⟨coherent₂, known₂⟩ := history₂.unused.fresh.coherent honoured
  obtain ⟨_, cored₂⟩ := history₂.cored
  obtain ⟨-, kept₂, hu', x₂, value₂, spells₂, closed₂⟩ := getValue_exact coherent₂
    (available₂.genuine known₂) (sort₂ ▸ readable) cored₂.honest model₂ done₂
  obtain ⟨later, -⟩ := since.kept honoured (fun q lasts => lasts) kept.coherent
    (longer.unused.fresh.coherent honoured).2
  have lasting := later.trans honoured kept₂
  rw [value₂, (kept.trans honoured later).valueUnder coherent ht, value, Except.ok.injEq]
  constructor
  · rintro rfl
    have both := (closed₂ env).symm.trans ((lasting.valueUnder kept.coherent hu).trans (closed env))
    exact Except.ok.inj both
  · rintro rfl
    rw [sort₂] at spells₂
    exact unique_of_spells lasting.coherent spells₂ spells hu' (lasting.extension.has u hu)

/-- An array that has to hold at an index, for which a check has found a model. -/
theorem exists_array_modelled :
    ∃ (s : Solver Enumerator LogicSort Handle) (a i t : Term) (first : Datum) (env : Assignment),
    Scene Enumerator.Honest s [a, i, t] [[t]] ∧ s.engine.aliasing = true ∧
      s.engine.model = some env ∧ (a.sort = .array (.bitVec 1) .bool ∧ a.kind = .symbol "a") ∧
      (t.op = PrimOp.select ∧ t.children = [a, i] ∧ i.kind = .value (.bitVec 1 1)) ∧
      s.session.Has a ∧ s.valueUnder env a = .ok (.array [first, .bool true]) := by
  have honest : (Enumerator.new "m").withAliasing.Honest := ⟨⟨⟨rfl, rfl⟩, rfl, rfl⟩, rfl, rfl⟩
  have new : Scene Enumerator.Honest (Solver.new (Enumerator.new "m").withAliasing {}) [] [[]] :=
    .new honest honest.toUnused {}
  have counted : LogicSort.searchBits (.array (.bitVec 1) .bool) = .ok 2 := rfl
  obtain ⟨a, s₁, -, kept₁, ha, scene₁, -, sortA, kindA, leafA⟩ :=
    new.symbol "a" (.array (.bitVec 1) .bool) ⟨2, counted⟩ fun _ hu => absurd hu List.not_mem_nil
  obtain ⟨i, s₂, -, kept₂, hi, scene₂, opI, sortI, kindI, leafI⟩ :=
    scene₁.literal (.bitVec 1 1) (.bitVec 1) rfl rfl ⟨1, rfl⟩
  have known : ∀ c ∈ [a, i], s₂.session.Has c := by simp [kept₂.extension.has a ha, hi]
  have derived : (PrimOp.select : Op).resultSort ([a, i].map Term.sort) = .ok (some .bool) := by
    simp only [List.map_cons, List.map_nil, sortA, sortI]
    rfl
  obtain ⟨t, s₃, -, kept₃, ht, scene₃, op, sortT, kindT, children⟩ :=
    scene₂.application _ known derived
  obtain ⟨s₄, -, same₄, scene₄ : Scene Enumerator.Honest s₄ [a, i, t] [[t]]⟩ :=
    scene₃.asserted ht sortT
  have enumerable : Enumerable ([[t]] : List (List Term)).flatten := by
    refine .of_closed [a, i, t] (by simp) (by simp [leafA, leafI, children]) ?_
      [("a", .array (.bitVec 1) .bool)] (by simp [kindA, kindI, kindT, sortA]) (by decide)
    simp only [List.forall_mem_cons]
    refine ⟨Term.evaluable_symbol ?_ kindA, Term.evaluable_value ?_ kindI fun _ => nofun,
      Term.evaluable_application ?_ kindT (by rw [op]; rfl) (by rw [op]; rfl), nofun⟩
    · exact sortA ▸ ⟨2, counted, fun _ => by decide⟩
    · exact sortI ▸ LogicSort.isEnumerable_bitVec 1
    · exact sortT ▸ LogicSort.isEnumerable_bool
  obtain ⟨v, s, checked, same⟩ := check_succeeds scene₄.coherent scene₄.unused.asserted.2 enumerable
  have done : (Request.command .checkSat).perform s₄ = .ok (.verdict v) s := map_ok checked
  have scene : Scene Enumerator.Honest s [a, i, t] [[t]] :=
    scene₄.after (fun _ hu => absurd hu List.not_mem_nil) done rfl same
  have stays : ∀ u, s₃.session.Has u → s.session.Has u := fun u hu => same ▸ same₄ ▸ hu
  have has : s.session.Has a := stays a (kept₃.extension.has a (kept₂.extension.has a ha))
  have hasT : s.session.Has t := stays t ht
  have index : ∀ env, s.valueUnder env i = .ok (.bitVec 1 1) := fun _ =>
    valueUnder_literal scene.coherent (stays i (kept₃.extension.has i hi))
      ⟨opI, sortI, ⟨.bitVec 1 1, rfl, kindI⟩, leafI⟩ (LogicSort.holds_ofBits 1 1)
  have reads : ∀ {env first second},
      s.valueUnder env a = .ok (.array [first, second]) → s.valueUnder env t = .ok second := by
    intro env first second value
    rw [valueUnder_application scene.coherent hasT kindT children
      (.cons value (.cons (index _) .nil)), op, sortT]
    rfl
  -- An array that holds at the index makes the assertion true, so the check finds a model.
  obtain ⟨-, -, _, ⟨⟩, decides, sat, unsat⟩ := decision_right scene₄.coherent scene₄.tidy
    scene₄.unused.asserted.2 (fun _ hu => absurd hu List.not_mem_nil) rfl done
  have holds : a.sort.Holds (.array [.bool false, .bool true]) := by
    rw [sortA]
    exact ⟨⟨1, rfl, rfl⟩, by simp [LogicSort.Holds]⟩
  obtain ⟨env', admits, value'⟩ := exists_valueUnder_symbol scene.coherent has kindA holds
  obtain ⟨env, model, -, high⟩ :=
    sat (eq_sat_of_high decides unsat admits (by simpa using reads value'))
  obtain ⟨-, -, high⟩ := high t (by simp)
  -- In the model that it has found, the array holds there, too.
  obtain ⟨xs, values⟩ := exists_valueUnder_children scene.coherent hasT kindT high
  rw [children] at values
  obtain ⟨x, -, value, -, -⟩ := List.forall₂_cons_left_iff.mp values
  have array :=
    holds_of_valueUnder scene.coherent has (scene.coherent.mirrored.valid.model env model) value
  rw [sortA] at array
  obtain ⟨_, cells, ⟨⟩, rfl, length, -⟩ := LogicSort.eq_array_of_holds array
  obtain ⟨first, second, rfl⟩ := List.length_eq_two.mp length
  obtain rfl := Except.ok.inj ((reads value).symm.trans high)
  have aliasing : s.engine.aliasing = true := by
    rw [scene.coherent.mirrored.aliases, same, same₄, kept₃.extension.aliasing,
      kept₂.extension.aliasing, kept₁.extension.aliasing]
    rfl
  exact ⟨s, a, i, t, first, env, scene, aliasing, model, ⟨sortA, kindA⟩, ⟨op, children, kindI⟩,
    has, value⟩

/-- An array that is asserted to hold at an index; asked for twice, its value is one node, although
the engine reports truth values as one-bit vectors. -/
theorem model_values_canonical_array :
    ∃ (s s' s'' : Solver Enumerator LogicSort Handle) (a i t u : Term)
    (first : Datum) (env : Assignment), History Enumerator.Honest s [a, i, t] [[t]] ∧
    s.engine.aliasing = true ∧
      s.engine.model = some env ∧ a.sort = .array (.bitVec 1) .bool ∧ a.kind = .symbol "a" ∧
      t.op = PrimOp.select ∧ t.children = [a, i] ∧ i.kind = .value (.bitVec 1 1) ∧
      getValue a s = .ok u s' ∧ getValue a s' = .ok u s'' ∧ u.sort = a.sort ∧ u.IsClosed ∧
      (∀ env', s'.valueUnder env' u = .ok (.array [first, .bool true])) ∧
      ∃ w fill start cells indices, Term.IsFilled start u.sort fill ∧ Overwrites start cells u ∧
        List.Forall₂ (fun c i => c.1.kind = .value (.bitVec w i)) cells indices ∧
        indices.Pairwise (· < ·) := by
  obtain ⟨s, a, i, t, first, env, scene, aliasing, model, ⟨sortA, kindA⟩, reading, has, value⟩ :=
    exists_array_modelled
  have counted : a.sort.searchBits = .ok 2 := by
    rw [sortA]
    rfl
  have readable : a.sort.IsReadable := sortA ▸ ⟨by decide, trivial⟩
  obtain ⟨_, cored⟩ := scene.history.cored
  have available : s.Available [a, i, t] a := fun _ below _ => ⟨a, List.mem_cons_self, below⟩
  obtain ⟨u, s', answered, -⟩ :=
    getValue_succeeds scene.coherent has model cored.honest value readable ⟨2, counted⟩
  obtain ⟨⟨sort, closed, model', x, value', exact⟩, chain, unique⟩ :=
    model_values_canonical scene.history model available readable answered
  cases value.symm.trans value'
  obtain ⟨-, kept', -⟩ := getValue_exact scene.coherent
    (scene.coherent.canonical.toInterned.genuine has) readable cored.honest model answered
  -- The value is asked for once more.
  have later := scene.history.answer (.command (.getValue a))
    (List.forall_mem_singleton.mpr available) (map_ok answered) kept'.extension.number
  obtain ⟨_, cored'⟩ := later.cored
  have value'' := (kept'.valueUnder scene.coherent has).trans value
  obtain ⟨u', s'', answered', -⟩ :=
    getValue_succeeds kept'.coherent (kept'.extension.has a has) model'
      cored'.honest value'' readable ⟨2, counted⟩
  have available' : s'.Available ([a, i, t] ++ [u]) a := fun _ below _ =>
    ⟨a, List.mem_append_left _ List.mem_cons_self, below⟩
  obtain rfl := (unique s' _ .refl env a u' s'' model' available' rfl answered').mpr rfl
  exact ⟨s, s', s'', a, i, t, u', first, env, scene.history, aliasing, model, sortA, kindA,
    reading.1, reading.2.1, reading.2.2, answered, answered', sort, closed, exact,
    sort ▸ chain (by rw [sortA]; rfl)⟩

end FormulaGraph.Solver

import FormulaGraph.Proofs.Solver.StackedTerms

/-!
Asserting, checking and reading models in a solver on top of another. What the engine answers is
wrapped below and wrapped once more above; a wrapped literal is read as what it is, so nothing is
lost.
-/

namespace FormulaGraph

open FormulaGraph.Action

section Assumptions

variable {i : Session LogicSort Handle} {s : Session LogicSort Term}
    {r : Session LogicSort Handle} {t v : Term}
  {ts vs : List Term} {hs : List Handle}

theorem Solver.expectBooleanLiteral_shape (shape : v.shape = t.shape)
    (passed : expectBooleanLiteral t = .ok ()) : expectBooleanLiteral v = .ok () := by
  have symbol {a b : Term} (shape : a.shape = b.shape) : a.isSymbol = b.isSymbol := by
    rw [Term.isSymbol, Term.symbolName?, (Term.shape_eq_iff.mp shape).2.2.1,
      Term.isSymbol, Term.symbolName?]
  obtain ⟨op, sort, -, shapes⟩ := Term.shape_eq_iff.mp shape
  have decided {a b : Term} (shape : a.shape = b.shape)
      (passed : (if t.sort.isBool &&
        b.isSymbol then .ok () else .error (.usage (.notABooleanLiteral t)) :
        Except Error Unit) = .ok ()) :
      (if t.sort.isBool && a.isSymbol then .ok () else .error (.usage (.notABooleanLiteral v)) :
        Except Error Unit) = .ok () := by
    rw [symbol shape]
    split at passed
    · rename_i holds
      rw [if_pos holds]
    · cases passed
  unfold expectBooleanLiteral at passed ⊢
  rw [op, sort]
  have children := Term.forall₂_of_shapes shapes
  generalize v.children = cs, t.children = cs', t.op.prim = prim at children passed ⊢
  cases children with
  | nil =>
    cases prim
    all_goals exact decided shape passed
  | cons first _ =>
    cases prim
    case not => exact decided first passed
    all_goals exact decided shape passed

theorem Session.StandAll.literals (stand : StandAll i s r ts vs hs)
    (passed : ts.forM Solver.expectBooleanLiteral = .ok ()) :
    vs.forM Solver.expectBooleanLiteral = .ok () := by
  induction stand with
  | nil => rfl
  | @cons t v n ts vs ns first _ ih =>
    have passed :
        (Solver.expectBooleanLiteral t >>= fun _ => ts.forM Solver.expectBooleanLiteral) = .ok () :=
      passed
    obtain ⟨_, literal, rest⟩ := ok_of_bind passed
    show (Solver.expectBooleanLiteral v >>= fun _ => vs.forM Solver.expectBooleanLiteral) = .ok ()
    rw [Solver.expectBooleanLiteral_shape first.shape literal]
    exact ih rest

namespace Session

theorem Levels.remember (levels : Levels i s r) (stand : StandAll i s r ts vs hs) :
    Levels (Solver.rememberAssumptions hs vs i) (Solver.rememberAssumptions vs ts s)
      (Solver.rememberAssumptions hs ts r) := by
  -- Of two assumptions that stand on one term of the engine the later counts, on every level.
  have folded (below : Std.HashMap Handle Term) (above : Std.HashMap Term Term)
    (direct : Std.HashMap Handle Term)
      (known : ∀ n : Handle, Option.Rel
        (fun v t => i.natives[v]? = some n ∧ above[v]? = some t) below[n]?
        direct[n]?) (n : Handle) :
      Option.Rel (fun v t =>
        ((vs.zip ts).foldl (fun known p => known.insert p.1 p.2) above)[v]? = some t)
        ((hs.zip vs).foldl (fun known p => known.insert p.1 p.2) below)[n]?
        ((hs.zip ts).foldl (fun known p => known.insert p.1 p.2) direct)[n]? := by
    induction stand generalizing below above direct with
    | nil => exact optionRel_imp (known n) fun _ _ known => known.2
    | @cons t v m ts vs hs first _ ih =>
      refine ih _ _ _ fun n => ?_
      rw [Std.HashMap.getElem?_insert, Std.HashMap.getElem?_insert]
      split
      · rename_i same
        have same : m = n := eq_of_beq same
        exact .some ⟨same ▸ first.engine, Std.HashMap.getElem?_insert_self⟩
      · rename_i other
        refine optionRel_imp (known n) fun w u known => ⟨known.1, ?_⟩
        rw [Std.HashMap.getElem?_insert, if_neg (fun same => other ?_)]
        · exact known.2
        · have found := first.engine
          rw [Std.HashMap.getElem?_congr same, known.1] at found
          cases found
          exact beq_self_eq_true _
  exact { levels with
    toGraphs := levels.toGraphs.congr ⟨rfl, rfl, rfl, rfl⟩ ⟨rfl, rfl, rfl, rfl⟩ ⟨rfl, rfl, rfl, rfl⟩
    assumptions := fun n => folded {} {} {} (fun n => by
      rw [Std.HashMap.getElem?_empty]
      exact .none) n }

theorem Levels.forget (levels : Levels i s r) :
    Levels { i with assumptions := {} } { s with assumptions := {} } { r with assumptions := {} } :=
  { levels with
    toGraphs := levels.toGraphs.congr ⟨rfl, rfl, rfl, rfl⟩ ⟨rfl, rfl, rfl, rfl⟩ ⟨rfl, rfl, rfl, rfl⟩
    assumptions := fun n => by
      rw [Std.HashMap.getElem?_empty]
      exact .none }

/-- A core of the engine is traced back to the same assumptions in one step as in two. -/
theorem Levels.core (levels : Levels i s r) (core : List Handle) (describe : Handle → String)
    (describe' : Term → String) :
    (∃ vs ts, core.mapM (i.assumption describe) = .ok vs ∧
      core.mapM (r.assumption describe) = .ok ts ∧ vs.mapM (s.assumption describe') = .ok ts) ∨
      ∃ e, core.mapM (i.assumption describe) = .error e ∧
        core.mapM (r.assumption describe) = .error e := by
  induction core with
  | nil => exact .inl ⟨[], [], rfl, rfl, rfl⟩
  | cons n core ih =>
    rw [List.mapM_cons, List.mapM_cons]
    have known := levels.assumptions n
    unfold Session.assumption at ih ⊢
    generalize i.assumptions[n]? = o, r.assumptions[n]? = o' at known
    cases known with
    | none => exact .inr ⟨_, rfl, rfl⟩
    | @some v t found =>
      obtain ⟨vs, ts, below, direct, above⟩ | ⟨e, below, direct⟩ := ih
      · refine .inl ⟨v :: vs, t :: ts, ?_, ?_, ?_⟩
        · rw [below]
          rfl
        · rw [direct]
          rfl
        · rw [List.mapM_cons, found, above]
          rfl
      · refine .inr ⟨e, ?_, ?_⟩
        · rw [below]
          rfl
        · rw [direct]
          rfl

end Session

end Assumptions

namespace Solver

section Cores

variable {σ S T : Type} [BEq T] [Hashable T] [Engine σ S T] {s : Solver σ S T} {core : List T}

/-- The assumptions behind the elements of a core. -/
def traceBack (core : List T) : Action (Solver σ S T) (List Term) := do
  let describe := Engine.describe (← get).engine
  ask fun s => core.mapM (s.assumption describe)

theorem traceBack_ok {ts : List Term}
    (traced : core.mapM (s.session.assumption (Engine.describe s.engine)) = .ok ts) :
    traceBack core s = .ok ts s := by
  rw [traceBack, get_then, ask, traced]

theorem traceBack_error {e : Error}
    (failed : core.mapM (s.session.assumption (Engine.describe s.engine)) = .error e) :
    traceBack core s = .error e s := by
  rw [traceBack, get_then, ask, failed]

end Cores

variable {α : Type} {n : Stacked} {m i : Direct} {s : Session LogicSort Term}
    {t : Term} {ts : List Term}
  {sort : LogicSort}

namespace Level

theorem pass (level : Level n m) (act : Action Enumerator α) :
    Alike (Solver.onEngine (Solver.onEngine act) n) (Solver.onEngine act m) := by
  obtain ⟨i, s⟩ := n
  exact Concur.lift (level.onEngine act) fun _ _ _ _ called => called.same

theorem assertFormula (level : Level n m) (genuine : n.session.Genuine t) :
    Alike (Solver.assertFormula t n) (Solver.assertFormula t m) := by
  refine .checked level fun _ isBool => ?_
  refine Concur.bind (level.native genuine) ?_
  rintro v h ⟨i, s⟩ m level ⟨rfl, rfl, stands⟩
  have below : (Engine.assertFormula v : Action Direct Unit) i =
      Solver.onEngine (Engine.assertFormula h) i := by
    show Solver.assertFormula v i = _
    rw [Solver.assertFormula, (Term.shape_eq_iff.mp stands.shape).2.1, isBool, ofExcept_then]
    exact bind_ok (level.native_below stands)
  rw [onEngine_congr below]
  exact level.pass _

theorem checkSatAssuming (level : Level n m) (genuine : ∀ t ∈ ts, n.session.Genuine t) :
    Alike (Solver.checkSatAssuming ts n) (Solver.checkSatAssuming ts m) := by
  refine .checked level fun _ literals => ?_
  refine Concur.bind (level.natives genuine) ?_
  rintro vs hs ⟨i, s⟩ m level ⟨rfl, rfl, stand⟩
  have below : (Engine.checkSatAssuming vs : Action Direct Verdict) i =
      Solver.onEngine (Engine.checkSatAssuming hs)
        ⟨i.engine, rememberAssumptions hs vs i.session⟩ := by
    show Solver.checkSatAssuming vs i = _
    rw [Solver.checkSatAssuming, stand.literals literals, ofExcept_then,
      bind_ok (level.natives_below stand)]
    rfl
  have remembered :
    Level ⟨⟨i.engine, rememberAssumptions hs vs i.session⟩, rememberAssumptions vs ts s⟩
      ⟨m.engine, rememberAssumptions hs ts m.session⟩ :=
        ⟨level.engine, level.sessions.remember stand⟩
  show Alike (Solver.onEngine (Engine.checkSatAssuming vs) ⟨i, rememberAssumptions vs ts s⟩) _
  rw [onEngine_congr below]
  exact remembered.pass _

theorem getUnsatCore (level : Level n m) :
    Alike (Solver.getUnsatCore n) (Solver.getUnsatCore m) := by
  obtain ⟨i, s⟩ := n
  refine Concur.below (level.onEngine _) ?_
  rintro _ core ⟨e, session⟩ m level ⟨rfl, -, -, -⟩
  show Alike ((Solver.onEngine (traceBack core) >>= traceBack) ⟨⟨e, session⟩, s⟩) (traceBack core m)
  have engines : m.engine = e := level.engine
  obtain ⟨vs, ts, below, direct, above⟩ | ⟨x, below, direct⟩ :=
    level.sessions.core core (Engine.describe m.engine) Term.render
  · have traced : traceBack core ⟨e, session⟩ = .ok vs ⟨e, session⟩ :=
      traceBack_ok (engines ▸ below)
    obtain ⟨notices, run⟩ := stacked_ok traced s
    let quiet : Stacked := ⟨⟨e, { session with notices := #[] }⟩, { s with notices }⟩
    have answered : traceBack vs quiet = .ok ts quiet := traceBack_ok above
    rw [bind_ok run, traceBack_ok direct, answered]
    exact .ok ⟨level.engine, level.sessions.quiet _ _ _⟩ rfl
  · have traced : traceBack core ⟨e, session⟩ = .error x ⟨e, session⟩ :=
      traceBack_error (engines ▸ below)
    have failed : Solver.onEngine (traceBack core) ⟨⟨e, session⟩, s⟩ =
        .error x (Solver.withEngine ⟨e, session⟩ s) := by
      rw [Solver.onEngine, traced]
    rw [bind_error failed, traceBack_error direct]
    exact .error x level.withEngine

theorem resetAssertions (level : Level n m) :
    Alike (Solver.resetAssertions n) (Solver.resetAssertions m) := by
  obtain ⟨i, s⟩ := n
  have forgotten :
    Level ⟨⟨i.engine, { i.session with assumptions := {} }⟩, { s with assumptions := {} }⟩
      ⟨m.engine, { m.session with assumptions := {} }⟩ := ⟨level.engine, level.sessions.forget⟩
  have below : (Engine.resetAssertions : Action Direct Unit) i =
      Solver.onEngine Engine.resetAssertions ⟨i.engine, { i.session with assumptions := {} }⟩ := rfl
  show Alike (Solver.onEngine Engine.resetAssertions ⟨i, { s with assumptions := {} }⟩) _
  rw [onEngine_congr below]
  exact forgotten.pass _

theorem reset (level : Level n m) : Alike (Solver.reset n) (Solver.reset m) := by
  obtain ⟨i, s⟩ := n
  have below :
    (Engine.reset : Action Direct Unit) i = .ok () ⟨i.engine.reset, i.session.renew⟩ := rfl
  obtain ⟨notices, run⟩ := stacked_ok below s
  rw [Solver.reset, bind_ok run]
  refine .ok ⟨congrArg Enumerator.reset level.engine, ?_⟩ rfl
  have sessions := level.sessions
  have renewed :
      Session.Levels i.session.renew (Session.renew { s with notices }) m.session.renew :=
    .of_blank ⟨rfl, rfl, rfl, rfl, rfl, rfl⟩ ⟨rfl, rfl, rfl, rfl, rfl, rfl⟩
      ⟨rfl, rfl, rfl, rfl, rfl, rfl⟩
      (congrArg Supply.nextSession sessions.supply)
      (congrArg (fun supply : Supply => { supply with nextSession := supply.nextSession + 1 })
        sessions.supply)
      sessions.aliasing sessions.memos
  exact renewed.quiet _ _ _

end Level

end Solver

end FormulaGraph

import FormulaGraph.Proofs.Solver.BlindRequests

/-!
That an engine reports truth values as one-bit vectors is not seen above the solver.
-/

namespace FormulaGraph.Solver

open FormulaGraph.Action

variable {s s' : Solver Enumerator LogicSort Handle} {start : Enumerator → Prop}
    {issued : List Term}

/-- The terms that a request has handed out, if it was answered. -/
def handed : Except Error (Answer LogicSort Term) → List Term
  | .ok answer => answer.given
  | .error _ => []

/-- A solver over an engine, and a solver over the same engine that reports truth values as one-bit
vectors. Both are asked the same, one request after the other, and whether these succeed or fail;
their notices are taken; or other solvers draw on the supply. The terms are those that were answered
in the session. -/
inductive SideBySide (start : Enumerator → Prop) :
    Solver Enumerator LogicSort Handle → Solver Enumerator LogicSort Handle → List Term → Prop
  | new {e : Enumerator} (starts : start e) (supply : Supply)
      (evicts evicts' : Eviction := .never) :
      SideBySide start (Solver.new e supply evicts) (Solver.new e.withAliasing supply evicts') []
  | served {s s' : Solver Enumerator LogicSort Handle} {issued : List Term}
      (before : SideBySide start s s' issued) (q : Request)
      (available : ∀ t ∈ q.terms, s.Available issued t) :
      SideBySide start (q.perform.finalState s) (q.perform.finalState s')
        (stillIssued s (q.perform.finalState s) issued ++ handed (q.perform.outcome s))
  | reported {s s' : Solver Enumerator LogicSort Handle} {issued : List Term}
      (before : SideBySide start s s' issued) :
      SideBySide start (Engine.takeNotices s).2 (Engine.takeNotices s').2 issued
  | elsewhere {s s' : Solver Enumerator LogicSort Handle} {issued : List Term}
      (before : SideBySide start s s' issued) {supply : Supply}
      (nextTerm : s.session.supply.nextTerm ≤ supply.nextTerm)
      (nextSession : s.session.supply.nextSession ≤ supply.nextSession) :
      SideBySide start ⟨s.engine, { s.session with supply }⟩ ⟨s'.engine, { s'.session with supply }⟩
        issued

theorem SideBySide.answer (side : SideBySide start s s' issued) (q : Request)
    (available : ∀ t ∈ q.terms, s.Available issued t) {answer : Answer LogicSort Term}
    {s₁ : Solver Enumerator LogicSort Handle} (done : q.perform s = .ok answer s₁)
    (lasts : s₁.session.number = s.session.number) :
    SideBySide start s₁ (q.perform.finalState s') (issued ++ answer.given) := by
  have both := side.served q available
  rwa [finalState_ok done, outcome_ok done, stillIssued, if_pos lasts] at both

theorem SideBySide.run (side : SideBySide start s s' issued) : Run start s issued := by
  induction side with
  | new starts supply evicts => exact .new starts supply evicts
  | @served s _ issued _ q available ih =>
    unfold finalState outcome
    cases done : q.perform s with
    | ok answer s₁ => exact ih.next (.answered q available done)
    | error e s₁ =>
      rw [handed, List.append_nil]
      exact ih.next (.failed q available done)
  | reported _ ih => exact ih.next .reported
  | elsewhere _ nextTerm nextSession ih => exact ih.next (.elsewhere nextTerm nextSession)

theorem twin_new (e : Enumerator) (supply : Supply) (evicts evicts' : Eviction) :
    Twin (Solver.new e supply evicts) (Solver.new e.withAliasing supply evicts') :=
  ⟨⟨#[], (Solver.new e.withAliasing supply evicts' :
    Solver Enumerator LogicSort Handle).session.arbiter,
    e.aliasing_withAliasing, .of_empty rfl⟩, rfl⟩

theorem SideBySide.twin (side : SideBySide Enumerator.Fresh s s' issued) : Twin s s' := by
  induction side with
  | new _ supply evicts evicts' => exact twin_new _ supply evicts evicts'
  | @served s s' issued before q available ih =>
    obtain ⟨guise, rfl⟩ := ih
    by_cases hidden : q = .command .capabilities
    · subst hidden
      exact twin_aliased guise s
    · obtain ⟨coherent, known⟩ := before.run.coherent Enumerator.contract_honoured
      have genuine := fun t ht => (available t ht).genuine known
      exact (blind_perform coherent genuine hidden guise).finalState
  | reported _ ih =>
    obtain ⟨guise, rfl⟩ := ih
    exact twin_aliased { guise with notices := #[] } _
  | elsewhere _ _ _ ih =>
    obtain ⟨guise, rfl⟩ := ih
    exact twin_aliased guise _

/-- Whatever was asked of the two solvers before, both have the same number of terms and the same
sorts, and to the next request both give the same answer or fail alike: terms, sorts, literals,
verdicts, values, array models and cores are the same. Only the capabilities tell the engines apart,
and the notices. -/
theorem aliasing_invisible (side : SideBySide Enumerator.Fresh s s' issued) :
    s'.termCount = s.termCount ∧
    (∀ sort, s'.session.hasSort sort = s.session.hasSort sort) ∧
    ∀ q : Request, (∀ t ∈ q.terms, s.Available issued t) → q ≠ .command .capabilities →
      q.perform.outcome s' = q.perform.outcome s := by
  obtain ⟨coherent, known⟩ := side.run.coherent Enumerator.contract_honoured
  obtain ⟨guise, rfl⟩ := side.twin
  refine ⟨rfl, fun _ => rfl, fun q available hidden => ?_⟩
  have genuine := fun t ht => (available t ht).genuine known
  exact (blind_perform coherent genuine hidden guise).outcome_eq.symm

/-- A negation is of sort Bool on both engines, although one of them reports a one-bit vector for
it. -/
theorem aliasing_invisible_negation : ∃ (s s' : Solver Enumerator LogicSort Handle) (t u : Term),
    SideBySide Enumerator.Fresh s s' [t] ∧ s.engine.aliasing = false ∧ s'.engine.aliasing = true ∧
      s'.termCount = s.termCount ∧ u.sort = .bool ∧
      (Request.command (.makeTerm PrimOp.not [t])).perform.outcome s = .ok (.term u) ∧
      (Request.command (.makeTerm PrimOp.not [t])).perform.outcome s' = .ok (.term u) := by
  have fresh : (Enumerator.new "m").Fresh := ⟨rfl, rfl⟩
  have new := SideBySide.new fresh {}
  obtain ⟨begins, -⟩ := new.run.coherent Enumerator.contract_honoured
  obtain ⟨t, s, made, kept, has, sort, -⟩ := makeBool_succeeds begins true
  have side : SideBySide Enumerator.Fresh s _ [t] :=
    new.answer (.makeBool true) (fun u hu => absurd hu List.not_mem_nil) (map_ok made)
      kept.extension.number
  have known : ∀ a ∈ [t], s.session.Has a := fun a ha => List.mem_singleton.mp ha ▸ has
  have derived : (PrimOp.not : Op).resultSort ([t].map Term.sort) = .ok (some .bool) := by
    rw [List.map_singleton, sort]
    rfl
  obtain ⟨u, s₁, applied, -, -, -, sort', -⟩ := makeTerm_succeeds kept.coherent known derived
  have available : ∀ a ∈ [t], s.Available [t] a := fun a ha b hb _ => ⟨a, ha, hb⟩
  obtain ⟨counts, -, alike⟩ := aliasing_invisible side
  have answers :
      (Request.command (.makeTerm PrimOp.not [t])).perform.outcome s = .ok (.term u) := by
    have done : (Request.command (.makeTerm PrimOp.not [t])).perform s = .ok (.term u) s₁ :=
      map_ok applied
    rw [outcome, done]
  have answers' := alike (.command (.makeTerm PrimOp.not [t])) available nofun
  refine ⟨s, _, t, u, side, ?_, ?_, counts, sort', answers, answers'.trans answers⟩
  · rw [kept.grows.aliasing]
    rfl
  · obtain ⟨guise, same⟩ := side.twin
    rw [same]
    exact s.engine.aliasing_withAliasing

end FormulaGraph.Solver

import FormulaGraph.Proofs.Enumeration.Growth
import FormulaGraph.Proofs.Solver.Assertions

/-!
A check on the enumerating engine depends on nothing but what is asserted. Whatever was done since,
and even if it was not the same that was done: where the same terms are asserted again, a check
answers the same and finds the same model.
-/

namespace FormulaGraph

namespace Scopes

variable {s s' : Scopes}

theorem eq_of_levels (same : s'.levels = s.levels) : s' = s := by
  obtain ⟨current, enclosing⟩ := s
  obtain ⟨current', enclosing'⟩ := s'
  cases same
  rfl

end Scopes

namespace Solver

open FormulaGraph.Action

variable {s s' t t' : Solver Enumerator LogicSort Handle} {issued issued' : List Term}
  {scopes scopes' : List (List Term)} {allowed : Request → Prop} {floor : Nat}

theorem Asserted.length_eq (asserted : s.Asserted scopes) :
    scopes.length = s.engine.scopes.depth + 1 :=
  asserted.renders.length_eq

/-- A stretch of a run along with what is asserted in the session. Every request of it is of a kind,
and the engine always has at least so many scopes to leave. -/
inductive Stretch (allowed : Request → Prop) (floor : Nat) (s : Solver Enumerator LogicSort Handle)
    (issued : List Term) (scopes : List (List Term)) :
    Solver Enumerator LogicSort Handle → List Term → List (List Term) → Prop
  | start : Stretch allowed floor s issued scopes s issued scopes
  | served {t t' : Solver Enumerator LogicSort Handle} {issued' issued'' : List Term}
      {scopes' : List (List Term)}
        (before : Stretch allowed floor s issued scopes t issued' scopes')
      (q : Request) (kind : allowed q) {ok : Bool} (step : Served q ok t issued' t' issued'')
      (above : floor ≤ t'.engine.scopes.depth) :
      Stretch allowed floor s issued scopes t' issued'' (if ok then q.asserts scopes' else scopes')
  | aside {t t' : Solver Enumerator LogicSort Handle} {issued' : List Term}
      {scopes' : List (List Term)}
      (before : Stretch allowed floor s issued scopes t issued' scopes') (step : Aside t t') :
      Stretch allowed floor s issued scopes t' issued' scopes'

/-- What is known of a solver in the midst of a run. -/
structure Underway (s : Solver Enumerator LogicSort Handle) (issued : List Term)
    (scopes : List (List Term)) : Prop where
  coherent : s.Coherent Enumerator.contract
  genuine : ∀ u ∈ issued, s.session.Genuine u
  tidy : s.Tidy
  asserted : s.Asserted scopes

theorem History.underway (history : History Enumerator.Unused s issued scopes) :
    Underway s issued scopes := by
  obtain ⟨coherent, genuine⟩ := history.fresh.coherent Enumerator.contract_honoured
  obtain ⟨tidy, asserted⟩ := history.asserted
  exact ⟨coherent, genuine, tidy, asserted⟩

theorem Underway.served {q : Request} {ok : Bool} (underway : Underway s issued scopes)
    (step : Served q ok s issued s' issued') (lasting : q ≠ .command .reset) :
    Kept Enumerator.contract s s' ∧
      Underway s' issued' (if ok then q.asserts scopes else scopes) := by
  obtain ⟨coherent, genuine, tidy, asserted⟩ := underway
  obtain ⟨kept, genuine'⟩ := step.kept Enumerator.contract_honoured coherent genuine lasting
  refine ⟨kept, ?_⟩
  cases step with
  | answered available done =>
    obtain ⟨tidy', asserted'⟩ := (accounts_ok done).mp <|
      accounts_perform coherent tidy asserted fun u hu => (available u hu).genuine genuine
    exact ⟨kept.coherent, genuine', tidy', asserted'⟩
  | failed available done =>
    obtain ⟨tidy', asserted'⟩ := (accounts_error done).mp <|
      accounts_perform coherent tidy asserted fun u hu => (available u hu).genuine genuine
    exact ⟨kept.coherent, genuine', tidy', asserted'⟩

theorem Underway.aside (underway : Underway s issued scopes) (step : Aside s s') :
    Kept Enumerator.contract s s' ∧ Underway s' issued scopes := by
  have kept := step.kept Enumerator.contract_honoured underway.coherent
  have genuine := fun u hu => (underway.genuine u hu).extend kept.extension
  have asserted : s'.engine.scopes = s.engine.scopes → s'.Asserted scopes :=
    underway.asserted.same kept.extension
  cases step with
  | reported => exact ⟨kept, kept.coherent, genuine, underway.tidy.congr rfl rfl, asserted rfl⟩
  | elsewhere => exact ⟨kept, kept.coherent, genuine, underway.tidy.congr rfl rfl, asserted rfl⟩

theorem Stretch.underway (stretch : Stretch allowed floor s issued scopes t issued' scopes')
    (lasting : ∀ q, allowed q → q ≠ .command .reset) (begins : Underway s issued scopes) :
    Kept Enumerator.contract s t ∧ Underway t issued' scopes' := by
  have honoured := Enumerator.contract_honoured
  induction stretch with
  | start => exact ⟨.refl honoured begins.coherent, begins⟩
  | served _ q kind step _ ih =>
    obtain ⟨kept, underway⟩ := ih.2.served step (lasting q kind)
    exact ⟨ih.1.trans honoured kept, underway⟩
  | aside _ step ih =>
    obtain ⟨kept, underway⟩ := ih.2.aside step
    exact ⟨ih.1.trans honoured kept, underway⟩

/-- Where the same terms are asserted, the engine has the same nodes in its scopes. -/
theorem Asserted.scopes_eq (asserted : t.Asserted scopes) (asserted' : t'.Asserted scopes)
    (native : ∀ ts ∈ scopes, ∀ u ∈ ts, t'.session.natives[u]? = t.session.natives[u]?) :
    t'.engine.scopes = t.engine.scopes := by
  have unique : Relator.RightUnique t'.session.Renders :=
    Relator.RightUnique.forall₂ fun _ _ _ first second => Option.some.inj (first.symm.trans second)
  have renders : List.Forall₂ t'.session.Renders scopes t.engine.scopes.levels := by
    refine (List.forall₂_and_left _ _ |>.mpr ⟨native, asserted.renders⟩).imp ?_
    rintro ts ns ⟨same, renders⟩
    refine (List.forall₂_and_left _ _ |>.mpr ⟨same, renders⟩).imp ?_
    rintro u n ⟨same, recorded⟩
    exact same.trans recorded
  exact Scopes.eq_of_levels (unique.forall₂ asserted'.renders renders)

section Calls

variable {α : Type} (act : Action Enumerator α) (e : Enumerator)
    (session : Session LogicSort Handle)

theorem outcome_onEngine : (onEngine act).outcome ⟨e, session⟩ = act.outcome e := by
  cases called : act e with
  | ok a e' => rw [outcome_ok (onEngine_ok called session), outcome_ok called]
  | error x e' => rw [outcome_error (onEngine_error called session), outcome_error called]

theorem finalState_onEngine :
    (onEngine act).finalState ⟨e, session⟩ = ⟨act.finalState e, session⟩ := by
  cases called : act e with
  | ok a e' => rw [finalState_ok (onEngine_ok called session), finalState_ok called]
  | error x e' => rw [finalState_error (onEngine_error called session), finalState_error called]

end Calls

theorem outcome_checkSat (s : Solver Enumerator LogicSort Handle) :
    (Request.command .checkSat).perform.outcome s =
      ((Enumerator.check [] .idle).outcome s.engine).map
        (Answer.verdict : Verdict → Answer LogicSort Term) := by
  rw [← outcome_onEngine _ _ s.session]
  exact outcome_map _ _ _

theorem finalState_checkSat (s : Solver Enumerator LogicSort Handle) :
    (Request.command .checkSat).perform.finalState s =
      ⟨(Enumerator.check [] .idle).finalState s.engine, s.session⟩ := by
  rw [← finalState_onEngine _ _ s.session]
  exact congrFun (finalState_map _ _) s

/-- A check made of either solver answers the same, or fails alike, and finds the same model. -/
structure ChecksAlike (s s' : Solver Enumerator LogicSort Handle) : Prop where
  outcome : (Request.command .checkSat).perform.outcome s' =
    (Request.command .checkSat).perform.outcome s
  model : ((Request.command .checkSat).perform.finalState s').engine.model =
    ((Request.command .checkSat).perform.finalState s).engine.model

theorem checksAlike_of_search (same : t'.engine.search [] .idle = t.engine.search [] .idle) :
    ChecksAlike t t' := by
  obtain ⟨outcome, model⟩ := Enumerator.check_congr same
  refine ⟨?_, ?_⟩
  · rw [outcome_checkSat, outcome_checkSat, outcome]
  · rw [finalState_checkSat, finalState_checkSat]
    exact model

/-- Two solvers that come from one, by whatever ways, check alike if the same of its terms are
asserted in both. -/
theorem checksAlike_of_asserted (coherent : s.Coherent Enumerator.contract)
    (kept : Kept Enumerator.contract s t)
    (kept' : Kept Enumerator.contract s t') (asserted : t.Asserted scopes)
    (asserted' : t'.Asserted scopes)
    (known : ∀ ts ∈ scopes, ∀ u ∈ ts, s.session.Has u) : ChecksAlike t t' := by
  have natives : ∀ ts ∈ scopes, ∀ u ∈ ts, ∃ n, s.session.natives[u]? = some n ∧
    s.engine.store.Knows n ∧ t.session.natives[u]? = some n ∧ t'.session.natives[u]? = some n := by
    intro ts hts u hu
    obtain ⟨n, -, node, recorded, -, found, -⟩ := coherent.node (known ts hts u hu)
    exact ⟨n, recorded, ⟨node, u.sort, found⟩, kept.extension.natives u n recorded,
      kept'.extension.natives u n recorded⟩
  have same := asserted.scopes_eq asserted' fun ts hts u hu => by
    obtain ⟨n, -, -, left, right⟩ := natives ts hts u hu
    exact right.trans left.symm
  have active : ∀ n ∈ t.engine.scopes.active ++ [], s.engine.store.Knows n := by
    intro n hn
    rw [List.append_nil, Scopes.mem_active] at hn
    obtain ⟨ns, hns, hn⟩ := List.mem_flatten.mp hn
    obtain ⟨ts, hts, renders⟩ := exists_of_forall₂ asserted.renders hns
    obtain ⟨u, hu, recorded⟩ := exists_of_forall₂ renders hn
    obtain ⟨m, -, knows, left, -⟩ := natives ts hts u hu
    cases recorded.symm.trans left
    exact knows
  refine checksAlike_of_search ?_
  rw [Enumerator.search, Enumerator.search, same, Search.run_extends kept.grows.store active,
    Search.run_extends kept'.grows.store active]

end Solver

end FormulaGraph

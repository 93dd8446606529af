import FormulaGraph.Proofs.Race.Answers
import FormulaGraph.Proofs.Solver.Solve

/-!
Races on the enumerating engine answer whether the query is satisfiable, whoever wins: a racer
decides rightly or abstains, and a racer that works decides every query within its reach unless the
race has been called off.
-/

namespace FormulaGraph

open Race

namespace Racer

/-- A racer on the enumerating engine. -/
def overEnumerator (name : String) (factory : Except Error Enumerator)
    (evicts : Eviction := .never) : Racer :=
  ofEngine (S := LogicSort) (T := Handle) name factory evicts

/-- The racer makes an engine of its own, of whatever settings. -/
def Works (r : Racer) : Prop :=
  ∃ name engine evicts, Enumerator.Unused engine ∧ r = overEnumerator name (.ok engine) evicts

/-- The racers that may take part: those that work, those that fail to make an engine, and those
that crash. -/
inductive Contests : Racer → Prop
  | works {r : Racer} (works : r.Works) : Contests r
  | fails (name : String) (e : Error) : Contests (overEnumerator name (.error e))
  | crashes (name : String) : Contests ⟨name, fun _ _ => .crashed⟩

variable {r : Racer} {q : Term} {token : CancelToken} {name : String}
    {engine : Enumerator} {evicts : Eviction}
  {isSat : Bool} {s : Solver Enumerator LogicSort Handle}

theorem run_overEnumerator (name : String) (engine : Enumerator) (evicts : Eviction) (q : Term)
    (token : CancelToken) : (overEnumerator name (.ok engine) evicts).run q token =
      match (Solver.solve q token).outcome (Solver.new engine (supplyAfter q) evicts) with
      | .ok verdict => Report.verdict verdict
      | .error e => reportOf e := rfl

theorem call_reportOf (e : Error) : (reportOf e).call = .abstain := by
  unfold reportOf
  split <;> rfl

theorem call_of_solved {verdict : Verdict} {d : Solver Enumerator LogicSort Handle}
    (solved : Solver.solve q token (Solver.new engine (supplyAfter q) evicts) = .ok verdict d) :
    ((overEnumerator name (.ok engine) evicts).run q token).call =
    (Report.verdict verdict).call := by
  rw [run_overEnumerator, Action.outcome_ok solved]

theorem solved_of_decide (decides : ((overEnumerator name (.ok engine) evicts).run q token).call =
      .decide isSat) :
    ∃ d, Solver.solve q token (Solver.new engine (supplyAfter q) evicts) =
      .ok (if isSat then .sat else .unsat) d := by
  cases solved : Solver.solve q token (Solver.new engine (supplyAfter q) evicts) with
  | ok verdict d =>
    rw [call_of_solved solved] at decides
    cases verdict <;> cases decides <;> exact ⟨d, rfl⟩
  | error e d =>
    rw [run_overEnumerator, Action.outcome_error solved] at decides
    cases (call_reportOf e).symm.trans decides

variable (source : s.Coherent Enumerator.contract) (order : s.Tidy) (hq : s.session.Has q)

include source order hq

/-- Whatever the token does, a racer that decides tells of the values of the query in its own
session. -/
theorem Contests.decides_right (contests : r.Contests)
    (decides : (r.run q token).call = .decide isSat) :
    (isSat = true → s.Satisfiable q) ∧ (isSat = false →
      ∀ env, s.engine.store.Admits env → s.valueUnder env q = .ok (.bool false)) := by
  cases contests with
  | works works =>
    obtain ⟨name, engine, evicts, unused, rfl⟩ := works
    obtain ⟨d, solved⟩ := solved_of_decide decides
    obtain ⟨sat, unsat⟩ := Solver.solve_sound source order hq unused solved
    exact ⟨fun yes => sat (by rw [yes]; rfl), fun no => unsat (by rw [no]; rfl)⟩
  | fails | crashes => cases decides

theorem Works.decides (works : r.Works) (truth : q.sort = .bool) (enumerable : Enumerable [q]) :
    (r.run q .idle).call ≠ .abstain := by
  obtain ⟨name, engine, evicts, unused, rfl⟩ := works
  obtain ⟨verdict, d, solved, decided⟩ :=
    Solver.solve_decides source order hq unused truth enumerable (supplyAfter q) evicts
  rw [call_of_solved solved]
  cases verdict with
  | sat | unsat =>
    intro abstains
    cases abstains
  | unknown => exact absurd rfl decided

end Racer

namespace Race

variable {s : Solver Enumerator LogicSort Handle} {issued : List Term} {q : Term}
  {racers : List Racer}

theorem valueUnder_other {text : String} {b : Bool} {env : Assignment}
    (source : s.Coherent Enumerator.contract) (hq : s.session.Has q)
    (kind : q.kind = .value (.other text)) : s.valueUnder env q ≠ .ok (.bool b) := by
  obtain ⟨n, ns, node, recorded, -, found, built⟩ := source.node hq
  rw [kind] at built
  obtain rfl := built.of_value
  rw [Solver.valueUnder_eq (source.canonical.numbered q hq) recorded, NodeStore.eval_of_find? found]
  intro valued
  cases valued

theorem valueUnder_slt_wide {c : Term} {b : Bool} {env : Assignment}
    (source : s.Coherent Enumerator.contract)
    (hc : s.session.Has c) (word : c.kind = .value (.bitVec 129 0)) (hq : s.session.Has q)
    (op : q.op = PrimOp.bvSlt) (kind : q.kind = .application) (children : q.children = [c, c]) :
    s.valueUnder env q ≠ .ok (.bool b) := by
  obtain ⟨m, _, node, recorded, -, found, built⟩ := source.node hc
  rw [word] at built
  obtain rfl := built.of_value
  have valued : s.valueUnder env c = .ok (.bitVec 129 0) := by
    rw [Solver.valueUnder_eq (source.canonical.numbered c hc) recorded,
      NodeStore.eval_of_find? found]
    rfl
  rw [Solver.valueUnder_application source hq kind children (.cons valued (.cons valued .nil)), op]
  intro compared
  cases compared

/-- In whatever order racers run, report and are called off: if the race answers, the answer tells
whether some well-sorted values of the symbols make the query true in its own session; and if a
racer works that can enumerate the query, the race comes to an end, and always answers. -/
theorem answer_right (history : Solver.Run Enumerator.Unused s issued) (hq : s.session.Has q)
    (contest : ∀ r ∈ racers, r.Contests) :
    (∀ isSat, Answers racers q (.ok isSat) → (isSat = true ↔ s.Satisfiable q)) ∧
      ((∃ r ∈ racers, r.Works) → q.sort = .bool → Enumerable [q] →
        (∀ result, Answers racers q result → ∃ isSat, result = .ok isSat) ∧
          ∀ moves stirs c, Reaches racers q moves stirs c →
            moves ≤ 9 * racers.length + 4 + 4 * stirs ∧
              ((∃ outcome, c.waiter = .finished outcome) ∨
                ∃ c', Move (fun i => (racers.get i).name) (Reports racers q) c c')) := by
  obtain ⟨source, order⟩ := history.settled
  refine ⟨fun isSat answers => ?_, fun ⟨r, hr, works⟩ truth enumerable => ⟨fun result answers => ?_,
    fun moves stirs c reaches => reaches.ends⟩⟩
  · obtain ⟨r, hr, token, decides⟩ := answers.given
    obtain ⟨yes, no⟩ := (contest r hr).decides_right source order hq decides
    refine ⟨yes, ?_⟩
    rintro ⟨env, admits, holds⟩
    cases isSat with
    | true => rfl
    | false => cases holds.symm.trans (no rfl env admits)
  · exact answers.decided truth hr (works.decides source order hq truth enumerable)

theorem undecided_of_valueless (history : Solver.Run Enumerator.Unused s issued)
    (hq : s.session.Has q)
    (truth : q.sort = .bool) (entered : racers ≠ []) (contest : ∀ r ∈ racers, r.Contests)
    (valueless : ∀ env b, s.valueUnder env q ≠ .ok (.bool b)) {result : Except Error Bool}
    (answers : Answers racers q result) : result = .error .undecided := by
  obtain ⟨source, order⟩ := history.settled
  obtain ⟨isSat, rfl⟩ | undecided := answers.ok_or_undecided entered truth
  · obtain ⟨r, hr, token, decides⟩ := answers.given
    obtain ⟨yes, no⟩ := (contest r hr).decides_right source order hq decides
    cases isSat with
    | true =>
      obtain ⟨env, -, holds⟩ := yes rfl
      exact absurd holds (valueless env true)
    | false => exact absurd (no rfl _ (NodeStore.admits_none _)) (valueless _ false)
  · exact undecided

/-- Two queries that no race decides, though the engine knows all operators and sorts in them, and
they have no symbols: a literal without a portable form, and a signed comparison of words that are
too wide. -/
theorem queries_undecided : ∃ (s : Solver Enumerator LogicSort Handle) (q c t : Term),
    Solver.Run Enumerator.Unused s [q, c, t] ∧
      (q.sort = .bool ∧ q.kind = .value (.other "x") ∧ q.children = []) ∧
      (c.sort = .bitVec 129 ∧ c.kind = .value (.bitVec 129 0) ∧ c.children = []) ∧
      (t.op = PrimOp.bvSlt ∧ t.sort = .bool ∧ t.kind = .application ∧ t.children = [c, c]) ∧
      (Racer.overEnumerator "a" (.ok (Enumerator.new "a"))).Works ∧
      ∀ u ∈ [q, t], s.session.Has u ∧
        run [.overEnumerator "a" (.ok (Enumerator.new "a"))] u = .error .undecided ∧
        ∀ result, Answers [.overEnumerator "a" (.ok (Enumerator.new "a"))] u result →
          result = .error .undecided := by
  have unused := Enumerator.unused_new "m"
  have new : Solver.Scene Enumerator.Unused (Solver.new (Enumerator.new "m") {}) [] [[]] :=
    .new unused unused {}
  obtain ⟨q, s₁, -, kept₁, hq, scene₁, -, literal⟩ :=
    new.literal (.other "x") .bool rfl rfl ⟨1, rfl⟩
  obtain ⟨c, s₂, -, kept₂, hc, scene₂, -, word⟩ :=
    scene₁.literal (.bitVec 129 0) (.bitVec 129) rfl rfl ⟨129, rfl⟩
  have known : ∀ a ∈ [c, c], s₂.session.Has a := by simp [hc]
  have derived : (PrimOp.bvSlt : Op).resultSort ([c, c].map Term.sort) = .ok (some .bool) := by
    rw [List.map_cons, List.map_singleton, word.1]
    rfl
  obtain ⟨t, s, -, kept₃, ht, scene, comparison⟩ := scene₂.application _ known derived
  have hq := kept₃.extension.has q (kept₂.extension.has q hq)
  have hc := kept₃.extension.has c hc
  have works : (Racer.overEnumerator "a" (.ok (Enumerator.new "a"))).Works :=
    ⟨"a", _, _, Enumerator.unused_new "a", rfl⟩
  have silent : ∀ u, s.session.Has u → u.sort = .bool →
    (∀ env b, s.valueUnder env u ≠ .ok (.bool b)) →
      ∀ result, Answers [.overEnumerator "a" (.ok (Enumerator.new "a"))] u result →
        result = .error .undecided :=
    fun u hu truth valueless _ =>
      undecided_of_valueless scene.history.run hu truth (List.cons_ne_nil _ _)
        (List.forall_mem_singleton.mpr (.works works)) valueless
  have first := silent q hq literal.1 fun _ _ => valueUnder_other scene.coherent hq literal.2.1
  have second := silent t ht comparison.2.1 fun _ _ =>
    valueUnder_slt_wide scene.coherent hc word.2.1 ht comparison.1 comparison.2.2.1 comparison.2.2.2
  refine ⟨s, q, c, t, scene.history.run, literal, word, comparison, works, ?_⟩
  simp only [List.forall_mem_cons]
  exact ⟨⟨hq, first _ (answers_run _ q), first⟩, ⟨ht, second _ (answers_run _ t), second⟩, nofun⟩

/-- The negation of a symbol can be satisfied, which the only racer that works finds out. -/
theorem answer_right_negation : ∃ (s : Solver Enumerator LogicSort Handle) (x t : Term),
    Solver.Run Enumerator.Unused s [x, t] ∧ x.kind = .symbol "x" ∧ t.op = PrimOp.not ∧
      t.children = [x] ∧ s.Satisfiable t ∧
      run [⟨"a", fun _ _ => .crashed⟩, .overEnumerator "b" (.error (.engine "b" "no license")),
        .overEnumerator "c" (.ok (Enumerator.new "c"))] t = .ok true := by
  obtain ⟨s, x, t, history, -, ⟨hx, sort, kind, leaf⟩, ht, op, sort', kind', children⟩ :=
    Solver.run_negation {}
  have enumerable : Enumerable [t] :=
    .of_negation ⟨sort, kind, leaf⟩ ⟨op, sort', kind', children⟩ (by simp)
  have contest : ∀ r ∈ [⟨"a", fun _ _ => .crashed⟩,
      Racer.overEnumerator "b" (.error (.engine "b" "no license")),
      .overEnumerator "c" (.ok (Enumerator.new "c"))], r.Contests := by
    simp only [List.forall_mem_cons]
    exact ⟨.crashes "a", .fails "b" _, .works ⟨"c", _, _, Enumerator.unused_new "c", rfl⟩,
      fun r hr => absurd hr List.not_mem_nil⟩
  obtain ⟨source, -⟩ := history.settled
  have satisfiable : s.Satisfiable t :=
    ⟨_, NodeStore.admits_none _, Solver.valueUnder_not source ht op kind' children
      (Solver.valueUnder_symbol_none source hx sort kind)⟩
  obtain ⟨right, decides⟩ := answer_right history ht contest
  obtain ⟨answers, -⟩ :=
    decides ⟨.overEnumerator "c" (.ok (Enumerator.new "c")), by simp, "c", _, _,
      Enumerator.unused_new "c", rfl⟩ sort' enumerable
  obtain ⟨isSat, ran⟩ := answers _ (answers_run _ t)
  have yes := (right isSat (ran ▸ answers_run _ t)).mpr satisfiable
  exact ⟨s, x, t, history, kind, op, children, satisfiable, yes ▸ ran⟩

end Race

end FormulaGraph

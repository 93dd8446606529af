import FormulaGraph.Proofs.Solver.Transfer
import FormulaGraph.Proofs.Solver.Valuation

/-!
Solving a query of another session on an enumerating engine of one's own. An answer tells whether
the query is satisfiable where it comes from, however often the search was disturbed; undisturbed,
there is an answer to every query within reach of enumeration.
-/

namespace FormulaGraph

namespace Solver

open FormulaGraph.Action

variable {e d d' : Solver Enumerator LogicSort Handle} {engine : Enumerator} {token : CancelToken}
  {verdict : Verdict} {t u : Term} {n : Handle}

theorem solve_ok (done : solve t token d = .ok verdict d') : ∃ u d₁ d₂, transfer t d = .ok u d₁ ∧
    assertFormula u d₁ = .ok () d₂ ∧ onEngine (Enumerator.check [] token) d₂ = .ok verdict d' := by
  obtain ⟨u, d₁, moved, rest⟩ := of_bind_ok done
  obtain ⟨⟨⟩, d₂, asserted, checked⟩ := of_bind_ok rest
  exact ⟨u, d₁, d₂, moved, asserted, checked⟩

theorem active_of_unused (unused : engine.Unused) {scopes : Scopes} (same : scopes = engine.scopes)
    (n : Handle) : (scopes.assert n).active ++ [] = [n] := by
  rw [same, unused.scopes]
  rfl

variable (source : e.Coherent Enumerator.contract) (order : e.Tidy) (ht : e.session.Has t)
  (unused : engine.Unused)

include source order ht unused

/-- A verdict tells of the values of the query in its own session, whatever the token does. -/
theorem solve_sound {supply : Supply} {evicts : Eviction}
    (done : solve t token (Solver.new engine supply evicts) = .ok verdict d') :
    (verdict = .sat → e.Satisfiable t) ∧ (verdict = .unsat →
      ∀ env, e.engine.store.Admits env → e.valueUnder env t = .ok (.bool false)) := by
  obtain ⟨fresh, tidy⟩ :=
    (Run.new unused supply evicts : Run _ (Solver.new engine supply evicts) []).settled
  obtain ⟨u, d₁, d₂, moved, asserted, checked⟩ := solve_ok done
  obtain ⟨kept, hu, shape⟩ := transfer_shape source order fresh ht moved
  have stays := ((frames_transfer tidy t).answer moved).1
  obtain ⟨x, refused⟩ | ⟨n, -, asked, accepted⟩ := assertFormula_cases u d₁
  · cases refused.symm.trans asserted
  · cases accepted.symm.trans asserted
    obtain ⟨number, recorded⟩ := Session.native_ok asked
    have active := active_of_unused unused stays.scopes n
    obtain ⟨found, -⟩ := ((leads_checkSat (stays.tidy.retains _).tidy token).answer checked).2
    refine ⟨?_, ?_⟩
    · rintro rfl
      obtain ⟨env, -, admits, holds⟩ := found.holds
      have truth := holds n (active ▸ List.mem_singleton_self n)
      have satisfiable : d₁.Satisfiable u :=
        ⟨env, admits, (valueUnder_eq number recorded).trans truth⟩
      exact satisfiable.carry kept.coherent source hu ht shape.symm
    · rintro rfl env admits
      obtain ⟨m, hm, fails⟩ := found.fails (admits_carried source admits d₁)
      obtain rfl := List.mem_singleton.mp (active ▸ hm)
      rw [← valueUnder_carried source kept.coherent ht hu shape, valueUnder_eq number recorded]
      exact fails

/-- Left alone, an engine decides every query within its reach. -/
theorem solve_decides (truth : t.sort = .bool) (enumerable : Enumerable [t]) (supply : Supply)
    (evicts : Eviction) :
    Succeeds (solve t .idle) (Solver.new engine supply evicts) fun verdict _ =>
      verdict ≠ .unknown := by
  obtain ⟨fresh, tidy⟩ :=
    (Run.new unused supply evicts : Run _ (Solver.new engine supply evicts) []).settled
  have welcomes : ∀ a, a.OccursIn t →
    (Solver.new engine supply evicts).Welcomes a := fun a occurs => by
    obtain ⟨bits, counted, -⟩ := (enumerable.nodes t List.mem_cons_self a occurs).sort
    exact .inr ⟨⟨bits, counted⟩, by simp [Solver.new]⟩
  obtain ⟨u, d₁, moved, kept, -, ⟨hu, shape⟩, -⟩ :=
    transfer_succeeds source order fresh tidy ht welcomes
  have stays := ((frames_transfer tidy t).answer moved).1
  have sort : u.sort = .bool := (Term.shape_eq_iff.mp shape).2.1.trans truth
  obtain ⟨n, asked, accepted⟩ := assertFormula_succeeds kept.coherent hu sort
  have each : ∀ m ∈ [n], ∃ v ∈ [u], (d₁.session.Has v ∧ v.sort = .bool) ∧
      d₁.session.natives[v]? = some m := by
    simp [hu, sort, (Session.native_ok asked).2]
  obtain ⟨finding, searched⟩ := search_succeeds kept.coherent (enumerable.of_shape shape) each .idle
  have searched' : { d₁.engine with scopes := d₁.engine.scopes.assert n }.search [] .idle =
      .ok finding := by
    rw [Enumerator.search, active_of_unused unused stays.scopes n]
    exact searched
  obtain ⟨verdict, engine', checked, -⟩ := Enumerator.check_succeeds searched'
  have called : (onEngine (Engine.checkSatInterruptible .idle) : Action _ Verdict) _ =
      .ok verdict ⟨engine', d₁.session⟩ := onEngine_ok checked d₁.session
  refine ⟨verdict, ⟨engine', d₁.session⟩, ?_, ?_⟩
  · rw [solve, bind_ok moved, bind_ok accepted, called]
  · exact ((Enumerator.leads_check _ _ _).answer checked).2.decides

end Solver

end FormulaGraph

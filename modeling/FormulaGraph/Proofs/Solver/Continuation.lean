import FormulaGraph.Proofs.Solver.Run

/-!
What may happen to a solver within a session: any steps in which the terms of the session are used,
and none of which ends it.
-/

namespace FormulaGraph.Solver

variable {σ S T : Type} [BEq T] [Hashable T] [Engine σ S T] {K : Contract σ S T} {start : σ → Prop}
  {s s' s'' : Solver σ S T}

/-- The solver has advanced any number of steps in its session, each on any terms of the session. -/
inductive Continues (s : Solver σ S T) : Solver σ S T → Prop
  | rest : Continues s s
  | next {s' s'' : Solver σ S T} {issued issued' : List Term} (before : Continues s s')
      (known : ∀ u ∈ issued, s'.session.Has u) (step : Advance s' issued s'' issued')
      (lasts : s''.session.number = s'.session.number) : Continues s s''

namespace Continues

theorem trans (first : Continues s s') (second : Continues s' s'') : Continues s s'' := by
  induction second with
  | rest => exact first
  | next _ known step lasts ih => exact ih.next known step lasts

theorem of_answer {q : Request} (known : ∀ t ∈ q.terms, s.session.Has t)
    {answer : Answer LogicSort Term} (done : q.perform s = .ok answer s')
    (lasts : s'.session.number = s.session.number) : Continues s s' :=
  rest.next known (.answered q (fun t ht _ below _ => ⟨t, ht, below⟩) done) lasts

theorem coherent [EquivBEq T] [LawfulHashable T] (honoured : K.Honoured start)
    (continues : Continues s s')
    (coherent : s.Coherent K) : s'.Coherent K ∧ s.session.Extends s'.session := by
  induction continues with
  | rest => exact ⟨coherent, .refl _⟩
  | next _ known step lasts ih =>
    obtain ⟨coherent', extension⟩ := ih
    have genuine := fun u hu => coherent'.canonical.toInterned.genuine (known u hu)
    obtain ⟨coherent'', -, extended⟩ := step.coherent honoured coherent' genuine
    exact ⟨coherent'', extension.trans (extended lasts)⟩

end Continues

end FormulaGraph.Solver

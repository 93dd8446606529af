import FormulaGraph.Proofs.Solver.Conduct

/-!
Every operation of a solver goes through changes of the known kinds, and so does every request and
every run. So what a new solver has and each change keeps holds of whatever a run reaches.
-/

namespace FormulaGraph.Solver

open FormulaGraph.Action

variable {σ S T α : Type} [BEq T] [Hashable T] [Engine σ S T] {s s' : Solver σ S T}

/-- The action goes through changes, from wherever it starts and however it ends. -/
def Evolves (act : Action (Solver σ S T) α) : Prop := ∀ s, Changes s (act.finalState s)

omit [Engine σ S T] in
theorem Quiet.changes {act : Action (Solver σ S T) α} {post : α → Solver σ S T → Prop}
    (quiet : Quiet act s post) : Changes s (act.finalState s) :=
  QuietChanges.changes (leads_iff_finalState.mp (quiet.mono fun _ _ _ _ => trivial))

instance : Permissive (Changes : Solver σ S T → Solver σ S T → Prop) where
  called _ s := (quiet_onEngine _ s).changes
  nativeSort sort s := (quiet_nativeSort sort s).changes
  changed change _ _ _ := .single change

section Runs

theorem evolves_onEngine (act : Action σ α) : Evolves (onEngine act : Action (Solver σ S T) α) :=
  fun s => (quiet_onEngine act s).changes

theorem evolves_perform (q : Request) :
    Evolves (q.perform : Action (Solver σ S T) (Answer LogicSort Term)) :=
  abides_perform_every (fun s assumptions => .single (.assumed s assumptions)) evolves_onEngine
    (fun s => .single (.renewed s)) q

theorem Advance.changes {issued issued' : List Term} (step : Advance s issued s' issued') :
    Changes s s' := by
  cases step with
  | answered q _ done => exact finalState_ok done ▸ evolves_perform q s
  | failed q _ done => exact finalState_error done ▸ evolves_perform q s
  | reported => exact .single (.quiet (.called s s.engine #[]))
  | elsewhere => exact .single (.drawn s _)

omit [Engine σ S T] in
theorem Changes.keep {I : Solver σ S T → Prop} (keeps : ∀ s s', Change s s' → I s → I s')
    (changes : Changes s s') (holds : I s) : I s' := by
  induction changes with
  | refl => exact holds
  | tail _ change held => exact keeps _ _ change held

/-- What every new solver has, and every change keeps, holds wherever a run leads. -/
theorem Run.invariant {I : Solver σ S T → Prop}
    (initial : ∀ e supply evicts, I (Solver.new e supply evicts))
    (keeps : ∀ s s', Change s s' → I s → I s') {start : σ → Prop} {issued : List Term}
    (run : Run start s issued) : I s := by
  induction run with
  | new _ supply evicts => exact initial _ supply evicts
  | next _ step ih => exact Changes.keep keeps step.changes ih

end Runs

end FormulaGraph.Solver

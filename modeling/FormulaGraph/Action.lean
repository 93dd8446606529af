import FormulaGraph.Error

/-!
Actions: changes of a state that may fail. A failed action keeps what it changed before it
failed.
-/

namespace FormulaGraph

/-- An action on states `σ` that gives an `α` if it succeeds. -/
abbrev Action (σ α : Type) := EStateM Error σ α

namespace Action

/-- A result that does not touch the state. -/
def ofExcept {σ α : Type} (r : Except Error α) : Action σ α :=
  match r with
  | .ok a => pure a
  | .error e => throw e

/-- The state that an action leaves, whether it succeeds or not. -/
def finalState {σ α : Type} (act : Action σ α) (s : σ) : σ :=
  match act s with
  | .ok _ s | .error _ s => s

/-- What an action answers. -/
def outcome {σ α : Type} (act : Action σ α) (s : σ) : Except Error α :=
  match act s with
  | .ok a _ => .ok a
  | .error e _ => .error e

end Action

end FormulaGraph

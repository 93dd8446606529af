import FormulaGraph.Rewrite.Substitution

/-!
Moving terms from one session to another.

Symbols are matched by name, and declared where they are missing along with the uninterpreted sorts
they use; values and applications are made anew.
-/

namespace FormulaGraph.Solver

variable {σ S T : Type} [BEq T] [Hashable T] [Engine σ S T]

mutual
/-- Declares the uninterpreted sorts in a sort, the last component first. A datatype has to be there
already. -/
def declareSorts (sort : LogicSort) : Action (Solver σ S T) Unit := do
  match sort with
  | .uninterpreted name arity =>
    if !(← get).session.hasSort (.uninterpreted name arity) then
      discard (makeUninterpretedSort name arity)
  | .datatype name =>
    let s ← get
    if !s.session.hasSort (.datatype name) then
      throw (.unsupported (.datatypeToDeclare name (Engine.name s.engine)))
  | .array index element =>
    declareSorts element
    declareSorts index
  | .function domain range =>
    declareSorts range
    declareAll domain
  | .bool | .int | .real | .bitVec _ | .param _ | .unresolved _ => return
def declareAll : List LogicSort → Action (Solver σ S T) Unit
  | [] => return
  | sort :: rest => do
    declareAll rest
    declareSorts sort
end

/-- The symbol of this name and sort. -/
def matchSymbol (name : String) (sort : LogicSort) : Action (Solver σ S T) Term := do
  match (← get).session.symbols[name]? with
  | some known =>
    Action.ofExcept (known.sort.expectSame sort)
    return known
  | none =>
    declareSorts sort
    makeSymbol name sort

/-- The counterpart of a term whose children have been moved already. -/
def translate (t : Term) (children : List Term) : Action (Solver σ S T) Term :=
  match t.kind, children with
  | .symbol name, _ => matchSymbol name t.sort
  | .value l, _ => makeValue l t.sort
  | .constArray, fill :: _ => makeConstArray fill t.sort
  | .constArray, [] => throw (.internal (.missingArgument t.op 0))
  | .application, _ => makeTerm t.op children

def translator : Rewriter (Solver σ S T) where
  iterable _ := true
  visit t children := .replace <$> translate t children
  rebuild := makeTerm

/-- The counterpart of a term in this solver's session. -/
def transfer (t : Term) : Action (Solver σ S T) Term := do
  return (← walkWith translator { clears := true } t).2

/-- Asserts the counterpart of a query and checks it. -/
def solve (query : Term) (token : CancelToken) : Action (Solver σ S T) Verdict := do
  let query ← transfer query
  assertFormula query
  onEngine (Engine.checkSatInterruptible token)

end FormulaGraph.Solver

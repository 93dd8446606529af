import FormulaGraph.Solver.Build

/-!
Asserting, checking and reading models in a solver.

An assumption is a symbol of sort Bool or the negation of one. Values of a model are canonical
literals; an array is a constant array overwritten by the cells that differ from it.
-/

namespace FormulaGraph.Solver

variable {σ S T : Type} [BEq T] [Hashable T] [Engine σ S T]

def assertFormula (t : Term) : Action (Solver σ S T) Unit := do
  Action.ofExcept t.sort.expectBool
  let native ← native t
  onEngine (Engine.assertFormula native)

def expectBooleanLiteral (t : Term) : Except Error Unit :=
  let atom := match t.op.prim, t.children with
    | .not, child :: _ => child
    | _, _ => t
  if t.sort.isBool && atom.isSymbol then .ok () else .error (.usage (.notABooleanLiteral t))

/-- Remembers which assumption each of the engine's terms stands for. -/
def rememberAssumptions (ns : List T) (ts : List Term) (s : Session S T) : Session S T :=
  let s := { s with
    assumptions := (ns.zip ts).foldl (fun known (n, t) => known.insert n t) {} }
  s.note (.assumptionsHeld s.assumptions.size)

def checkSatAssuming (assumptions : List Term) : Action (Solver σ S T) Verdict := do
  Action.ofExcept (assumptions.forM expectBooleanLiteral)
  let ns ← natives assumptions
  record (rememberAssumptions ns assumptions)
  onEngine (Engine.checkSatAssuming ns)

/-- The base of an array model; an engine may leave it out, but may not give an array for it. -/
def wrapBase (base : Option T) (element : LogicSort) : Action (Solver σ S T) (Option Term) := do
  match base with
  | none => return none
  | some b =>
    if (← onEngine (Engine.sortOf b)).isArray then throw (.unsupported .nestedConstantBase)
    return some (← wrapValue b element)

def getArrayValues (t : Term) : Action (Solver σ S T) (ArrayModel Term) := do
  let (index, element) ← Action.ofExcept t.sort.expectArray
  let native ← native t
  let raw ← onEngine (Engine.getArrayValues native)
  let base ← wrapBase raw.base element
  let cells ← raw.cells.mapM fun (i, x) => do
    let i ← wrapValue i index
    return (i, ← wrapValue x element)
  return ⟨base, cells⟩

/-- The value of an array, as a chain of stores over a constant array. -/
def getArray (t : Term) : Action (Solver σ S T) Term := do
  let m ← getArrayValues t
  match m.base with
  | none => throw (.internal (.noConstantBase (Engine.name (← get).engine) t))
  | some base =>
    let start ← makeConstArray base t.sort
    m.cells.foldlM (fun array (i, x) => makeTerm PrimOp.store [array, i, x]) start

def getValue (t : Term) : Action (Solver σ S T) Term := do
  if t.sort.isArray then getArray t
  else
    let native ← native t
    let value ← onEngine (Engine.getValue native)
    wrapValue value t.sort

def getUnsatCore : Action (Solver σ S T) (List Term) := do
  let core ← onEngine Engine.getUnsatCore
  let describe := Engine.describe (← get).engine
  ask fun s => core.mapM (s.assumption describe)

/-- Ends the session and starts the next, unless the engine refuses. -/
def reset : Action (Solver σ S T) Unit := do
  onEngine Engine.reset
  record Session.renew

def resetAssertions : Action (Solver σ S T) Unit := do
  record fun s => { s with assumptions := {} }
  onEngine Engine.resetAssertions

/-- A solver is an engine in turn, with sorts and terms of its own graph. -/
instance : Engine (Solver σ S T) LogicSort Term where
  name s := Engine.name s.engine
  capabilities s := (Engine.capabilities s.engine).insert .logging |>.insert .termIteration
  setOption option value := onEngine (Engine.setOption option value)
  setLogic logic := onEngine (Engine.setLogic logic)
  makeSort := makeSort
  makeBitVecSort := makeBitVecSort
  makeArraySort := makeArraySort
  makeFunctionSort := makeFunctionSort
  makeUninterpretedSort := makeUninterpretedSort
  makeDatatypeSort := makeDatatypeSort
  makeValue := makeValue
  makeConstArray := makeConstArray
  makeSymbol := makeSymbol
  makeTerm := makeTerm
  sortOf t := return t.sort
  opOf t := return t.op
  children t := return t.children
  literal _ t := t.literal?
  assertFormula := assertFormula
  checkSat := onEngine Engine.checkSat
  checkSatAssuming := checkSatAssuming
  checkSatInterruptible token := onEngine (Engine.checkSatInterruptible token)
  getValue := getValue
  getArrayValues := getArrayValues
  getUnsatCore := getUnsatCore
  push levels := onEngine (Engine.push levels)
  pop levels := onEngine (Engine.pop levels)
  reset := reset
  resetAssertions := resetAssertions
  describe _ t := t.render
  takeNotices := fun ⟨engine, session⟩ =>
    (session.notices, ⟨engine, { session with notices := #[] }⟩)

end FormulaGraph.Solver

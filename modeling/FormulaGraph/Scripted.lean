import FormulaGraph.Engine
import FormulaGraph.Op.ResultSort

/-!
A scripted engine: it decides nothing, answers what its script says, and keeps a record of the calls
it received. What is built on engines can so be watched, and be confronted with any report and any
failure.

Its terms count the nodes that were ever added; nothing is removed. `MinimalEngine` is the same
engine with no more than an engine must have.
-/

namespace FormulaGraph

/-- A term of a scripted engine, by the position of its node. -/
structure ScriptedTerm where
  index : Nat
  deriving DecidableEq, Inhabited

instance : Hashable ScriptedTerm := ⟨fun t => hash t.index⟩

/-- What a scripted engine answers. -/
structure Script where
  name : String
  capabilities : Capabilities := ⟨0⟩
  verdict : Verdict := .sat
  /-- The sorts to report for applications, by the text of the operator. -/
  reports : List (String × LogicSort) := []
  /-- Whether values tell their literal. -/
  literals : Bool := true
  /-- The value of every term. -/
  answer : Option (Literal × LogicSort) := none
  base : Option (Literal × LogicSort) := none
  cells : List ((Literal × LogicSort) × (Literal × LogicSort)) := []
  core : List Nat := []
  /-- The operations that fail, with the text of the failure. -/
  failures : List (String × String) := []

structure ScriptedEngine where
  script : Script
  nodes : Array (LogicSort × Option Literal) := #[]
  calls : Array String := #[]

namespace ScriptedEngine

/-- How a call is recorded: the operation, and after a blank its arguments, if they have any
text. -/
def callText (operation : String) (arguments : List String) : String :=
  let text := " ".intercalate arguments
  if text.isEmpty then operation else operation ++ " " ++ text

/-- Records a call; it fails if the script says so. -/
def call (operation : String) (arguments : List String) : Action ScriptedEngine Unit := do
  modify fun e => { e with calls := e.calls.push (callText operation arguments) }
  let script := (← get).script
  match script.failures.lookup operation with
  | some text => throw (.engine script.name text)
  | none => return

def add (sort : LogicSort) (l : Option Literal) : Action ScriptedEngine ScriptedTerm := fun e =>
  .ok ⟨e.nodes.size⟩ { e with nodes := e.nodes.push (sort, l) }

/-- Adds a node for a value of the script. -/
def addValue (v : Literal × LogicSort) : Action ScriptedEngine ScriptedTerm := add v.2 (some v.1)

def node (t : ScriptedTerm) : Action ScriptedEngine (LogicSort × Option Literal) := do
  match (← get).nodes[t.index]? with
  | some n => return n
  | none => throw (.usage (.unknownHandle t.index))

def termList (ts : List ScriptedTerm) : String :=
  "[" ++ " ".intercalate (ts.map fun t => toString t.index) ++ "]"

/-- The sort of an application: what the script reports, else what the arguments give, else Bool. -/
def applicationSort (op : Op) (args : List ScriptedTerm) : Action ScriptedEngine LogicSort := do
  match (← get).script.reports.lookup op.text with
  | some sort => return sort
  | none =>
    let sorts ← args.mapM fun a => do return (← node a).1
    return (← Action.ofExcept (op.resultSort sorts)).getD .bool

def makeSort (kind : SortKind) : Action ScriptedEngine LogicSort := do
  call "make_sort" [kind.name]
  match kind with
  | .bool => return .bool
  | .int => return .int
  | _ => return .real

def makeTerm (op : Op) (args : List ScriptedTerm) : Action ScriptedEngine ScriptedTerm := do
  call "make_term" [op.text, termList args]
  add (← applicationSort op args) none

def sortOf (t : ScriptedTerm) : Action ScriptedEngine LogicSort := do
  call "sort_of" [toString t.index]
  return (← node t).1

def literal (e : ScriptedEngine) (t : ScriptedTerm) : Option Literal :=
  if e.script.literals then e.nodes[t.index]?.bind Prod.snd else none

def getValue (t : ScriptedTerm) : Action ScriptedEngine ScriptedTerm := do
  call "get_value" [toString t.index]
  match (← get).script.answer with
  | some v => addValue v
  | none => add (← node t).1 none

def getArrayValues (t : ScriptedTerm) : Action ScriptedEngine (ArrayModel ScriptedTerm) := do
  call "get_array_values" [toString t.index]
  let script := (← get).script
  let base ← script.base.mapM addValue
  let cells ← script.cells.mapM fun (i, x) => do
    let i ← addValue i
    return (i, ← addValue x)
  return ⟨base, cells⟩

/-- A check answers the verdict of the script. -/
def check (operation : String) (arguments : List String) : Action ScriptedEngine Verdict := do
  call operation arguments
  return (← get).script.verdict

instance : Engine ScriptedEngine LogicSort ScriptedTerm where
  name e := e.script.name
  capabilities e := e.script.capabilities
  setOption option value := call "set_opt" [option, value]
  setLogic logic := call "set_logic" [logic]
  makeSort := makeSort
  makeBitVecSort width := do
    call "make_bv_sort" [toString width]
    return .bitVec width
  makeArraySort index element := do
    call "make_array_sort" [index.text, element.text]
    return .array index element
  makeFunctionSort domain range := do
    call "make_function_sort" [(LogicSort.function domain range).text]
    return .function domain range
  makeUninterpretedSort name arity := do
    call "make_uninterpreted_sort" [name, toString arity]
    return .uninterpreted name arity
  makeDatatypeSort decl := do
    call "make_datatype_sort" [decl.name]
    return .datatype decl.name
  makeValue l sort := do
    call "make_value" [l.text, sort.text]
    addValue (l, sort)
  makeConstArray fill sort := do
    call "make_const_array" [toString fill.index, sort.text]
    add sort none
  makeSymbol name sort := do
    call "make_symbol" [name, sort.text]
    add sort none
  makeTerm := makeTerm
  sortOf := sortOf
  opOf _ := return .null
  children _ := return []
  literal := literal
  assertFormula t := call "assert_formula" [toString t.index]
  checkSat := check "check_sat" []
  checkSatAssuming assumptions := check "check_sat_assuming" [termList assumptions]
  checkSatInterruptible token := do
    let verdict ← check "check_sat_interruptible" []
    return if token.atPoll 0 then .unknown else verdict
  getValue := getValue
  getArrayValues := getArrayValues
  getUnsatCore := do
    call "get_unsat_core" []
    return (← get).script.core.map ScriptedTerm.mk
  push levels := call "push" [toString levels]
  pop levels := call "pop" [toString levels]
  reset := call "reset" []
  resetAssertions := call "reset_assertions" []
  describe _ t := s!"BareTerm({t.index})"

end ScriptedEngine

/-- A scripted engine that has no more than an engine must have. -/
structure MinimalEngine where
  full : ScriptedEngine

namespace MinimalEngine

def onFull {α : Type} (act : Action ScriptedEngine α) : Action MinimalEngine α := fun ⟨full⟩ =>
  match act full with
  | .ok a full => .ok a ⟨full⟩
  | .error e full => .error e ⟨full⟩

instance : Engine MinimalEngine LogicSort ScriptedTerm where
  name e := Engine.name e.full
  capabilities e := Engine.capabilities e.full
  setOption option value := onFull (Engine.setOption option value)
  setLogic logic := onFull (Engine.setLogic logic)
  makeSort kind := onFull (Engine.makeSort kind)
  makeBitVecSort width := onFull (Engine.makeBitVecSort width)
  makeArraySort index element := onFull (Engine.makeArraySort index element)
  makeFunctionSort domain range := onFull (Engine.makeFunctionSort domain range)
  makeUninterpretedSort name arity := onFull (Engine.makeUninterpretedSort name arity)
  makeValue l sort := onFull (Engine.makeValue l sort)
  makeConstArray fill sort := onFull (Engine.makeConstArray fill sort)
  makeSymbol name sort := onFull (Engine.makeSymbol name sort)
  makeTerm op args := onFull (Engine.makeTerm op args)
  sortOf t := onFull (Engine.sortOf t)
  opOf t := onFull (Engine.opOf t)
  literal e t := Engine.literal e.full t
  assertFormula t := onFull (Engine.assertFormula t)
  checkSat := onFull Engine.checkSat
  checkSatAssuming assumptions := onFull (Engine.checkSatAssuming assumptions)
  getValue t := onFull (Engine.getValue t)
  getUnsatCore := onFull Engine.getUnsatCore
  push levels := onFull (Engine.push levels)
  pop levels := onFull (Engine.pop levels)
  reset := onFull Engine.reset
  resetAssertions := onFull Engine.resetAssertions
  describe e t := Engine.describe e.full t

end MinimalEngine

end FormulaGraph

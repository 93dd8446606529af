import FormulaGraph.Enumeration.Scopes
import FormulaGraph.Enumeration.Search
import FormulaGraph.Op.ResultSort

/-!
The enumerating engine: a complete solver for queries over a few bits.

It decides a query by trying every assignment, produces models, array models and minimal
unsatisfiable cores, and heeds a cancel token. Three settings make it a demanding partner for what
is built on top: it may report truth values as one-bit vectors, may stall before every check, and
may give faulty answers, which are array models without a base and cores with a term that was never
assumed.
-/

namespace FormulaGraph

structure Enumerator where
  name : String
  capabilities : Capabilities
  /-- For how many milliseconds a check stalls. -/
  delay : Nat := 0
  faulty : Bool := false
  store : NodeStore := .empty
  symbols : Std.HashMap String Handle := {}
  scopes : Scopes := {}
  model : Option Assignment := none
  core : List Handle := []
  options : Std.HashMap String String := {}

namespace Enumerator

/-- What the engine can do, whatever its settings. -/
def baseCapabilities : Capabilities :=
  .ofList [.termIteration, .arrayModels, .constantArrays, .booleanRanges, .unsatCores, .datatypes,
    .interruption]

def new (name : String) : Enumerator := { name, capabilities := baseCapabilities }

/-- Reports truth values as one-bit vectors. -/
def withAliasing (e : Enumerator) : Enumerator :=
  { e with capabilities := e.capabilities.insert .booleanAliasing }

def withDelay (milliseconds : Nat) (e : Enumerator) : Enumerator :=
  { e with delay := milliseconds }

def withFaultyAnswers (e : Enumerator) : Enumerator := { e with faulty := true }

def aliasing (e : Enumerator) : Bool := e.capabilities.has .booleanAliasing

/-- Adds a node whose operands are there already. -/
def addNode (node : Node) (sort : LogicSort) (e : Enumerator)
    (known : ∀ c ∈ node.operands, c.index < e.store.size) : Handle × Enumerator :=
  let (t, store) := e.store.push node sort known
  (t, { e with store })

def addValue (l : Literal) (sort : LogicSort) : Action Enumerator Handle := fun e =>
  let (t, e) := e.addNode (.value l) sort (by simp [Node.operands])
  .ok t e

/-- Adds a node for an element of a sort; arrays have no such node. -/
def addDatum (sort : LogicSort) : Datum → Action Enumerator Handle
  | .bool b => addValue (.bool b) sort
  | .bitVec w bits => addValue (.ofBits w bits) sort
  | .array _ => throw (.unsupported .arrayAsValue)

def makeConstArray (fill : Handle) (sort : LogicSort) : Action Enumerator Handle := fun e =>
  if h : fill.index < e.store.size then
    let (t, e) := e.addNode (.constArray fill) sort (by simpa [Node.operands] using h)
    .ok t e
  else .error (.usage (.unknownHandle fill.index)) e

/-- Symbols of one name cannot be told apart, so there is one of each. -/
def makeSymbol (name : String) (sort : LogicSort) : Action Enumerator Handle := fun e =>
  if e.symbols.contains name then .error (.duplicate .symbol name) e
  else
    let (t, e) := e.addNode (.symbol name) sort (by simp [Node.operands])
    .ok t { e with symbols := e.symbols.insert name t }

/-- The sort of an application; the engine builds none whose sort the arguments leave open. -/
def applicationSort (op : Op) (sorts : List LogicSort) : Except Error LogicSort := do
  match ← op.resultSort sorts with
  | some sort => return sort
  | none => throw (.unsupported (.opNotBuilt op))

def makeTerm (op : Op) (args : List Handle) : Action Enumerator Handle := fun e =>
  if h : ∀ a ∈ args, a.index < e.store.size then
    match (args.mapM e.store.find).bind fun found => applicationSort op (found.map Prod.snd) with
    | .ok sort =>
      let (t, e) := e.addNode (.application op args) sort (by simpa [Node.operands] using h)
      .ok t e
    | .error err => .error err e
  else
    let unknown := args.find? fun a => e.store.size ≤ a.index
    .error (.usage (.unknownHandle (unknown.getD default).index)) e

/-- What is known of a term. -/
def lookUp (t : Handle) : Action Enumerator (Node × LogicSort) := do
  Action.ofExcept ((← get).store.find t)

def sortOf (t : Handle) : Action Enumerator LogicSort := do
  let (_, sort) ← lookUp t
  return if sort.isBool && (← get).aliasing then .bitVec 1 else sort

def opOf (t : Handle) : Action Enumerator Op := do
  match ← lookUp t with
  | (.application op _, _) => return op
  | _ => return .null

def children (t : Handle) : Action Enumerator (List Handle) := do
  let (node, _) ← lookUp t
  return node.operands

def literal (e : Enumerator) (t : Handle) : Option Literal :=
  match e.store.find? t with
  | some (.value (.bool b), _) =>
    if e.aliasing then some (.ofBits 1 (if b then 1 else 0)) else some (.bool b)
  | some (.value l, _) => some l
  | _ => none

def assertFormula (t : Handle) : Action Enumerator Unit := do
  discard (lookUp t)
  modify fun e => { e with scopes := e.scopes.assert t }

/-- Searches for a model of the active assertions and some more formulas. -/
def search (e : Enumerator) (extra : List Handle) (token : CancelToken) :
    Except Error Search.Finding :=
  Search.run e.store (e.scopes.active ++ extra) token

/-- Forgets what the last check found. -/
def forget (e : Enumerator) : Enumerator := { e with model := none, core := [] }

def check (extra : List Handle) (token : CancelToken) : Action Enumerator Verdict := do
  modify forget
  let e ← get
  if 0 < e.delay && token.whileStalled then return .unknown
  match ← Action.ofExcept (e.search extra token) with
  | .model env =>
    modify fun e => { e with model := some env }
    return .sat
  | .noModel => return .unsat
  | .cutShort => return .unknown

/-- Whether the active assertions and some more formulas have no model. -/
def isUnsat (e : Enumerator) (extra : List Handle) : Except Error Bool := do
  match ← e.search extra .idle with
  | .noModel => return true
  | .model _ | .cutShort => return false

def checkSatAssuming (assumptions : List Handle) : Action Enumerator Verdict := do
  let verdict ← check assumptions .idle
  if verdict.isUnsat then
    let core ← Action.ofExcept (Search.shrink (← get).isUnsat [] assumptions)
    modify fun e => { e with core }
  return verdict

/-- The value of a term in the model, and its sort. -/
def valueInModel (t : Handle) : Action Enumerator (Datum × LogicSort) := do
  let e ← get
  match e.model with
  | none => throw (.usage .noModel)
  | some env =>
    let value ← Action.ofExcept (e.store.eval env t)
    let (_, sort) ← lookUp t
    return (value, sort)

def getValue (t : Handle) : Action Enumerator Handle := do
  let (value, sort) ← valueInModel t
  addDatum sort value

/-- Adds nodes for the cells that differ from the base, counted from a position. -/
def addCells (index element : LogicSort) (width : UInt64) (base : Datum) :
    Nat → List Datum → Action Enumerator (List (Handle × Handle))
  | _, [] => return []
  | i, x :: xs => do
    if x = base then addCells index element width base (i + 1) xs
    else
      let position ← addDatum index (.ofBits width (BitVec.ofNat 128 i))
      let cell ← addDatum element x
      return (position, cell) :: (← addCells index element width base (i + 1) xs)

/-- The first cell is the base; those that differ from it follow in the order of the index. -/
def getArrayValues (t : Handle) : Action Enumerator (ArrayModel Handle) := do
  let (value, sort) ← valueInModel t
  let (index, element) ← Action.ofExcept sort.expectArray
  let width ← Action.ofExcept index.expectBitVec
  match ← Action.ofExcept value.asCells with
  | [] => throw (.internal .cellOutOfRange)
  | first :: rest =>
    let base ← addDatum element first
    let cells ← addCells index element width first 1 rest
    return ⟨if (← get).faulty then none else some base, cells⟩

def getUnsatCore : Action Enumerator (List Handle) := do
  let e ← get
  if e.faulty then return e.core ++ [← addValue (.bool false) .bool]
  else return e.core

def push (levels : UInt64) : Action Enumerator Unit :=
  modify fun e => { e with scopes := e.scopes.push levels.toNat }

def pop (levels : UInt64) : Action Enumerator Unit := fun e =>
  match e.scopes.pop? levels.toNat with
  | some scopes => .ok () { e with scopes }
  | none => .error (.usage (.tooFewScopes levels)) e

/-- The settings stay, and so do the options. -/
def reset (e : Enumerator) : Enumerator :=
  { name := e.name, capabilities := e.capabilities, delay := e.delay, faulty := e.faulty,
    options := e.options }

def resetAssertions (e : Enumerator) : Enumerator := { e.forget with scopes := {} }

def setOption (option value : String) : Action Enumerator Unit :=
  modify fun e => { e with options := e.options.insert option value }

instance : Engine Enumerator LogicSort Handle where
  name := name
  capabilities := capabilities
  setOption := setOption
  setLogic := setOption "logic"
  makeSort
    | .bool => return .bool
    | .int => return .int
    | .real => return .real
    | kind => throw (.usage (.bareKind kind))
  makeBitVecSort width := return .bitVec width
  makeArraySort index element := return .array index element
  makeFunctionSort domain range := return .function domain range
  makeUninterpretedSort name arity := return .uninterpreted name arity
  makeDatatypeSort decl := return .datatype decl.name
  makeValue := addValue
  makeConstArray := makeConstArray
  makeSymbol := makeSymbol
  makeTerm := makeTerm
  sortOf := sortOf
  opOf := opOf
  children := children
  literal := literal
  assertFormula := assertFormula
  checkSat := check [] .idle
  checkSatAssuming := checkSatAssuming
  checkSatInterruptible := check []
  getValue := getValue
  getArrayValues := getArrayValues
  getUnsatCore := getUnsatCore
  push := push
  pop := pop
  reset := modify reset
  resetAssertions := modify resetAssertions
  describe _ t := s!"MockTerm({t.index})"

end Enumerator

end FormulaGraph

import FormulaGraph.Literal.Normal
import FormulaGraph.Literal.Parse
import FormulaGraph.Solver

/-!
Making sorts and terms in a solver.
-/

namespace FormulaGraph.Solver

variable {σ S T : Type} [BEq T] [Hashable T] [Engine σ S T]

/-- A sort whose engine's sort is made on the way. -/
def withNative (sort : LogicSort) : Action (Solver σ S T) LogicSort := do
  discard (nativeSort sort)
  return sort

def makeSort (kind : SortKind) : Action (Solver σ S T) LogicSort :=
  match kind with
  | .bool => withNative .bool
  | .int => withNative .int
  | .real => withNative .real
  | kind => throw (.usage (.bareKind kind))

def makeBitVecSort (width : UInt64) : Action (Solver σ S T) LogicSort :=
  if width = 0 then throw (.usage .zeroWidth) else withNative (.bitVec width)

def makeArraySort (index element : LogicSort) : Action (Solver σ S T) LogicSort :=
  withNative (.array index element)

def makeFunctionSort (domain : List LogicSort) (range : LogicSort) :
    Action (Solver σ S T) LogicSort :=
  if domain.isEmpty then throw (.usage .emptyDomain) else withNative (.function domain range)

/-- Declares a sort under a name that no other declared sort has. -/
def declare (name : String) (sort : LogicSort) (make : Action σ S) :
    Action (Solver σ S T) LogicSort := do
  if (← get).session.declared.contains name then throw (.duplicate .sort name)
  let made ← onEngine make
  record fun s => { s with
    declared := s.declared.insert name
    sorts := s.sorts.insert sort made }
  return sort

def makeUninterpretedSort (name : String) (arity : UInt64) : Action (Solver σ S T) LogicSort :=
  declare name (.uninterpreted name arity) (Engine.makeUninterpretedSort name arity)

def makeDatatypeSort (decl : DatatypeDecl) : Action (Solver σ S T) LogicSort :=
  if !decl.isFinalized then throw (.usage (.unfinalized decl.name))
  else declare decl.name (.datatype decl.name) (Engine.makeDatatypeSort decl)

/-- The canonical literal of a sort, in normal form. -/
def makeValue (l : Literal) (sort : LogicSort) : Action (Solver σ S T) Term := do
  if !l.fits sort then throw (.usage (.wrongSort l sort))
  let l ← Action.ofExcept (l.normalize sort)
  let made ← nativeSort sort
  let native ← onEngine (Engine.makeValue l made)
  leaf sort (.value l) [] native

def makeBool (b : Bool) : Action (Solver σ S T) Term := makeValue (.bool b) .bool

/-- The literal of an integer. A negative number wraps around as a bit-vector. -/
def makeInt (i : Int64) (sort : LogicSort) : Action (Solver σ S T) Term :=
  match sort with
  | .int => makeValue (.int (.ofInt64 i)) sort
  | .real => makeValue (.real (.ofInt64 i) 1) sort
  | .bitVec w => makeValue (.ofBits w (BitVec.ofInt 128 i.toInt)) sort
  | other => throw (.unexpectedSort "Int, Real or BitVec" other)

/-- The literal that a text spells in some base. -/
def parseValue (repr : String) (sort : LogicSort) (base : Nat) : Action (Solver σ S T) Term := do
  makeValue (← Action.ofExcept (Literal.parse repr sort base)) sort

/-- The array of a sort that holds the same everywhere. -/
def makeConstArray (fill : Term) (sort : LogicSort) : Action (Solver σ S T) Term := do
  let (_, element) ← Action.ofExcept sort.expectArray
  Action.ofExcept (element.expectSame fill.sort)
  let nativeFill ← native fill
  let made ← nativeSort sort
  let native ← onEngine (Engine.makeConstArray nativeFill made)
  leaf sort .constArray [fill] native

/-- A new symbol; a session has one symbol of each name. -/
def makeSymbol (name : String) (sort : LogicSort) : Action (Solver σ S T) Term := do
  if (← get).session.symbols.contains name then throw (.duplicate .symbol name)
  let made ← nativeSort sort
  let native ← onEngine (Engine.makeSymbol name made)
  let t ← leaf sort (.symbol name) [] native
  record fun s => { s with symbols := s.symbols.insert name t }
  return t

def getSymbol (name : String) : Action (Solver σ S T) Term := ask (·.symbol name)

/-- The derived sort of an application. -/
def derive (op : Op) (args : List LogicSort) : Action (Solver σ S T) (Option LogicSort) :=
  fun ⟨engine, session⟩ =>
    match SortArbiter.derive op args session.arbiter with
    | .ok sort arbiter => .ok sort ⟨engine, { session with arbiter }⟩
    | .error e arbiter => .error e ⟨engine, { session with arbiter }⟩

/-- The sort to record for an application; a disagreement with the engine is noted. -/
def reconcile (op : Op) (derived : Option LogicSort) (reported : LogicSort) :
    Action (Solver σ S T) LogicSort :=
  update fun s =>
    match s.arbiter.reconcile op derived reported with
    | (sort, none) => (sort, s)
    | (sort, some n) => (sort, s.note n)

/-- The application of an operator. -/
def makeTerm (op : Op) (args : List Term) : Action (Solver σ S T) Term := do
  let ns ← natives args
  let derived ← derive op (args.map Term.sort)
  let native ← onEngine (Engine.makeTerm op ns)
  let reported ← onEngine (Engine.sortOf native)
  let sort ← reconcile op derived reported
  update (Session.intern op sort .application args native)

end FormulaGraph.Solver

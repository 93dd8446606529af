import FormulaGraph.Capabilities
import FormulaGraph.Datatype
import FormulaGraph.Notice

/-!
The surface of a solving engine.

An engine is a state together with the operations of `Engine`, each an action on the state. Sorts
and terms of the engine are handles of its own. All that lies above an engine goes through this
surface, so what is shown for every instance holds whatever an engine answers, and whenever it
fails.
-/

namespace FormulaGraph

/-- The answer of a satisfiability check. -/
inductive Verdict where
  | sat | unsat | unknown
  deriving DecidableEq, Inhabited

namespace Verdict

def text : Verdict → String
  | sat => "sat"
  | unsat => "unsat"
  | unknown => "unknown"

instance : ToString Verdict := ⟨text⟩

def isSat (v : Verdict) : Bool := v = sat

def isUnsat (v : Verdict) : Bool := v = unsat

def isDecided (v : Verdict) : Bool := v ≠ unknown

end Verdict

/-- An array given by explicit cells over an optional constant base. -/
structure ArrayModel (T : Type) where
  base : Option T
  cells : List (T × T)

/-- A flag that tells a check to give up, by what the check sees whenever it looks. -/
structure CancelToken where
  /-- Whether the flag is found up at some time while the engine stalls. -/
  whileStalled : Bool
  /-- Whether the flag is found up when the search looks for the nth time. -/
  atPoll : Nat → Bool

namespace CancelToken

/-- A flag that is never up. -/
def idle : CancelToken := ⟨false, fun _ => false⟩

/-- A flag that is up from the start. -/
def cancelled : CancelToken := ⟨true, fun _ => true⟩

/-- A flag that once found up stays up. -/
def Monotone (t : CancelToken) : Prop :=
  (t.whileStalled = true → t.atPoll 0 = true) ∧
    ∀ n, t.atPoll n = true → t.atPoll (n + 1) = true

end CancelToken

/-- An engine with states `σ`, sort handles `S` and term handles `T`. -/
class Engine (σ : Type) (S T : outParam Type) where
  name : σ → String
  capabilities : σ → Capabilities
  setOption (option value : String) : Action σ Unit
  setLogic (logic : String) : Action σ Unit
  /-- The sorts without parameters: truth values, integers and reals. -/
  makeSort (kind : SortKind) : Action σ S
  makeBitVecSort (width : UInt64) : Action σ S
  makeArraySort (index element : S) : Action σ S
  makeFunctionSort (domain : List S) (range : S) : Action σ S
  makeUninterpretedSort (name : String) (arity : UInt64) : Action σ S
  makeDatatypeSort (decl : DatatypeDecl) : Action σ S := fun s =>
    .error (.unsupported (.noDatatypes (name s) decl.name)) s
  makeValue (literal : Literal) (sort : S) : Action σ T
  makeConstArray (fill : T) (sort : S) : Action σ T
  makeSymbol (name : String) (sort : S) : Action σ T
  makeTerm (op : Op) (args : List T) : Action σ T
  /-- The sort that the engine reports for a term, as a sort of formulas. -/
  sortOf (t : T) : Action σ LogicSort
  /-- The operator of a term; the null operator if it applies none. -/
  opOf (t : T) : Action σ Op
  children (_t : T) : Action σ (List T) := fun s => .error (.unsupported (.noChildren (name s))) s
  /-- The literal of a value, if the engine can express it. -/
  literal (s : σ) (t : T) : Option Literal
  assertFormula (t : T) : Action σ Unit
  checkSat : Action σ Verdict
  checkSatAssuming (assumptions : List T) : Action σ Verdict
  /-- A check that may give up once the token fires; an engine that cannot be interrupted runs
  on. -/
  checkSatInterruptible (_token : CancelToken) : Action σ Verdict := checkSat
  getValue (t : T) : Action σ T
  getArrayValues (_t : T) : Action σ (ArrayModel T) := fun s =>
    .error (.unsupported (.noArrayModels (name s))) s
  getUnsatCore : Action σ (List T)
  push (levels : UInt64) : Action σ Unit
  pop (levels : UInt64) : Action σ Unit
  /-- Drops every assertion and every term. -/
  reset : Action σ Unit
  /-- Drops every assertion and keeps the terms. -/
  resetAssertions : Action σ Unit
  /-- How the engine names one of its terms in reports. -/
  describe (s : σ) (t : T) : String
  /-- The notices that the engine has gathered since they were last taken. -/
  takeNotices (s : σ) : Array Notice × σ := (#[], s)

end FormulaGraph

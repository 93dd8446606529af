import FormulaGraph.Engine

/-!
The operations of an engine as data, and their answers.

A run of an engine is a list of commands; `Engine.perform` is one step of it.
-/

namespace FormulaGraph

inductive Command (S T : Type) where
  | name
  | capabilities
  | setOption (option value : String)
  | setLogic (logic : String)
  | makeSort (kind : SortKind)
  | makeBitVecSort (width : UInt64)
  | makeArraySort (index element : S)
  | makeFunctionSort (domain : List S) (range : S)
  | makeUninterpretedSort (name : String) (arity : UInt64)
  | makeDatatypeSort (decl : DatatypeDecl)
  | makeValue (literal : Literal) (sort : S)
  | makeConstArray (fill : T) (sort : S)
  | makeSymbol (name : String) (sort : S)
  | makeTerm (op : Op) (args : List T)
  | sortOf (t : T)
  | opOf (t : T)
  | children (t : T)
  | literal (t : T)
  | assertFormula (t : T)
  | checkSat
  | checkSatAssuming (assumptions : List T)
  | checkSatInterruptible (token : CancelToken)
  | getValue (t : T)
  | getArrayValues (t : T)
  | getUnsatCore
  | push (levels : UInt64)
  | pop (levels : UInt64)
  | reset
  | resetAssertions

inductive Answer (S T : Type) where
  | done
  | text (s : String)
  | capabilities (c : Capabilities)
  | sort (s : S)
  | term (t : T)
  | logicSort (s : LogicSort)
  | op (o : Op)
  | terms (ts : List T)
  | literal (l : Option Literal)
  | verdict (v : Verdict)
  | arrayModel (m : ArrayModel T)

namespace Engine

variable {σ S T : Type} [Engine σ S T]

def perform : Command S T → Action σ (Answer S T)
  | .name => fun s => .ok (.text (name s)) s
  | .capabilities => fun s => .ok (.capabilities (Engine.capabilities s)) s
  | .setOption option value => do Engine.setOption option value; return .done
  | .setLogic logic => do Engine.setLogic logic; return .done
  | .makeSort kind => .sort <$> makeSort kind
  | .makeBitVecSort width => .sort <$> makeBitVecSort width
  | .makeArraySort index element => .sort <$> makeArraySort index element
  | .makeFunctionSort domain range => .sort <$> makeFunctionSort domain range
  | .makeUninterpretedSort name arity => .sort <$> makeUninterpretedSort name arity
  | .makeDatatypeSort decl => .sort <$> makeDatatypeSort decl
  | .makeValue l sort => .term <$> makeValue l sort
  | .makeConstArray fill sort => .term <$> makeConstArray fill sort
  | .makeSymbol name sort => .term <$> makeSymbol name sort
  | .makeTerm op args => .term <$> makeTerm op args
  | .sortOf t => .logicSort <$> sortOf t
  | .opOf t => .op <$> opOf t
  | .children t => .terms <$> Engine.children t
  | .literal t => fun s => .ok (.literal (Engine.literal s t)) s
  | .assertFormula t => do assertFormula t; return .done
  | .checkSat => .verdict <$> checkSat
  | .checkSatAssuming assumptions => .verdict <$> checkSatAssuming assumptions
  | .checkSatInterruptible token => .verdict <$> checkSatInterruptible token
  | .getValue t => .term <$> getValue t
  | .getArrayValues t => .arrayModel <$> getArrayValues t
  | .getUnsatCore => .terms <$> getUnsatCore
  | .push levels => do Engine.push levels; return .done
  | .pop levels => do Engine.pop levels; return .done
  | .reset => do Engine.reset; return .done
  | .resetAssertions => do Engine.resetAssertions; return .done

end Engine

end FormulaGraph

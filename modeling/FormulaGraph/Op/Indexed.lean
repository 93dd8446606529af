import FormulaGraph.Error

/-!
Operators built from a tag and a list of indices, with the index count checked.
-/

namespace FormulaGraph.Op

def indexed (prim : PrimOp) (indices : List UInt64) : Except Error Op :=
  match ofIndices? prim indices with
  | some op => .ok op
  | none => .error (.usage (.indexCount prim indices.length))

end FormulaGraph.Op

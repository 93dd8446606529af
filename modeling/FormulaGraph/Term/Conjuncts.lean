import FormulaGraph.Term

/-!
The conjuncts of a formula.
-/

namespace FormulaGraph.Term

/-- Whether a node is a conjunction. On one-bit vectors so is the bitwise one, if that is asked
for. -/
def isConjunction (bitwise : Bool) (t : Term) : Bool :=
  match t.op.prim with
  | .and => true
  | .bvAnd => bitwise && t.sort = .bitVec 1
  | _ => false

/-- Works off a stack of nodes from left to right, splitting conjunctions. A node that was met
before adds nothing. -/
def split (bitwise : Bool) (seen : Std.HashSet Term) (found : Array Term) :
    List Term → Array Term
  | [] => found
  | t :: rest =>
    if seen.contains t then split bitwise seen found rest
    else if t.isConjunction bitwise then
      split bitwise (seen.insert t) found (t.children ++ rest)
    else split bitwise (seen.insert t) (found.push t) rest
termination_by stack => sizes stack
decreasing_by
  · have := t.size_pos
    simp only [sizes]
    omega
  · simp only [sizes_append, sizes, t.size_eq]
    omega
  · have := t.size_pos
    simp only [sizes]
    omega

/-- The conjuncts of nested conjunctions, from left to right and each once. -/
def conjuncts (bitwise : Bool) (t : Term) : List Term := (split bitwise {} #[] [t]).toList

end FormulaGraph.Term

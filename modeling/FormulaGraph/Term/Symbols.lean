import FormulaGraph.Term

/-!
The symbols that occur in a term.
-/

namespace FormulaGraph.Term

/-- Works off a stack of nodes, and gathers the nodes that pass a test, each once. -/
def gather (keep : Term → Bool) (seen : Std.HashSet Term) (found : List Term) :
    List Term → List Term
  | [] => found.reverse
  | t :: rest =>
    if seen.contains t then gather keep seen found rest
    else
      gather keep (seen.insert t) (if keep t then t :: found else found)
        (t.children ++ rest)
termination_by stack => sizes stack
decreasing_by
  · have := t.size_pos
    simp only [sizes]
    omega
  · simp only [sizes_append, sizes, t.size_eq]
    omega

/-- Every symbol, those of functions included. -/
def freeSymbols (t : Term) : List Term := gather isSymbol {} [] [t]

/-- Every symbol that is not a function. -/
def freeConstants (t : Term) : List Term := gather isConstant {} [] [t]

end FormulaGraph.Term

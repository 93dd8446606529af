import FormulaGraph.LogicSort.Expect
import FormulaGraph.Rewrite
import FormulaGraph.Solver.Query

/-!
Simultaneous substitution of terms by terms of the same sort.

The replaced terms are put into the cache as already done, so they are not entered and what replaces
them is not rewritten again. Occurrences below a constant array stay, as it is never rebuilt.
-/

namespace FormulaGraph

/-- The rewriter that changes nothing by itself: a walk rebuilds a term from what is in the
cache. -/
def Rewriter.identity {σ : Type} (rebuild : Op → List Term → Action σ Term) : Rewriter σ where
  iterable _ := true
  visit _ _ := return .resume
  rebuild := rebuild

namespace Substitution

/-- A walker that replaces the keys of a map by their values. -/
def walker (map : TermMap) : Except Error Walker :=
  match map.toList.find? fun (key, value) => key.sort ≠ value.sort with
  | some (key, value) => .error (.sortMismatch key.sort value.sort)
  | none => .ok { cache := map }

end Substitution

namespace Solver

variable {σ S T : Type} [BEq T] [Hashable T] [Engine σ S T]

/-- Walks with a walker, on a solver. -/
def walkWith (r : Rewriter (Solver σ S T)) (w : Walker) (t : Term) :
    Action (Solver σ S T) (Walker × Term) := fun s =>
  match Walker.visit r t (w, s) with
  | .ok t (w, s) => .ok (w, t) s
  | .error e (_, s) => .error e s

/-- Substitutes in one term after the other, with what was found out on the way. -/
def substituteAll (w : Walker) : List Term → Action (Solver σ S T) (List Term)
  | [] => return []
  | t :: ts => do
    let (w, t) ← walkWith (.identity makeTerm) w t
    return t :: (← substituteAll w ts)

def substituteTerms (ts : List Term) (map : TermMap) : Action (Solver σ S T) (List Term) := do
  substituteAll (← Action.ofExcept (Substitution.walker map)) ts

def substitute (t : Term) (map : TermMap) : Action (Solver σ S T) Term := do
  let w ← Action.ofExcept (Substitution.walker map)
  return (← walkWith (.identity makeTerm) w t).2

end Solver

end FormulaGraph

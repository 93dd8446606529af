import FormulaGraph.Action

/-!
Remembering what a computation gives, in a table of bounded size. Such a table may forget what it
was told; when, and which of it, is its own affair, and being asked may change what it forgets
next.
-/

namespace FormulaGraph

/-- Tables `μ` of results `ν` by keys `κ`. -/
class Memo (μ : Type) (κ ν : outParam Type) where
  /-- What the table has at a key, if anything, and the table after the question. -/
  ask : κ → μ → Option ν × μ
  tell : κ → ν → μ → μ

/-- The result of a computation at a key, from the table if it is there; a result that was computed
is told to the table, a failure is not. -/
def Memo.consult {μ κ ν : Type} [Memo μ κ ν] (compute : κ → Except Error ν) (key : κ) :
    Action μ ν := fun table =>
  match Memo.ask key table with
  | (some result, table) => .ok result table
  | (none, table) =>
    match compute key with
    | .ok result => .ok result (Memo.tell key result table)
    | .error e => .error e table

end FormulaGraph

import FormulaGraph.Solver.Transfer

/-!
Races: several engines on one query, of which the first that decides it answers for all.

`Race.State` is what the racers share. A racer reports once: it decides or it abstains, and what
comes after a decision changes nothing. The one who waits may go on once the state is final.
-/

namespace FormulaGraph

namespace Race

/-- What the racers of one race share. -/
inductive State where
  | running (remaining : Nat)
  | decided (winner : String) (isSat : Bool)
  deriving DecidableEq

namespace State

/-- The first decision stands; the answer tells whether this one was it. -/
def decide (winner : String) (isSat : Bool) : State → Bool × State
  | running _ => (true, decided winner isSat)
  | decided w b => (false, decided w b)

/-- One racer less to wait for. -/
def abstain : State → State
  | running remaining => running (remaining - 1)
  | decided w b => decided w b

/-- Whether there is nothing left to wait for. -/
def isFinal : State → Bool
  | running remaining => remaining = 0
  | decided _ _ => true

/-- Winner and answer, once there are any. -/
def winner? : State → Option (String × Bool)
  | running _ => none
  | decided w b => some (w, b)

end State

/-- How a racer's run ends. -/
inductive Report where
  | verdict (v : Verdict)
  | failed (e : Error)
  | crashed

/-- The state once a racer has reported. -/
def State.receive (s : State) (name : String) : Report → State
  | .verdict v => if v.isDecided then (s.decide name v.isSat).2 else s.abstain
  | .failed _ | .crashed => s.abstain

/-- A decision stands, whatever is reported after it. -/
theorem State.receive_decided (winner name : String) (isSat : Bool) (r : Report) :
    (decided winner isSat).receive name r = decided winner isSat := by
  cases r with
  | verdict v => cases v <;> rfl
  | failed _ | crashed => rfl

end Race

/-- A contestant: given a query and the token that calls the race off, it reports. -/
structure Racer where
  name : String
  run : Term → CancelToken → Race.Report

namespace Racer

/-- How a run ends that fails. Where the program breaks off, there is no error to report. -/
def reportOf : Error → Race.Report
  | .internal .overflow => .crashed
  | e => .failed e

/-- Identifiers that occur in no part of a term. -/
def supplyAfter (t : Term) : Supply := ⟨t.id + 1, t.session + 1⟩

/-- A racer with an engine and a solver of its own. The engine is made when the race starts, which
may fail. -/
def ofEngine {σ S T : Type} [BEq T] [Hashable T] [Engine σ S T] (name : String)
    (factory : Except Error σ) (evicts : Eviction := .never) : Racer where
  name := name
  run query token :=
    match factory with
    | .error e => .failed e
    | .ok engine =>
      match (Solver.solve query token).outcome (Solver.new engine (supplyAfter query) evicts) with
      | .ok v => .verdict v
      | .error e => reportOf e

end Racer

namespace Race

/-- The racers report in the order of the list, as far as that is needed. Nothing calls the race off
before it is decided. -/
def runInOrder (query : Term) : State → List Racer → State
  | s, [] => s
  | s, r :: rs =>
    match s with
    | .decided w b => .decided w b
    | .running n =>
      runInOrder query ((State.running n).receive r.name (r.run query .idle)) rs

/-- Whether the query is satisfiable, by the first racer that decides it. -/
def run (racers : List Racer) (query : Term) : Except Error Bool := do
  if racers.isEmpty then throw (.usage .noRacers)
  query.sort.expectBool
  match (runInOrder query (.running racers.length) racers).winner? with
  | some (_, isSat) => return isSat
  | none => throw .undecided

end Race

end FormulaGraph

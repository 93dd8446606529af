import FormulaGraph.Race.Protocol

/-!
A race of given racers on a query, in any interleaving: what each of them may report, and what the
one who waits makes of the outcome.
-/

namespace FormulaGraph.Race

/-- The call that a racer may make. Before the race is called off, the racer has not found the flag
up; afterwards, it may have found it up at any time of its run. -/
def Reports (racers : List Racer) (query : Term) (off : Bool)
    (i : Fin racers.length) (call : Call) :
    Prop :=
  ∃ token : CancelToken, token.Monotone ∧ (off = false → token = .idle) ∧
    ((racers.get i).run query token).call = call

/-- The configurations that the race reaches, with the number of moves and of times that the one who
waits woke for no reason. -/
abbrev Reaches (racers : List Racer) (query : Term) : Nat → Nat → Config racers.length → Prop :=
  Schedule (fun i => (racers.get i).name) (Reports racers query)

/-- What the outcome of the race answers. -/
def answer : Option (String × Bool) → Except Error Bool
  | some (_, isSat) => .ok isSat
  | none => .error .undecided

/-- What the race may answer. -/
inductive Answers (racers : List Racer) (query : Term) : Except Error Bool → Prop
  | noRacers (empty : racers = []) : Answers racers query (.error (.usage .noRacers))
  | refused {e : Error} (entered : racers ≠ []) (sort : query.sort.expectBool = .error e) :
      Answers racers query (.error e)
  | ended {moves stirs : Nat} {c : Config racers.length} {result : Option (String × Bool)}
      (entered : racers ≠ []) (sort : query.sort.expectBool = .ok ())
      (reaches : Reaches racers query moves stirs c) (finished : c.waiter = .finished result) :
      Answers racers query (answer result)

end FormulaGraph.Race

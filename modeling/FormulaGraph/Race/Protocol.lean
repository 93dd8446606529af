import FormulaGraph.Race
import Mathlib.Logic.Function.Basic
import Mathlib.Logic.Relation

/-!
The protocol of a race: racers that report each on its own, and one who waits for them.

They share a `Race.State` behind a lock, and a condition on which the one who waits may sleep. A
configuration says how far each of them has come. A `Move` is a step of one of them, so a sequence
of moves is an interleaving; what lock and condition promise is written into the moves. Sleep and
letting go of the lock are one move, and whoever is woken needs the lock again. The one who waits
may also wake for no reason, which is a `Stir`.

A racer that could not be started is reported by the one who waits before it waits: this is a
schedule in which the call of that racer is over by then.
-/

namespace FormulaGraph.Race

/-- What a racer tells the others: an answer, or that it has none. -/
inductive Call where
  | decide (isSat : Bool)
  | abstain
  deriving DecidableEq

/-- What comes of a report. -/
def Report.call : Report → Call
  | .verdict v => if v.isDecided then .decide v.isSat else .abstain
  | .failed _ | .crashed => .abstain

namespace Call

def answer? : Call → Option Bool
  | decide isSat => some isSat
  | abstain => none

/-- The shared state after the call. -/
def apply (name : String) : Call → State → State
  | decide isSat, s => (s.decide name isSat).2
  | abstain, s => s.abstain

/-- What the call answers: whether it decided the race. -/
def wins (name : String) : Call → State → Bool
  | decide isSat, s => (s.decide name isSat).1
  | abstain, _ => false

/-- Whether the call wakes the one who waits. -/
def wakes (name : String) : Call → State → Bool
  | decide isSat, s => (s.decide name isSat).1
  | abstain, .running remaining => (State.running remaining).abstain.isFinal
  | abstain, .decided _ _ => false

theorem apply_call (name : String) (r : Report) (s : State) :
    r.call.apply name s = s.receive name r := by
  cases r with
  | verdict v => cases v <;> rfl
  | failed _ | crashed => rfl

end Call

/-- How far a racer has come. -/
inductive Stage where
  | running
  /-- The call needs the lock. -/
  | calling (c : Call)
  /-- The racer has the lock, and has not touched the state. -/
  | entered (c : Call)
  /-- The state has been changed, and the one who waits is to be woken. -/
  | waking (c : Call) (won : Bool)
  /-- The lock is to be let go. -/
  | leaving (c : Call) (won : Bool)
  | done (c : Call) (won : Bool)
  deriving DecidableEq

/-- How far the one who waits has come. -/
inductive Waiter where
  | arriving
  /-- It has the lock, and has not looked at the state. -/
  | testing
  /-- It has the lock, and goes to sleep. -/
  | retiring
  | asleep
  /-- It has been woken, and needs the lock again. -/
  | woken
  /-- The lock is to be let go. -/
  | leaving (result : Option (String × Bool))
  | returned (result : Option (String × Bool))
  /-- The race has been called off. -/
  | finished (result : Option (String × Bool))
  deriving DecidableEq

namespace Waiter

def wake : Waiter → Waiter
  | asleep => woken
  | w => w

/-- Whether the flag is up that calls the race off. -/
def calledOff : Waiter → Bool
  | finished _ => true
  | _ => false

end Waiter

/-- Who can have the lock. -/
inductive Party (n : Nat) where
  | racer (i : Fin n)
  | waiter
  deriving DecidableEq

structure Config (n : Nat) where
  state : State
  holder : Option (Party n)
  stage : Fin n → Stage
  waiter : Waiter
  /-- The calls, in the order in which they took the lock. No move depends on it. -/
  order : List (Fin n × Call)

namespace Config

variable {n : Nat}

def start (n : Nat) : Config n := ⟨.running n, none, fun _ => .running, .arriving, []⟩

/-- The configuration with a racer at another stage. -/
def moveTo (c : Config n) (i : Fin n) (stage : Stage) : Config n :=
  { c with stage := Function.update c.stage i stage }

section MoveTo

variable (c : Config n) (i j : Fin n) (stage : Stage)

@[simp, grind =] theorem state_moveTo : (c.moveTo i stage).state = c.state := rfl

@[simp, grind =] theorem holder_moveTo : (c.moveTo i stage).holder = c.holder := rfl

@[simp, grind =] theorem waiter_moveTo : (c.moveTo i stage).waiter = c.waiter := rfl

@[simp, grind =] theorem order_moveTo : (c.moveTo i stage).order = c.order := rfl

@[simp, grind =] theorem stage_moveTo :
    (c.moveTo i stage).stage j = if j = i then stage else c.stage j :=
  Function.update_apply c.stage i stage j

end MoveTo

/-- Where a call stands that has just changed a state: it goes on to wake the one who waits, if it
is to. -/
def afterReport (name : String) (call : Call) (s : State) : Stage :=
  if call.wakes name s then .waking call (call.wins name s) else .leaving call (call.wins name s)

end Config

open Config

variable {n : Nat}

/-- A step of one of the parties. `May` says which call a racer may make, by whether the race has
been called off. -/
inductive Move (names : Fin n → String) (May : Bool → Fin n → Call → Prop) :
    Config n → Config n → Prop
  | call {c : Config n} {i : Fin n} {call : Call} (runs : c.stage i = .running)
      (may : May c.waiter.calledOff i call) : Move names May c (c.moveTo i (.calling call))
  | enter {c : Config n} {i : Fin n} {call : Call} (calls : c.stage i = .calling call)
      (free : c.holder = none) :
      Move names May c
        { c.moveTo i (.entered call) with
          holder := some (.racer i)
          order := c.order ++ [(i, call)] }
  | report {c : Config n} {i : Fin n} {call : Call} (entered : c.stage i = .entered call) :
      Move names May c
        { c.moveTo i (afterReport (names i) call c.state) with
          state := call.apply (names i) c.state }
  | wake {c : Config n} {i : Fin n} {call : Call} {won : Bool}
      (wakes : c.stage i = .waking call won) :
      Move names May c { c.moveTo i (.leaving call won) with waiter := c.waiter.wake }
  | leave {c : Config n} {i : Fin n} {call : Call} {won : Bool}
      (leaves : c.stage i = .leaving call won) :
      Move names May c { c.moveTo i (.done call won) with holder := none }
  | take {c : Config n} (wants : c.waiter = .arriving ∨ c.waiter = .woken)
      (free : c.holder = none) :
      Move names May c { c with holder := some .waiter, waiter := .testing }
  | conclude {c : Config n} (tests : c.waiter = .testing) (final : c.state.isFinal = true) :
      Move names May c { c with waiter := .leaving c.state.winner? }
  | retire {c : Config n} (tests : c.waiter = .testing) (pending : c.state.isFinal = false) :
      Move names May c { c with waiter := .retiring }
  | sleep {c : Config n} (retires : c.waiter = .retiring) :
      Move names May c { c with holder := none, waiter := .asleep }
  | answer {c : Config n} {result : Option (String × Bool)} (leaves : c.waiter = .leaving result) :
      Move names May c { c with holder := none, waiter := .returned result }
  | callOff {c : Config n} {result : Option (String × Bool)}
      (returned : c.waiter = .returned result) :
      Move names May c { c with waiter := .finished result }

/-- The one who waits wakes for no reason. -/
inductive Stir : Config n → Config n → Prop
  | wake {c : Config n} (asleep : c.waiter = .asleep) : Stir c { c with waiter := .woken }

/-- The second configuration may follow the first. -/
def Later (names : Fin n → String) (May : Bool → Fin n → Call → Prop) :
    Config n → Config n → Prop :=
  Relation.ReflTransGen fun c c' => Move names May c c' ∨ Stir c c'

/-- The configurations that an interleaving reaches, with the number of moves and of times that the
one who waits woke for no reason. -/
inductive Schedule (names : Fin n → String) (May : Bool → Fin n → Call → Prop) :
    Nat → Nat → Config n → Prop
  | start : Schedule names May 0 0 (.start n)
  | move {moves stirs : Nat} {c c' : Config n} (before : Schedule names May moves stirs c)
      (move : Move names May c c') : Schedule names May (moves + 1) stirs c'
  | stir {moves stirs : Nat} {c c' : Config n} (before : Schedule names May moves stirs c)
      (stir : Stir c c') : Schedule names May moves (stirs + 1) c'

end FormulaGraph.Race

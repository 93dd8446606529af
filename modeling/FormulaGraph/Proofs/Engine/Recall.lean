import FormulaGraph.Engine.Command
import FormulaGraph.Proofs.Action

/-!
What an engine recalls of its checks. Its core is about the last check that was answered: it is made
of the assumptions of that check, if the check found no model under them, and otherwise there is
none.
-/

namespace FormulaGraph

namespace Command

variable {S T : Type} {c : Command S T}

/-- The command leaves the model of the last check alone. -/
def KeepsModel : Command S T → Prop
  | .checkSat | .checkSatAssuming _ | .checkSatInterruptible _ | .reset | .resetAssertions => False
  | _ => True

/-- Of which assumptions a core is made from now on, if the command settles that by its answer. -/
def recalled? : Command S T → Answer S T → Option (List T)
  | .checkSatAssuming assumptions, .verdict .unsat => some assumptions
  | .checkSatAssuming _, _ | .checkSat, _ | .checkSatInterruptible
    _, _ | .reset, _ | .resetAssertions, _ => some []
  | _, _ => none

theorem recalled?_of_keepsModel (keeps : c.KeepsModel) (answer : Answer S T) :
    c.recalled? answer = none := by
  cases c with
  | checkSat | checkSatAssuming | checkSatInterruptible | reset | resetAssertions =>
    exact keeps.elim
  | _ => rfl

end Command

namespace Engine

open FormulaGraph.Action

variable {σ S T α : Type} [Engine σ S T] {act : Action σ α}

/-- What the action makes of the engine, a command makes of it that leaves the model of the last
check alone. -/
def Spares (act : Action σ α) : Prop :=
  ∃ c : Command S T, c.KeepsModel ∧ act.finalState = (perform c : Action σ (Answer S T)).finalState

theorem spares_answered {f : α → Answer S T} (c : Command S T) (keeps : c.KeepsModel)
    (performs : perform c = f <$> act) : Spares act :=
  ⟨c, keeps, by rw [performs, finalState_map]⟩

/-- The engine has been called and its notices taken any number of times; these are the assumptions
of the last check that was answered, if it found no model under them and nothing was reset since. A
call that fails does not count. -/
inductive Recalls (start : σ → Prop) : σ → List T → Prop
  | fresh {e : σ} (starts : start e) : Recalls start e []
  | answered {e e' : σ} {assumptions : List T}
      (before : Recalls start e assumptions) (c : Command S T)
      {answer : Answer S T} (done : perform c e = .ok answer e') :
      Recalls start e' ((c.recalled? answer).getD assumptions)
  | taken {e : σ} {assumptions : List T} (before : Recalls start e assumptions) :
      Recalls start (takeNotices e).2 assumptions

/-- A call that fails leaves the engine as it was, and a core is made of what is recalled. -/
structure Retentive (start : σ → Prop) : Prop where
  fails : ∀ {e e' : σ} {assumptions : List T} {c : Command S T} {x : Error},
    Recalls start e assumptions → perform c e = .error x e' → e' = e
  core : ∀ {e e' : σ} {assumptions core : List T}, Recalls start e assumptions →
    getUnsatCore e = .ok core e' → core.Sublist assumptions

variable {start : σ → Prop} {e : σ} {assumptions : List T}

/-- Neither a failure nor a command that leaves the model alone changes what is recalled. -/
theorem Retentive.spared (retentive : Retentive start) (spares : Spares act)
    (recalls : Recalls start e assumptions) : Recalls start (act.finalState e) assumptions := by
  obtain ⟨c, keeps, same⟩ := spares
  rw [same]
  cases called : perform c e with
  | ok answer e' =>
    have later := recalls.answered c called
    rw [c.recalled?_of_keepsModel keeps] at later
    rw [finalState_ok called]
    exact later
  | error x e' =>
    rw [finalState_error called, retentive.fails recalls called]
    exact recalls

end Engine

/-- An engine of one term and one sort. To it whatever is assumed clashes, but it refuses to check
with nothing assumed, to leave a scope, and to drop its assertions. -/
structure Reluctant where
  recalled : List Unit := []

namespace Reluctant

/-- What the engine is not up to, it refuses. -/
def refuse {α : Type} : Action Reluctant α := throw (.engine "reluctant" "refused")

def check : List Unit → Action Reluctant Verdict
  | [] => refuse
  | n :: ns => fun _ => .ok .unsat ⟨n :: ns⟩

instance : Engine Reluctant Unit Unit where
  name _ := "reluctant"
  capabilities _ := ⟨0⟩
  setOption _ _ := return
  setLogic _ := return
  makeSort _ := return
  makeBitVecSort _ := return
  makeArraySort _ _ := return
  makeFunctionSort _ _ := return
  makeUninterpretedSort _ _ := return
  makeValue _ _ := return
  makeConstArray _ _ := return
  makeSymbol _ _ := return
  makeTerm _ _ := return
  sortOf _ := return .bool
  opOf _ := return .null
  literal _ _ := none
  assertFormula _ := return
  checkSat := fun _ => .ok .sat {}
  checkSatAssuming := check
  getValue _ := return
  getUnsatCore := fun e => .ok e.recalled e
  push _ := return
  pop _ := refuse
  reset := fun _ => .ok () {}
  resetAssertions := refuse
  describe _ _ := "term"

/-- The engine that nothing has been asked of. -/
def Fresh (e : Reluctant) : Prop := e = {}

theorem recalled_eq {e : Reluctant} {assumptions : List Unit}
    (recalls : Engine.Recalls Fresh e assumptions) :
    e.recalled = assumptions := by
  induction recalls with
  | fresh starts => rw [starts]
  | taken _ ih => exact ih
  | answered _ c done ih =>
    cases c with
    | checkSatAssuming ns =>
      obtain ⟨v, checked, rfl⟩ := Action.of_map_ok done
      cases ns with
      | nil => cases checked
      | cons n ns =>
        cases checked
        rfl
    | checkSat | checkSatInterruptible | reset =>
      cases done
      rfl
    | makeDatatypeSort | children | getArrayValues | pop | resetAssertions => cases done
    | _ =>
      cases done
      exact ih

theorem retentive : Engine.Retentive Fresh where
  fails {e e' _ c x} _ failed := by
    cases c with
    | checkSatAssuming ns =>
      have refused := Action.of_map_error failed
      cases ns with
      | nil =>
        cases refused
        rfl
      | cons n ns => cases refused
    | makeDatatypeSort | children | getArrayValues | pop | resetAssertions =>
      cases failed
      rfl
    | _ => cases failed
  core recalls answered := by
    cases answered
    exact recalled_eq recalls ▸ .refl _

end Reluctant

end FormulaGraph

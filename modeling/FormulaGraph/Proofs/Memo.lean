import FormulaGraph.Memo
import FormulaGraph.Proofs.Action

/-!
A computation whose results are remembered gives what it would give without, whatever the table
forgets: of the table nothing is asked but that it has at a key what it was told there last, or
nothing.
-/

namespace FormulaGraph

/-- What actions answer one after the other; where one fails, the next starts from the state that it
has left. -/
def Action.outcomes {σ α : Type} : List (Action σ α) → σ → List (Except Error α)
  | [], _ => []
  | act :: acts, s => act.outcome s :: outcomes acts (act.finalState s)

namespace Memo

variable {μ κ ν : Type} [Memo μ κ ν] {compute : κ → Except Error ν} {start table : μ}

/-- What a table can become, and what it was told meanwhile, the latest first. -/
inductive Course (start : μ) : μ → List (κ × ν) → Prop
  | start : Course start start []
  | asked {table : μ} {told : List (κ × ν)} (course : Course start table told) (key : κ) :
      Course start (ask key table).2 told
  | told {table : μ} {told : List (κ × ν)} (course : Course start table told)
      (key : κ) (result : ν) :
      Course start (tell key result table) ((key, result) :: told)

/-- Whatever the table becomes, it has at a key what it was told last at an equal key, or
nothing. -/
def Truthful [BEq κ] (start : μ) : Prop :=
  ∀ (table : μ) (told : List (κ × ν)) (key : κ) (result : ν), Course start table told →
    (ask key table).1 = some result → told.lookup key = some result

/-- The table was told nothing but what is computed. -/
def Faithful (compute : κ → Except Error ν) (start table : μ) : Prop :=
  ∃ told, Course start table told ∧ ∀ p ∈ told, compute p.1 = .ok p.2

section Results

variable {key : κ} {result : ν} {e : Error}

theorem consult_found (found : (ask key table).1 = some result) :
    consult compute key table = .ok result (ask key table).2 := by
  unfold consult
  generalize ask key table = asked at found
  obtain ⟨answer, table'⟩ := asked
  cases found
  rfl

theorem consult_given (unknown : (ask key table).1 = none) (given : compute key = .ok result) :
    consult compute key table = .ok result (tell key result (ask key table).2) := by
  unfold consult
  generalize ask key table = asked at unknown
  obtain ⟨answer, table'⟩ := asked
  cases unknown
  rw [given]

theorem consult_refused (unknown : (ask key table).1 = none) (refused : compute key = .error e) :
    consult compute key table = .error e (ask key table).2 := by
  unfold consult
  generalize ask key table = asked at unknown
  obtain ⟨answer, table'⟩ := asked
  cases unknown
  rw [refused]

theorem consult_cases (compute : κ → Except Error ν) (key : κ) (table : μ) :
    (∃ result, (ask key table).1 = some result ∧
      consult compute key table = .ok result (ask key table).2) ∨ (ask key table).1 = none ∧
      ((∃ result, compute key = .ok result ∧
          consult compute key table = .ok result (tell key result (ask key table).2)) ∨
        ∃ e, compute key = .error e ∧ consult compute key table = .error e (ask key table).2) := by
  cases found : (ask key table).1 with
  | some result => exact .inl ⟨result, rfl, consult_found found⟩
  | none =>
    cases computed : compute key with
    | ok result => exact .inr ⟨rfl, .inl ⟨result, rfl, consult_given found computed⟩⟩
    | error e => exact .inr ⟨rfl, .inr ⟨e, rfl, consult_refused found computed⟩⟩

end Results

section Keys

variable [BEq κ] [LawfulBEq κ]

/-- If the table was told only what is computed, what is found in it was computed. -/
theorem Course.computed {told : List (κ × ν)} {key : κ} {result : ν}
    (course : Course start table told)
    (computed : ∀ p ∈ told, compute p.1 = .ok p.2) (truthful : Truthful start)
    (found : (ask key table).1 = some result) : compute key = .ok result := by
  have last := truthful table told key result course found
  obtain ⟨before, after, rfl, -⟩ := List.lookup_eq_some_iff.mp last
  exact computed (key, result) (List.mem_append_right _ List.mem_cons_self)

/-- The outcome is that of the computation, and the table stays faithful. -/
theorem Faithful.consult (faithful : Faithful compute start table)
    (truthful : Truthful start) (key : κ) :
    (Memo.consult compute key).outcome table = compute key ∧
      Faithful compute start ((Memo.consult compute key).finalState table) := by
  obtain ⟨told, course, computed⟩ := faithful
  obtain ⟨result, found, run⟩ | ⟨-, ⟨result, given, run⟩ | ⟨e, refused, run⟩⟩ :=
    consult_cases compute key table
  · rw [Action.outcome_ok run, Action.finalState_ok run, course.computed computed truthful found]
    exact ⟨rfl, told, course.asked key, computed⟩
  · rw [Action.outcome_ok run, Action.finalState_ok run, given]
    exact ⟨rfl, _, (course.asked key).told key result, List.forall_mem_cons.mpr ⟨given, computed⟩⟩
  · rw [Action.outcome_error run, Action.finalState_error run, refused]
    exact ⟨rfl, told, course.asked key, computed⟩

theorem Faithful.outcomes (faithful : Faithful compute start table)
    (truthful : Truthful start) (keys : List κ) :
    Action.outcomes (keys.map (Memo.consult compute)) table = keys.map compute := by
  induction keys generalizing table with
  | nil => rfl
  | cons key keys ih =>
    obtain ⟨same, faithful⟩ := faithful.consult truthful key
    rw [List.map_cons, List.map_cons, Action.outcomes, same, ih faithful]

end Keys

theorem faithful_start : Faithful compute start start :=
  ⟨[], .start, fun _ none => absurd none List.not_mem_nil⟩

end Memo

end FormulaGraph

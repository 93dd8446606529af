import FormulaGraph.Proofs.Race.Outcome
import Mathlib.Algebra.BigOperators.Fin

/-!
A race comes to its end: as long as it has not, one of the parties has a move that needs no waking
for no reason, and there are only so many moves between such wakings.
-/

namespace FormulaGraph.Race

open Config

variable {n : Nat} {names : Fin n → String} {May : Bool → Fin n → Call → Prop} {c c' : Config n}
  {i : Fin n}

/-- How many moves a racer has left, where waking counts for those of the one who is woken too. -/
def Stage.work : Stage → Nat
  | running => 9
  | calling _ => 8
  | entered _ => 7
  | waking _ _ => 6
  | leaving _ _ => 1
  | done _ _ => 0

/-- How many moves are left until the race is over, or until the next sleep. -/
def Waiter.work : Waiter → Nat
  | arriving | woken => 4
  | testing => 3
  | leaving _ => 2
  | retiring | returned _ => 1
  | asleep | finished _ => 0

def Config.work (c : Config n) : Nat := (∑ i, (c.stage i).work) + c.waiter.work

theorem work_start (n : Nat) : (Config.start n).work = 9 * n + 4 := by
  simp [Config.work, Config.start, Stage.work, Waiter.work, Nat.mul_comm]

theorem sum_moveTo (c : Config n) (i : Fin n) (stage : Stage) :
    (∑ j, ((c.moveTo i stage).stage j).work) + (c.stage i).work =
      (∑ j, (c.stage j).work) + stage.work := by
  have others : ∀ j ∈ Finset.univ.erase i, ((c.moveTo i stage).stage j).work =
      (c.stage j).work := by
    intro j hj
    rw [stage_moveTo, if_neg (Finset.ne_of_mem_erase hj)]
  rw [← Finset.add_sum_erase _ _ (Finset.mem_univ i), Finset.sum_congr rfl others,
    ← Finset.add_sum_erase _ (fun j => (c.stage j).work) (Finset.mem_univ i), stage_moveTo,
    if_pos rfl]
  omega

theorem work_wake_le (w : Waiter) : w.wake.work ≤ w.work + 4 := by
  cases w <;> simp [Waiter.wake, Waiter.work]

theorem work_afterReport_lt (name : String) (call : Call) (s : State) :
    (afterReport name call s).work < 7 := by
  unfold afterReport
  split <;> simp [Stage.work]

/-- A racer has moved on, by more than the one who waits was set back. -/
theorem work_lt_of_moveTo {stage before : Stage} (was : c.stage i = before)
    (stages : c'.stage = (c.moveTo i stage).stage)
    (less : stage.work + c'.waiter.work < before.work + c.waiter.work) : c'.work < c.work := by
  have moved := sum_moveTo c i stage
  rw [was] at moved
  rw [Config.work, Config.work, stages]
  omega

theorem work_move_lt (move : Move names May c c') : c'.work < c.work := by
  cases move with
  | call runs => exact work_lt_of_moveTo runs rfl (Nat.add_lt_add_right (by decide : 8 < 9) _)
  | enter calls => exact work_lt_of_moveTo calls rfl (Nat.add_lt_add_right (by decide : 7 < 8) _)
  | report entered =>
    exact work_lt_of_moveTo entered rfl (Nat.add_lt_add_right (work_afterReport_lt _ _ _) _)
  | wake wakes =>
    have back := work_wake_le c.waiter
    refine work_lt_of_moveTo wakes rfl ?_
    show 1 + c.waiter.wake.work < 6 + c.waiter.work
    omega
  | leave leaves => exact work_lt_of_moveTo leaves rfl (Nat.add_lt_add_right (by decide : 0 < 1) _)
  | take wants =>
    refine Nat.add_lt_add_left ?_ _
    cases wants with
    | inl same | inr same => simp [same, Waiter.work]
  | conclude same | retire same | sleep same | answer same | callOff same =>
    refine Nat.add_lt_add_left ?_ _
    simp [same, Waiter.work]

/-- Every move is one step nearer to the end, and waking for no reason sets back by a few. -/
theorem Schedule.moves_le {moves stirs : Nat} (schedule : Schedule names May moves stirs c) :
    moves + c.work ≤ 9 * n + 4 + 4 * stirs := by
  induction schedule with
  | start => rw [work_start]; omega
  | move _ move ih =>
    have := work_move_lt move
    omega
  | stir _ stir ih =>
    cases stir with
    | wake asleep =>
      simp only [Config.work, asleep, Waiter.work] at ih ⊢
      omega

theorem move_of_locked (locked : (c.stage i).locked = true) : ∃ c', Move names May c c' := by
  cases at' : c.stage i with
  | entered call => exact ⟨_, .report at'⟩
  | waking call won => exact ⟨_, .wake at'⟩
  | leaving call won => exact ⟨_, .leave at'⟩
  | running | calling | done => rw [at'] at locked; cases locked

theorem move_of_waiter_locked (locked : c.waiter.locked = true) : ∃ c', Move names May c c' := by
  cases at' : c.waiter with
  | testing =>
    cases final : c.state.isFinal with
    | true => exact ⟨_, .conclude at' final⟩
    | false => exact ⟨_, .retire at' final⟩
  | retiring => exact ⟨_, .sleep at'⟩
  | leaving result => exact ⟨_, .answer at'⟩
  | arriving | asleep | woken | returned | finished => rw [at'] at locked; cases locked

/-- If the lock is free and the one who waits is asleep, there is a racer that has not called
yet. -/
theorem Orderly.move_of_asleep (orderly : Orderly names c) (may : ∀ off i, ∃ call, May off i call)
    (free : c.holder = none) (asleep : c.waiter = .asleep) : ∃ c', Move names May c c' := by
  obtain ⟨guarded, recorded, watched⟩ := orderly
  have idle : ∀ i, (c.stage i).locked = false := by grind [guarded.racer]
  cases state : c.state with
  | decided winner isSat =>
    obtain ⟨i, call, won, wakes⟩ := watched.asleep asleep (by rw [state]; rfl)
    exact move_of_locked (i := i) (by rw [wakes]; rfl)
  | running remaining =>
    have counted := recorded.remaining guarded state
    have some' : 0 < remaining := by
      by_contra zero
      obtain ⟨i, call, won, wakes⟩ :=
        watched.asleep asleep (by rw [state]; simpa [State.isFinal] using zero)
      have locked := idle i
      rw [wakes] at locked
      cases locked
    rw [counted] at some'
    obtain ⟨i, member⟩ := Finset.card_pos.mp some'
    have silent := (Finset.mem_filter.mp member).2
    cases at' : c.stage i with
    | running =>
      obtain ⟨call, mayCall⟩ := may c.waiter.calledOff i
      exact ⟨_, .call at' mayCall⟩
    | calling call => exact ⟨_, .enter at' free⟩
    | entered call => exact ⟨_, .report at'⟩
    | waking | leaving | done => rw [at'] at silent; cases silent

/-- Nobody waits for ever: until the race is over somebody can move on. -/
theorem Orderly.progress (orderly : Orderly names c) (may : ∀ off i, ∃ call, May off i call)
    (unfinished : ∀ result, c.waiter ≠ .finished result) : ∃ c', Move names May c c' := by
  cases holder : c.holder with
  | some party =>
    cases party with
    | racer i => exact move_of_locked ((orderly.guarded.racer i).mpr holder)
    | waiter => exact move_of_waiter_locked (orderly.guarded.waiter.mpr holder)
  | none =>
    cases at' : c.waiter with
    | arriving => exact ⟨_, .take (.inl at') holder⟩
    | woken => exact ⟨_, .take (.inr at') holder⟩
    | asleep => exact orderly.move_of_asleep may holder at'
    | returned result => exact ⟨_, .callOff at'⟩
    | finished result => exact absurd at' (unfinished result)
    | testing | retiring | leaving => exact move_of_waiter_locked (by rw [at']; rfl)

end FormulaGraph.Race

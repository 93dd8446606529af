import FormulaGraph.Proofs.Error
import FormulaGraph.Proofs.Race.Progress
import FormulaGraph.Race.Contest

/-!
What a race answers comes from its racers: an answer is one that some racer gave, and there is one
unless all racers would abstain undisturbed. The racers reporting in order, as `Race.run` has it, is
one of the interleavings.
-/

namespace FormulaGraph.Race

open Config

section Permission

variable {n moves stirs : Nat} {names : Fin n → String} {May : Bool → Fin n → Call → Prop}
  {c c' : Config n} {i : Fin n} {call : Call}

/-- The call that a racer has made, whether or not it has got the lock. -/
def Stage.call? : Stage → Option Call
  | calling call | entered call | waking call _ | leaving call _ | done call _ => some call
  | running => none

theorem Stage.call_of_taken {stage : Stage} (taken : stage.taken? = some call) :
    stage.call? = some call := by
  cases stage <;> first | exact taken | cases taken

theorem call_afterReport (name : String) (call : Call) (s : State) :
    (afterReport name call s).call? = some call := by
  unfold afterReport
  split <;> rfl

theorem call_move (move : Move names May c c') (made : (c'.stage i).call? = some call) :
    (c.stage i).call? = some call ∨ May c.waiter.calledOff i call := by
  cases move with
  | call | enter | wake | leave => grind [Stage.call?]
  | @report j call' entered =>
    have same := call_afterReport (names j) call' c.state
    grind [Stage.call?]
  | take | conclude | retire | sleep | answer | callOff => exact .inl made

theorem calledOff_move (move : Move names May c c') (off : c.waiter.calledOff = true) :
    c'.waiter.calledOff = true := by
  cases move with
  | wake =>
    show c.waiter.wake.calledOff = true
    cases at' : c.waiter <;> simp_all [Waiter.calledOff, Waiter.wake]
  | take wants => cases wants <;> simp_all [Waiter.calledOff]
  | _ => simp_all [Waiter.calledOff]

/-- The one who waits knows the outcome before it calls the race off. -/
theorem result_callOff (move : Move names May c c') (off : c'.waiter.calledOff = true) :
    c.waiter.result? = c'.waiter.result? := by
  cases move with
  | wake => exact c.waiter.result_wake.symm
  | _ => simp_all [Waiter.calledOff, Waiter.result?]

/-- Racers make calls that they may make. Those before the race is called off are made undisturbed,
among them all calls that the outcome comes from. -/
structure Permitted (May : Bool → Fin n → Call → Prop) (c : Config n) : Prop where
  calls : ∀ i call, (c.stage i).call? = some call → ∃ off, May off i call
  undisturbed : c.waiter.calledOff = false →
    ∀ i call, (c.stage i).call? = some call → May false i call
  nobody : c.waiter.result? = some none → ∀ i, May false i .abstain

theorem Permitted.move (permitted : Permitted May c) (orderly : Orderly names c')
    (move : Move names May c c') : Permitted May c' := by
  have undisturbed : c'.waiter.calledOff = false →
      ∀ i call, (c'.stage i).call? = some call → May false i call := by
    intro on i call made
    have before : c.waiter.calledOff = false := by
      by_contra off
      rw [calledOff_move move (by simpa using off)] at on
      cases on
    cases call_move move made with
    | inl made => exact permitted.undisturbed before i call made
    | inr may => exact before ▸ may
  refine ⟨fun i call made => ?_, undisturbed, fun none i => ?_⟩
  · cases call_move move made with
    | inl made => exact permitted.calls i call made
    | inr may => exact ⟨_, may⟩
  · cases off : c'.waiter.calledOff with
    | true => exact permitted.nobody ((result_callOff move off).trans none) i
    | false =>
      have abstained := orderly.watched.concludes _ none i
      exact undisturbed off i .abstain
        (Stage.call_of_taken ((orderly.recorded.taken i .abstain).mp abstained))

theorem Schedule.permitted (schedule : Schedule names May moves stirs c) : Permitted May c := by
  induction schedule with
  | start => exact ⟨nofun, fun _ => nofun, nofun⟩
  | move before move ih => exact ih.move (before.move move).orderly move
  | stir _ stir ih =>
    cases stir with
    | wake asleep =>
      obtain ⟨calls, undisturbed, -⟩ := ih
      exact ⟨calls, fun _ => undisturbed (by rw [asleep]; rfl), nofun⟩

end Permission

variable {racers rest : List Racer} {query : Term} {r : Racer} {isSat : Bool}
  {result : Except Error Bool}

theorem Answers.given (answers : Answers racers query (.ok isSat)) :
    ∃ r ∈ racers, ∃ token : CancelToken, (r.run query token).call = .decide isSat := by
  generalize same : Except.ok isSat = result at answers
  cases answers with
  | noRacers | refused => cases same
  | @ended _ _ c outcome _ _ reaches finished =>
    obtain ⟨-, recorded, watched⟩ := reaches.orderly
    have concludes := watched.concludes outcome (by rw [finished]; rfl)
    match outcome with
    | none => cases same
    | some (winner, _) =>
      cases same
      obtain ⟨i, -, first⟩ := concludes
      have taken := (recorded.taken i _).mp (mem_of_firstDecision first)
      obtain ⟨_, token, -, -, reported⟩ := reaches.permitted.calls i _ (Stage.call_of_taken taken)
      exact ⟨racers.get i, List.get_mem racers i, token, reported⟩

theorem Answers.ok_or_undecided (answers : Answers racers query result) (entered : racers ≠ [])
    (truth : query.sort = .bool) : (∃ isSat, result = .ok isSat) ∨ result = .error .undecided := by
  cases answers with
  | noRacers empty => exact absurd empty entered
  | refused _ sort =>
    rw [truth] at sort
    cases sort
  | @ended _ _ _ outcome _ _ _ _ =>
    match outcome with
    | some (winner, isSat) => exact .inl ⟨isSat, rfl⟩
    | none => exact .inr rfl

theorem Answers.decided (answers : Answers racers query result) (truth : query.sort = .bool)
    (hr : r ∈ racers) (decides : (r.run query .idle).call ≠ .abstain) :
    ∃ isSat, result = .ok isSat := by
  cases answers with
  | noRacers empty =>
    rw [empty] at hr
    cases hr
  | refused _ sort =>
    rw [truth] at sort
    cases sort
  | @ended _ _ c outcome _ _ reaches finished =>
    match outcome with
    | some (winner, isSat) => exact ⟨isSat, rfl⟩
    | none =>
      obtain ⟨i, rfl⟩ := List.get_of_mem hr
      obtain ⟨token, -, idle, reported⟩ :=
        reaches.permitted.nobody (by rw [finished]; rfl) i
      rw [idle rfl] at reported
      exact absurd reported decides

/-- Until a race has come to its end, somebody can go on, and it has only so many moves. -/
theorem Reaches.ends {moves stirs : Nat} {c : Config racers.length}
    (reaches : Reaches racers query moves stirs c) :
    moves ≤ 9 * racers.length + 4 + 4 * stirs ∧
      ((∃ outcome, c.waiter = .finished outcome) ∨
        ∃ c', Move (fun i => (racers.get i).name) (Reports racers query) c c') := by
  have bound := reaches.moves_le
  refine ⟨by omega, ?_⟩
  by_cases finished : ∃ outcome, c.waiter = .finished outcome
  · exact .inl finished
  · refine .inr (reaches.orderly.progress (fun off i => ?_) (not_exists.mp finished))
    exact ⟨_, .idle, ⟨nofun, nofun⟩, fun _ => rfl, rfl⟩

section InOrder

variable {n moves stirs : Nat} {names : Fin n → String} {May : Bool → Fin n → Call → Prop}
  {c : Config n} {i : Fin n} {call : Call}

/-- A racer that has reported may be done before anybody else goes on. -/
theorem Schedule.leave {name : String} {s : State} (schedule : Schedule names May moves stirs c)
    (arriving : c.waiter = .arriving) (stage : c.stage i = afterReport name call s) :
    ∃ moves' c', Schedule names May moves' stirs c' ∧ c'.waiter = .arriving ∧ c'.holder = none ∧
      c'.state = c.state ∧ ∀ j, j ≠ i → c'.stage j = c.stage j := by
  unfold afterReport at stage
  split at stage
  · have woken := schedule.move (.wake stage)
    have left := woken.move (.leave (by rw [stage_moveTo, if_pos rfl]))
    exact ⟨_, _, left, by simp [arriving, Waiter.wake], rfl, rfl, fun j other => by simp [other]⟩
  · have left := schedule.move (.leave stage)
    exact ⟨_, _, left, arriving, rfl, rfl, fun j other => by simp [other]⟩

/-- A racer that has not called yet may run, report and be done before anybody else goes on. -/
theorem Schedule.turn (schedule : Schedule names May moves stirs c)
    (arriving : c.waiter = .arriving)
    (free : c.holder = none) (runs : c.stage i = .running) (may : May false i call) :
    ∃ moves' c', Schedule names May moves' stirs c' ∧ c'.waiter = .arriving ∧ c'.holder = none ∧
      c'.state = call.apply (names i) c.state ∧ ∀ j, j ≠ i → c'.stage j = c.stage j := by
  have at' : ∀ (c : Config n) (stage : Stage), (c.moveTo i stage).stage i = stage := by simp
  have called := schedule.move (.call runs (by rw [arriving]; exact may))
  have entered := called.move (.enter (at' _ _) free)
  have reported := entered.move (.report (at' _ _))
  obtain ⟨moves', c', left, arriving', free', state, stages⟩ := reported.leave arriving (at' _ _)
  refine ⟨moves', c', left, arriving', free', state, fun j other => (stages j other).trans ?_⟩
  simp [other]

/-- The racers from some place on may report one after the other, as far as that is needed. -/
theorem Reaches.inOrder {c : Config racers.length} {k : Nat}
    (reaches : Reaches racers query moves stirs c)
    (suffix : racers.drop k = rest) (arriving : c.waiter = .arriving) (free : c.holder = none)
    (waiting : ∀ i : Fin racers.length, k ≤ i → c.stage i = .running) :
    ∃ moves' c', Reaches racers query moves' stirs c' ∧ c'.waiter = .arriving ∧ c'.holder = none ∧
      c'.state = runInOrder query c.state rest := by
  induction rest generalizing k moves c with
  | nil => exact ⟨moves, c, reaches, arriving, free, rfl⟩
  | cons r rest ih =>
    cases state : c.state with
    | decided winner isSat => exact ⟨moves, c, reaches, arriving, free, state⟩
    | running remaining =>
      have bound : k < racers.length := by
        by_contra outside
        rw [List.drop_eq_nil_of_le (Nat.le_of_not_lt outside)] at suffix
        cases suffix
      rw [List.drop_eq_getElem_cons bound] at suffix
      obtain ⟨rfl, others⟩ := List.cons.inj suffix
      have may : Reports racers query false ⟨k, bound⟩ (racers[k].run query .idle).call :=
        ⟨.idle, ⟨nofun, nofun⟩, fun _ => rfl, rfl⟩
      obtain ⟨moves₁, c₁, reaches₁, arriving₁, free₁, state₁, stages⟩ :=
        reaches.turn arriving free (waiting ⟨k, bound⟩ (Nat.le_refl k)) may
      rw [state, Call.apply_call] at state₁
      have still : ∀ i : Fin racers.length, k + 1 ≤ i → c₁.stage i = .running := by
        intro i later
        have other : i ≠ ⟨k, bound⟩ := fun same => absurd later (by simp [same])
        exact (stages i other).trans (waiting i (Nat.le_of_succ_le later))
      obtain ⟨moves', c', reaches', arriving', free', state'⟩ :=
        ih reaches₁ others arriving₁ free₁ still
      exact ⟨moves', c', reaches', arriving', free', state'.trans (by rw [state₁]; rfl)⟩

theorem isFinal_runInOrder (query : Term) (racers : List Racer) :
    (runInOrder query (.running racers.length) racers).isFinal = true := by
  induction racers with
  | nil => rfl
  | cons r rest ih =>
    show (runInOrder query ((State.running (rest.length + 1)).receive r.name (r.run query .idle))
      rest).isFinal = true
    have next : (∃ isSat, (State.running (rest.length + 1)).receive r.name (r.run query .idle) =
        .decided r.name isSat) ∨
        (State.running (rest.length + 1)).receive r.name (r.run query .idle) =
          .running rest.length := by
      rw [← Call.apply_call]
      cases (r.run query .idle).call with
      | decide isSat => exact .inl ⟨isSat, rfl⟩
      | abstain => exact .inr rfl
    obtain ⟨isSat, decided⟩ | running := next
    · rw [decided]
      cases rest <;> rfl
    · rw [running]
      exact ih

/-- What comes of the racers reporting in order is what the race answers in some interleaving. -/
theorem answers_run (racers : List Racer) (query : Term) :
    Answers racers query (run racers query) := by
  by_cases empty : racers = []
  · rw [empty]
    exact .noRacers rfl
  · cases sort : query.sort.expectBool with
    | error e =>
      have refused : run racers query = .error e := by
        rw [run, if_neg (by simpa using empty), sort]
        rfl
      exact refused ▸ .refused empty sort
    | ok u =>
      obtain ⟨moves, c, reaches, arriving, free, state⟩ :=
        Reaches.inOrder (Schedule.start : Reaches racers query 0 0 _) (k := 0) rfl rfl rfl
          fun _ _ => rfl
      have final : c.state.isFinal = true := state ▸ isFinal_runInOrder query racers
      have taken := reaches.move (.take (.inl arriving) free)
      have concluded := taken.move (.conclude rfl final)
      have answered := concluded.move (.answer rfl)
      have finished := answered.move (.callOff rfl)
      have ended : run racers query = answer c.state.winner? := by
        rw [run, if_neg (by simpa using empty), state]
        show (query.sort.expectBool >>= _) = _
        rw [bind_of_ok sort]
        show _ = answer (runInOrder query (.running racers.length) racers).winner?
        cases (runInOrder query (.running racers.length) racers).winner? <;> rfl
      exact ended ▸ .ended empty sort finished rfl

end InOrder

end FormulaGraph.Race

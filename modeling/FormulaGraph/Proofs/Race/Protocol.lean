import FormulaGraph.Race.Protocol
import Mathlib.Data.Fintype.Card
import Mathlib.Data.List.Nodup

/-!
What holds at every configuration of a race: one party at most has the lock; the state is what the
calls make of it in the order in which they took the lock; and the one who waits does not sleep over
an outcome.
-/

namespace FormulaGraph.Race

open Config

variable {n : Nat} {names : Fin n → String} {May : Bool → Fin n → Call → Prop} {c c' : Config n}
  {i j : Fin n} {call : Call} {order : List (Fin n × Call)}

namespace Stage

def locked : Stage → Bool
  | entered _ | waking _ _ | leaving _ _ => true
  | running | calling _ | done _ _ => false

/-- The call with which the racer has taken the lock. -/
def taken? : Stage → Option Call
  | entered call | waking call _ | leaving call _ | done call _ => some call
  | running | calling _ => none

/-- The call that has changed the state, and its answer. -/
def outcome? : Stage → Option (Call × Bool)
  | waking call won | leaving call won | done call won => some (call, won)
  | running | calling _ | entered _ => none

theorem eq_entered_iff {stage : Stage} {call : Call} :
    stage = .entered call ↔ stage.taken? = some call ∧ stage.outcome? = none := by
  cases stage <;> simp [taken?, outcome?]

/-- But for a racer that has just entered, who has taken the lock has changed the state. -/
theorem taken_ne_none_iff {stage : Stage} (other : ∀ call, stage ≠ .entered call) :
    stage.taken? ≠ none ↔ stage.outcome? ≠ none := by
  cases stage <;> simp_all [taken?, outcome?]

end Stage

namespace Waiter

def locked : Waiter → Bool
  | testing | retiring | leaving _ => true
  | arriving | asleep | woken | returned _ | finished _ => false

def result? : Waiter → Option (Option (String × Bool))
  | leaving result | returned result | finished result => some result
  | arriving | testing | retiring | asleep | woken => none

theorem locked_wake (w : Waiter) : w.wake.locked = w.locked := by
  cases w <;> rfl

theorem result_wake (w : Waiter) : w.wake.result? = w.result? := by
  cases w <;> rfl

theorem wake_ne_asleep (w : Waiter) : w.wake ≠ asleep := by
  cases w <;> nofun

theorem eq_retiring_of_wake {w : Waiter} (h : w.wake = retiring) : w = retiring := by
  cases w with
  | retiring => rfl
  | _ => cases h

end Waiter

/-- The first racer of a list of calls that decides, and its answer. -/
def firstDecision (order : List (Fin n × Call)) : Option (Fin n × Bool) :=
  order.findSome? fun (i, call) => call.answer?.map fun isSat => (i, isSat)

/-- The state that calls lead to, one after the other. -/
def replay (names : Fin n → String) (order : List (Fin n × Call)) : State :=
  order.foldl (fun s (i, call) => call.apply (names i) s) (.running n)

theorem firstDecision_append (order : List (Fin n × Call)) (i : Fin n) (call : Call) :
    firstDecision (order ++ [(i, call)]) =
      (firstDecision order).or (call.answer?.map fun isSat => (i, isSat)) := by
  rw [firstDecision, List.findSome?_append]
  cases call <;> rfl

theorem replay_append (order : List (Fin n × Call)) (i : Fin n) (call : Call) :
    replay names (order ++ [(i, call)]) = call.apply (names i) (replay names order) := by
  simp [replay]

/-- The first decision stands, and up to it every call is one racer less to wait for. -/
theorem replay_eq (names : Fin n → String) (order : List (Fin n × Call)) :
    replay names order =
      match firstDecision order with
      | some (i, isSat) => .decided (names i) isSat
      | none => .running (n - order.length) := by
  induction order using List.reverseRecOn with
  | nil => rfl
  | append_singleton order p ih =>
    obtain ⟨i, call⟩ := p
    rw [replay_append, firstDecision_append, ih]
    cases first : firstDecision order with
    | some decision => cases call <;> rfl
    | none =>
      cases call with
      | decide isSat => rfl
      | abstain =>
        simp only [Call.apply, State.abstain, Call.answer?, Option.map_none, Option.or_none,
          List.length_append, List.length_singleton, Nat.sub_sub]

theorem mem_of_firstDecision {isSat : Bool} (first : firstDecision order = some (i, isSat)) :
    (i, .decide isSat) ∈ order := by
  obtain ⟨⟨j, call⟩, member, found⟩ := List.exists_of_findSome?_eq_some first
  cases call with
  | decide b =>
    cases found
    exact member
  | abstain => cases found

/-- The lock is where the stages say. -/
structure Guarded (c : Config n) : Prop where
  racer : ∀ i, (c.stage i).locked = true ↔ c.holder = some (.racer i)
  waiter : c.waiter.locked = true ↔ c.holder = some .waiter

/-- The state, and what the calls answered, follow from the order of the calls. -/
structure Recorded (names : Fin n → String) (c : Config n) : Prop where
  taken : ∀ i call, (i, call) ∈ c.order ↔ (c.stage i).taken? = some call
  once : (c.order.map Prod.fst).Nodup
  settled : (∀ i call, c.stage i ≠ .entered call) → c.state = replay names c.order
  entered : ∀ i call, c.stage i = .entered call →
    ∃ earlier, c.order = earlier ++ [(i, call)] ∧ c.state = replay names earlier
  won : ∀ i call won, (c.stage i).outcome? = some (call, won) →
    (won = true ↔ ∃ isSat, call = .decide isSat ∧ firstDecision c.order = some (i, isSat))

/-- What a result says about the calls. -/
def Concludes (names : Fin n → String) (order : List (Fin n × Call)) :
    Option (String × Bool) → Prop
  | some (winner, isSat) => ∃ i, names i = winner ∧ firstDecision order = some (i, isSat)
  | none => ∀ i, (i, .abstain) ∈ order

/-- The one who waits sees the outcome, or is about to be woken. -/
structure Watched (names : Fin n → String) (c : Config n) : Prop where
  retiring : c.waiter = .retiring → c.state.isFinal = false
  asleep : c.waiter = .asleep → c.state.isFinal = true →
    ∃ i call won, c.stage i = .waking call won
  concludes : ∀ result, c.waiter.result? = some result → Concludes names c.order result

theorem guarded_start (n : Nat) : Guarded (.start n) := by
  constructor <;> simp [Config.start, Stage.locked, Waiter.locked]

theorem locked_afterReport (name : String) (call : Call) (s : State) :
    (afterReport name call s).locked = true := by
  unfold afterReport
  split <;> rfl

theorem taken_afterReport (name : String) (call : Call) (s : State) :
    (afterReport name call s).taken? = some call := by
  unfold afterReport
  split <;> rfl

theorem outcome_afterReport (name : String) (call : Call) (s : State) :
    (afterReport name call s).outcome? = some (call, call.wins name s) := by
  unfold afterReport
  split <;> rfl

theorem Guarded.move (guarded : Guarded c) (move : Move names May c c') : Guarded c' := by
  obtain ⟨racer, waiter⟩ := guarded
  cases move with
  | @report i call entered =>
    have stays := locked_afterReport (names i) call c.state
    constructor <;> grind [Stage.locked]
  | wake =>
    have same := c.waiter.locked_wake
    constructor <;> grind [Stage.locked]
  | call | enter | leave | take | conclude | retire | sleep | answer | callOff =>
    constructor <;> grind [Stage.locked, Waiter.locked]

theorem Guarded.stir (guarded : Guarded c) (stir : Stir c c') : Guarded c' := by
  obtain ⟨racer, waiter⟩ := guarded
  cases stir
  constructor <;> grind [Waiter.locked]

theorem Guarded.alone (guarded : Guarded c) (hi : (c.stage i).locked = true)
    (hj : (c.stage j).locked = true) : i = j := by
  have same := (guarded.racer i).mp hi
  rw [(guarded.racer j).mp hj] at same
  cases same
  rfl

theorem recorded_start (names : Fin n → String) : Recorded names (.start n) := by
  constructor <;> simp [Config.start, Stage.taken?, Stage.outcome?, replay]

theorem wins_iff {earlier : List (Fin n × Call)} (fresh : i ∉ earlier.map Prod.fst) :
    call.wins (names i) (replay names earlier) = true ↔
      ∃ isSat, call = .decide isSat ∧ firstDecision (earlier ++ [(i, call)]) = some (i, isSat) := by
  rw [replay_eq, firstDecision_append]
  cases first : firstDecision earlier with
  | none => cases call <;> simp [Call.wins, State.decide, Call.answer?]
  | some decision =>
    obtain ⟨j, b⟩ := decision
    have other : j ≠ i := by
      rintro rfl
      exact fresh (List.mem_map_of_mem (mem_of_firstDecision first))
    cases call <;> simp [Call.wins, State.decide, other]

theorem firstDecision_later {isSat : Bool} (other : j ≠ i) :
    firstDecision (order ++ [(i, call)]) = some (j, isSat) ↔
      firstDecision order = some (j, isSat) := by
  rw [firstDecision_append]
  cases first : firstDecision order with
  | some decision => rfl
  | none => cases call <;> simp [Call.answer?, other.symm]

/-- Nothing has happened to the state, and no racer has taken the lock. -/
theorem Recorded.congr (recorded : Recorded names c) (state : c'.state = c.state)
    (order : c'.order = c.order) (taken : ∀ i, (c'.stage i).taken? = (c.stage i).taken?)
    (outcome : ∀ i, (c'.stage i).outcome? = (c.stage i).outcome?) : Recorded names c' := by
  have entered : ∀ i call, c'.stage i = .entered call ↔ c.stage i = .entered call := by
    simp [Stage.eq_entered_iff, taken, outcome]
  obtain ⟨_, _, _, _, _⟩ := recorded
  constructor <;> grind

theorem Recorded.enter (guarded : Guarded c) (recorded : Recorded names c)
    (calls : c.stage i = .calling call) (free : c.holder = none) :
    Recorded names
      { c.moveTo i (.entered call) with
        holder := some (.racer i), order := c.order ++ [(i, call)] } := by
  have idle : ∀ j, (c.stage j).locked = false := by grind [guarded.racer]
  have absent : ∀ call, (i, call) ∉ c.order := by grind [recorded.taken, Stage.taken?]
  have quiet : ∀ j call, c.stage j ≠ .entered call := by grind [Stage.locked]
  have settled := recorded.settled quiet
  constructor
  · grind [recorded.taken, Stage.taken?]
  · grind [recorded.once]
  · exact fun nobody => absurd (by simp) (nobody i call)
  · intro j call' enters
    by_cases same : j = i
    · subst same
      exact ⟨c.order, by simpa using enters, settled⟩
    · exact absurd (by simpa [same] using enters) (quiet j call')
  · intro j call' won outcome
    have other : j ≠ i := by grind [Stage.outcome?]
    simp only [firstDecision_later other]
    exact recorded.won j call' won (by simpa [other] using outcome)

theorem Recorded.report (guarded : Guarded c) (recorded : Recorded names c)
    (entered : c.stage i = .entered call) :
    Recorded names
      { c.moveTo i (afterReport (names i) call c.state) with
        state := call.apply (names i) c.state } := by
  obtain ⟨earlier, ordered, state⟩ := recorded.entered i call entered
  have alone : ∀ j call', c.stage j = .entered call' → j = i := fun j call' also =>
    guarded.alone (by rw [also]; rfl) (by rw [entered]; rfl)
  have taken := taken_afterReport (names i) call c.state
  have outcome := outcome_afterReport (names i) call c.state
  have once := recorded.once
  constructor
  · grind [recorded.taken, Stage.taken?]
  · exact once
  · intro _
    show call.apply (names i) c.state = replay names c.order
    rw [ordered, replay_append, state]
  · grind [Stage.taken?, Stage.outcome?]
  · intro j call' won found
    by_cases same : j = i
    · subst same
      rw [stage_moveTo, if_pos rfl, outcome] at found
      cases found
      show _ ↔ ∃ isSat, call = .decide isSat ∧ firstDecision c.order = some (j, isSat)
      rw [state, ordered]
      refine wins_iff ?_
      grind
    · exact recorded.won j call' won (by simpa [same] using found)

theorem Recorded.move (guarded : Guarded c) (recorded : Recorded names c)
    (move : Move names May c c') : Recorded names c' := by
  cases move with
  | enter calls free => exact recorded.enter guarded calls free
  | report entered => exact recorded.report guarded entered
  | call | wake | leave | take | conclude | retire | sleep | answer | callOff =>
    refine recorded.congr rfl rfl ?_ ?_ <;> grind [Stage.taken?, Stage.outcome?]

theorem Recorded.stir (recorded : Recorded names c) (stir : Stir c c') : Recorded names c' := by
  cases stir
  exact recorded.congr rfl rfl (fun _ => rfl) fun _ => rfl

theorem Recorded.all_abstained (recorded : Recorded names c) (nobody : firstDecision c.order = none)
    (full : n ≤ c.order.length) (i : Fin n) : (i, .abstain) ∈ c.order := by
  have card := List.toFinset_card_of_nodup recorded.once
  have bound := Finset.card_le_univ (c.order.map Prod.fst).toFinset
  rw [card, List.length_map, Fintype.card_fin] at bound
  have all : (c.order.map Prod.fst).toFinset = Finset.univ := by
    rw [← Finset.card_eq_iff_eq_univ, card, List.length_map, Fintype.card_fin]
    omega
  have member : i ∈ (c.order.map Prod.fst).toFinset := all ▸ Finset.mem_univ i
  rw [List.mem_toFinset, List.mem_map] at member
  obtain ⟨⟨j, call⟩, listed, rfl⟩ := member
  have silent := List.findSome?_eq_none_iff.mp nobody _ listed
  cases call with
  | decide isSat => cases silent
  | abstain => exact listed

theorem Recorded.concludes (recorded : Recorded names c) (state : c.state = replay names c.order)
    (final : c.state.isFinal = true) : Concludes names c.order c.state.winner? := by
  rw [state, replay_eq] at final ⊢
  cases first : firstDecision c.order with
  | some decision => exact ⟨decision.1, rfl, first⟩
  | none =>
    rw [first] at final
    exact recorded.all_abstained first (Nat.sub_eq_zero_iff_le.mp (of_decide_eq_true final))

theorem Concludes.append {result : Option (String × Bool)}
    (concludes : Concludes names order result)
    (i : Fin n) (call : Call) : Concludes names (order ++ [(i, call)]) result := by
  cases result with
  | none => exact fun j => List.mem_append_left _ (concludes j)
  | some answer =>
    obtain ⟨j, winner, first⟩ := concludes
    exact ⟨j, winner, by rw [firstDecision_append, first]; rfl⟩

theorem watched_start (names : Fin n → String) : Watched names (.start n) :=
  ⟨nofun, nofun, nofun⟩

theorem wakes_of_final {name : String} {s : State} (pending : s.isFinal = false)
    (final : (call.apply name s).isFinal = true) : call.wakes name s = true := by
  cases s with
  | decided w b => cases pending
  | running remaining =>
    cases call with
    | decide isSat => rfl
    | abstain => exact final

theorem Watched.report (guarded : Guarded c) (watched : Watched names c)
    (entered : c.stage i = .entered call) :
    Watched names
      { c.moveTo i (afterReport (names i) call c.state) with
        state := call.apply (names i) c.state } := by
  have locked : (c.stage i).locked = true := by rw [entered]; rfl
  have holder := (guarded.racer i).mp locked
  refine ⟨fun retiring => ?_, fun asleep final => ?_, watched.concludes⟩
  · -- The one who retires has the lock.
    have holder' := guarded.waiter.mp (by rw [show c.waiter = .retiring from retiring]; rfl)
    rw [holder] at holder'
    cases holder'
  · have pending : c.state.isFinal = false := by
      cases before : c.state.isFinal with
      | false => rfl
      | true =>
        obtain ⟨j, call', won, wakes⟩ := watched.asleep asleep before
        obtain rfl := guarded.alone locked (by rw [wakes]; rfl)
        rw [entered] at wakes
        cases wakes
    have wakes := wakes_of_final pending final
    refine ⟨i, call, call.wins (names i) c.state, ?_⟩
    show (c.moveTo i _).stage i = _
    rw [stage_moveTo, if_pos rfl, afterReport, if_pos wakes]

theorem Watched.moveTo (watched : Watched names c) {stage : Stage}
    (other : ∀ call won, c.stage i ≠ .waking call won) (state : c'.state = c.state)
    (waiter : c'.waiter = c.waiter) (stages : c'.stage = (c.moveTo i stage).stage)
    (concludes : ∀ result, Concludes names c.order result → Concludes names c'.order result) :
    Watched names c' := by
  refine ⟨?_, ?_, ?_⟩
  · rw [waiter, state]
    exact watched.retiring
  · rw [waiter, state, stages]
    intro asleep final
    obtain ⟨j, call, won, wakes⟩ := watched.asleep asleep final
    have differs : j ≠ i := by
      rintro rfl
      exact other call won wakes
    exact ⟨j, call, won, by rw [stage_moveTo, if_neg differs, wakes]⟩
  · rw [waiter]
    exact fun result found => concludes result (watched.concludes result found)

theorem Watched.move (guarded : Guarded c) (recorded : Recorded names c)
    (watched : Watched names c) (move : Move names May c c') : Watched names c' := by
  cases move with
  | call runs may => exact watched.moveTo (by simp [runs]) rfl rfl rfl fun _ h => h
  | enter calls free =>
    exact watched.moveTo (by simp [calls]) rfl rfl rfl fun _ h => h.append _ _
  | report entered => exact watched.report guarded entered
  | wake wakes =>
    refine ⟨fun retires => watched.retiring (Waiter.eq_retiring_of_wake retires), ?_, ?_⟩
    · exact fun asleep => absurd asleep c.waiter.wake_ne_asleep
    · exact fun result found => watched.concludes result (c.waiter.result_wake ▸ found)
  | leave leaves => exact watched.moveTo (by simp [leaves]) rfl rfl rfl fun _ h => h
  | take | retire | sleep | answer | callOff =>
    obtain ⟨retiring, asleep, concludes⟩ := watched
    constructor <;> grind [Waiter.result?]
  | conclude tests final =>
    have holder := guarded.waiter.mp (by rw [tests]; rfl)
    have quiet : ∀ i call, c.stage i ≠ .entered call := by
      intro i call entered
      have holder' := (guarded.racer i).mp (by rw [entered]; rfl)
      rw [holder] at holder'
      cases holder'
    refine ⟨nofun, nofun, fun result found => ?_⟩
    cases found
    exact recorded.concludes (recorded.settled quiet) final

theorem watched_stir (stir : Stir c c') : Watched names c' := by
  cases stir
  exact ⟨nofun, nofun, nofun⟩

/-- What holds at every configuration of a schedule. -/
structure Orderly (names : Fin n → String) (c : Config n) : Prop where
  guarded : Guarded c
  recorded : Recorded names c
  watched : Watched names c

theorem Schedule.orderly {moves stirs : Nat} (schedule : Schedule names May moves stirs c) :
    Orderly names c := by
  induction schedule with
  | start => exact ⟨guarded_start n, recorded_start names, watched_start names⟩
  | move _ move ih =>
    obtain ⟨guarded, recorded, watched⟩ := ih
    exact ⟨guarded.move move, recorded.move guarded move, watched.move guarded recorded move⟩
  | stir _ stir ih =>
    exact ⟨ih.guarded.stir stir, ih.recorded.stir stir, watched_stir stir⟩

end FormulaGraph.Race

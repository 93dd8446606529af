import FormulaGraph.Proofs.Race.Protocol

/-!
The outcome of a race is its first decision: it stands, nobody else is told to have decided, and the
one who waits learns of it without fail.
-/

namespace FormulaGraph.Race

open Config

variable {n : Nat} {names : Fin n → String} {May : Bool → Fin n → Call → Prop} {c c' : Config n}
  {i j : Fin n} {call : Call} {winner : String} {isSat : Bool}

/-- Nothing takes a decision back. -/
theorem decided_move (decided : c.state = .decided winner isSat) (move : Move names May c c') :
    c'.state = .decided winner isSat := by
  cases move with
  | @report i call entered =>
    show call.apply (names i) c.state = _
    rw [decided]
    cases call <;> rfl
  | call | enter | wake | leave | take | conclude | retire | sleep | answer | callOff =>
    exact decided

theorem decided_later (decided : c.state = .decided winner isSat) (later : Later names May c c') :
    c'.state = .decided winner isSat := by
  induction later with
  | refl => exact decided
  | tail _ step ih =>
    cases step with
    | inl move => exact decided_move ih move
    | inr stir =>
      cases stir
      exact ih

theorem Recorded.reported (guarded : Guarded c) (recorded : Recorded names c) :
    ∃ reported : List (Fin n × Call), (reported.map Prod.fst).Nodup ∧
      c.state = replay names reported ∧
      ∀ j, j ∈ reported.map Prod.fst ↔ (c.stage j).outcome? ≠ none := by
  have listed : ∀ j, j ∈ c.order.map Prod.fst ↔ (c.stage j).taken? ≠ none := by
    intro j
    simp [recorded.taken, Option.ne_none_iff_exists']
  by_cases quiet : ∀ i call, c.stage i ≠ .entered call
  · refine ⟨c.order, recorded.once, recorded.settled quiet, fun j => ?_⟩
    rw [listed, Stage.taken_ne_none_iff (quiet j)]
  · push Not at quiet
    obtain ⟨i, call, entered⟩ := quiet
    obtain ⟨earlier, ordered, state⟩ := recorded.entered i call entered
    have once := recorded.once
    rw [ordered, List.map_append, List.nodup_append] at once
    refine ⟨earlier, once.1, state, fun j => ?_⟩
    by_cases same : j = i
    · subst same
      have absent : j ∉ earlier.map Prod.fst := fun member => once.2.2 j member j (by simp) rfl
      simp [absent, entered, Stage.outcome?]
    · have listed := listed j
      rw [ordered, List.map_append, List.mem_append, or_iff_left (by simpa using same)] at listed
      rw [listed, Stage.taken_ne_none_iff fun call' also =>
        same (guarded.alone (by rw [also]; rfl) (by rw [entered]; rfl))]

/-- The racers that have not changed the state yet. -/
def unreported (c : Config n) : Finset (Fin n) :=
  Finset.univ.filter fun i => (c.stage i).outcome? = none

/-- As long as nobody has decided, the racers that have not reported are counted. -/
theorem Recorded.remaining (guarded : Guarded c) (recorded : Recorded names c) {remaining : Nat}
    (running : c.state = .running remaining) : remaining = (unreported c).card := by
  obtain ⟨reported, once, state, outcomes⟩ := recorded.reported guarded
  have others : unreported c = (reported.map Prod.fst).toFinsetᶜ := by
    ext j
    simp only [unreported, Finset.mem_filter, Finset.mem_univ, true_and, Finset.mem_compl,
      List.mem_toFinset, outcomes, not_not]
  rw [others, Finset.card_compl, Fintype.card_fin, List.toFinset_card_of_nodup once,
    List.length_map]
  rw [running, replay_eq] at state
  split at state
  · cases state
  · cases state
    rfl

/-- In whatever order racers report and the one who waits looks, sleeps and wakes: at most one call
is told that it decided the race, and it is the first decision in the order of the lock; that
decision stands; as long as there is none, the racers that have not reported are counted, so that
nothing is taken from zero; the one who waits learns of just that decision, or that all have
abstained; and it does not sleep over an outcome unless a racer is about to wake it. -/
theorem first_decision_stands {moves stirs : Nat} (schedule : Schedule names May moves stirs c) :
    (∀ i j call call', (c.stage i).outcome? = some (call, true) →
      (c.stage j).outcome? = some (call', true) → i = j) ∧
    (∀ i call won, (c.stage i).outcome? = some (call, won) →
      (won = true ↔ ∃ isSat, call = .decide isSat ∧ firstDecision c.order = some (i, isSat))) ∧
    (∀ winner isSat c', c.state = .decided winner isSat → Later names May c c' →
      c'.state = .decided winner isSat) ∧
    (∀ remaining, c.state = .running remaining → remaining = (unreported c).card) ∧
    (∀ i remaining, c.stage i = .entered .abstain → c.state = .running remaining →
      0 < remaining) ∧
    (∀ winner isSat, c.waiter.result? = some (some (winner, isSat)) →
      ∃ i, names i = winner ∧ firstDecision c.order = some (i, isSat)) ∧
    (c.waiter.result? = some none → ∀ i, (i, .abstain) ∈ c.order) ∧
    (c.waiter = .asleep → c.state.isFinal = true → ∃ i call won, c.stage i = .waking call won) := by
  obtain ⟨guarded, recorded, watched⟩ := schedule.orderly
  refine ⟨?_, recorded.won, fun winner isSat c' => decided_later,
    fun remaining => recorded.remaining guarded, ?_, fun winner isSat => watched.concludes _,
    watched.concludes none, watched.asleep⟩
  · intro i j call call' hi hj
    obtain ⟨b, -, first⟩ := (recorded.won i call true hi).mp rfl
    obtain ⟨b', -, first'⟩ := (recorded.won j call' true hj).mp rfl
    rw [first] at first'
    cases first'
    rfl
  · intro i remaining entered running
    have member : i ∈ unreported c := by
      rw [unreported, Finset.mem_filter, entered]
      exact ⟨Finset.mem_univ i, rfl⟩
    rw [recorded.remaining guarded running]
    exact Finset.card_pos.mpr ⟨i, member⟩

/-- The one who waits has gone to sleep before a racer decides, which is about to wake it. -/
theorem first_decision_stands_asleep :
    ∃ c : Config 2, Schedule (fun i => if i = 0 then "a" else "b") (fun _ _ _ => True) 6 0 c ∧
      c.waiter = .asleep ∧ c.state = .decided "b" true ∧ ∃ i call won,
        c.stage i = .waking call won := by
  have asleep : Schedule (fun i : Fin 2 => if i = 0 then "a" else "b") (fun _ _ _ => True) 3 0
      { Config.start 2 with waiter := .asleep } :=
    Schedule.start.move (.take (.inl rfl) rfl) |>.move (.retire rfl rfl) |>.move (.sleep rfl)
  have called : Schedule _ _ 4 0 (Config.moveTo _ 1 (.calling (.decide true))) :=
    asleep.move (.call rfl trivial)
  have decided := (called.move (.enter (i := 1) rfl rfl)).move (.report (i := 1) rfl)
  exact ⟨_, decided, rfl, rfl, (first_decision_stands decided).2.2.2.2.2.2.2 rfl rfl⟩

end FormulaGraph.Race

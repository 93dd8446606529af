import FormulaGraph.Proofs.Enumeration.Assumptions
import FormulaGraph.Proofs.Enumeration.Checks

/-!
What a token can do to a check. It puts an end to the check, or it was never found raised, and then
the check is the one that has no token. The search looks at its token only before an assignment, and
only after all assignments before were tried in vain.
-/

namespace FormulaGraph

variable {store : NodeStore} {slots : List Slot} {formulas : List Handle} {token : CancelToken}
  {limit counter : Nat}

namespace Search

/-- The assignment of the counter is tried in vain: some formula fails under it. -/
def Rejects (store : NodeStore) (formulas : List Handle) (slots : List Slot) (n : Nat) : Prop :=
  ∃ env, Slot.assign slots n = .ok env ∧ allHold store env formulas = .ok false

/-- The search from a counter on comes to its nth look at the token, if it is not put an end to
before. -/
def Reaches (store : NodeStore) (formulas : List Handle) (slots : List Slot)
    (limit counter n : Nat) : Prop :=
  counter ≤ n * pollInterval ∧ n * pollInterval < limit ∧
    ∀ m, counter ≤ m → m < n * pollInterval → Rejects store formulas slots m

/-- The search finds its token raised at a counter just if that is the counter of a look at which it
is. -/
theorem raised_iff : (counter % pollInterval = 0 && token.atPoll (counter / pollInterval)) = true ↔
    ∃ n, token.atPoll n = true ∧ counter = n * pollInterval := by
  have positive : 0 < pollInterval := by decide
  rw [Bool.and_eq_true, decide_eq_true_eq]
  constructor
  · rintro ⟨looked, found⟩
    exact ⟨_, found, (Nat.div_mul_cancel (Nat.dvd_of_mod_eq_zero looked)).symm⟩
  · rintro ⟨n, found, rfl⟩
    rw [Nat.mul_div_cancel _ positive]
    exact ⟨Nat.mul_mod_left _ _, found⟩

/-- A search is cut short just by a token that it finds raised at a look to which it comes. -/
theorem tryFrom_eq_cutShort_iff :
    tryFrom store formulas slots token limit counter = .ok .cutShort ↔
      ∃ n, token.atPoll n = true ∧ Reaches store formulas slots limit counter n := by
  induction counter using tryFrom.induct token limit with
  | case1 counter below raised =>
    rw [tryFrom, if_pos below, if_pos raised]
    obtain ⟨n, found, rfl⟩ := raised_iff.mp raised
    exact iff_of_true rfl ⟨n, found, Nat.le_refl _, below, fun m ge lt =>
      absurd lt (Nat.not_lt.mpr ge)⟩
  | case2 counter below idle ih =>
    rw [tryFrom, if_pos below, if_neg idle]
    constructor
    · intro cut
      obtain ⟨env, assigned, cut⟩ := ok_of_bind cut
      obtain ⟨holds, tested, cut⟩ := ok_of_bind cut
      cases holds with
      | true => cases cut
      | false =>
        obtain ⟨n, found, from_, upto, rejected⟩ := ih.mp cut
        refine ⟨n, found, Nat.le_of_succ_le from_, upto, fun m ge lt => ?_⟩
        cases Nat.eq_or_lt_of_le ge with
        | inl same => exact same ▸ ⟨env, assigned, tested⟩
        | inr later => exact rejected m later lt
    · rintro ⟨n, found, from_, upto, rejected⟩
      have later : counter < n * pollInterval :=
        Nat.lt_of_le_of_ne from_ fun same => idle (raised_iff.mpr ⟨n, found, same⟩)
      obtain ⟨env, assigned, tested⟩ := rejected counter (Nat.le_refl _) later
      rw [bind_of_ok assigned, bind_of_ok tested]
      exact ih.mpr ⟨n, found, later, upto, fun m ge => rejected m (Nat.le_of_succ_le ge)⟩
  | case3 counter done =>
    rw [tryFrom, if_neg done]
    refine iff_of_false (fun cut => by cases cut) ?_
    rintro ⟨n, _, from_, upto, _⟩
    exact done (Nat.lt_of_le_of_lt from_ upto)

theorem tryFrom_idle (whole : tryFrom store formulas slots token limit counter ≠ .ok .cutShort) :
    tryFrom store formulas slots token limit counter =
      tryFrom store formulas slots .idle limit counter := by
  induction counter using tryFrom.induct token limit with
  | case1 counter below raised =>
    rw [tryFrom, if_pos below, if_pos raised] at whole
    exact absurd rfl whole
  | case2 counter below idle ih =>
    have unraised : ¬ (counter % pollInterval = 0 &&
        CancelToken.idle.atPoll (counter / pollInterval)) = true := by simp [CancelToken.idle]
    unfold tryFrom at whole ⊢
    rw [if_pos below, if_neg idle] at whole ⊢
    rw [if_pos below, if_neg unraised]
    cases assigned : Slot.assign slots counter with
    | error err => rfl
    | ok env =>
      rw [assigned, bind_of_ok rfl] at whole
      rw [bind_of_ok rfl, bind_of_ok rfl]
      cases tested : allHold store env formulas with
      | error err => rfl
      | ok holds =>
        rw [tested, bind_of_ok rfl] at whole
        rw [bind_of_ok rfl, bind_of_ok rfl]
        cases holds with
        | true => rfl
        | false => exact ih whole
  | case3 counter done =>
    unfold tryFrom
    rw [if_neg done, if_neg done]

/-- The search for formulas gets under way and comes to its nth look at the token, if it is not put
an end to before. -/
def Looks (store : NodeStore) (formulas : List Handle) (n : Nat) : Prop :=
  ∃ ts slots, store.symbolsOf formulas = .ok ts ∧ Slot.layout store 0 ts = .ok slots ∧
    Slot.total slots ≤ maxBits ∧ Reaches store formulas slots (2 ^ Slot.total slots) 0 n

theorem run_eq_cutShort_iff :
    run store formulas token = .ok .cutShort ↔ ∃ n, token.atPoll n = true ∧
      Looks store formulas n := by
  constructor
  · intro cut
    obtain ⟨ts, slots, listed, laid, few, searched⟩ := run_ok cut
    obtain ⟨n, found, reaches⟩ := tryFrom_eq_cutShort_iff.mp searched
    exact ⟨n, found, ts, slots, listed, laid, few, reaches⟩
  · rintro ⟨n, found, ts, slots, listed, laid, few, reaches⟩
    rw [run_of_few listed laid few]
    exact tryFrom_eq_cutShort_iff.mpr ⟨n, found, reaches⟩

theorem run_idle (whole : run store formulas token ≠ .ok .cutShort) :
    run store formulas token = run store formulas .idle := by
  unfold run at whole ⊢
  cases listed : store.symbolsOf formulas with
  | error err => rfl
  | ok ts =>
    rw [listed, bind_of_ok rfl] at whole
    rw [bind_of_ok rfl, bind_of_ok rfl]
    cases laid : Slot.layout store 0 ts with
    | error err => rfl
    | ok slots =>
      rw [laid, bind_of_ok rfl] at whole
      rw [bind_of_ok rfl, bind_of_ok rfl]
      cases summed : within UInt64.size (Slot.total slots) with
      | error err => rfl
      | ok bits =>
        rw [summed, bind_of_ok rfl] at whole
        rw [bind_of_ok rfl, bind_of_ok rfl]
        dsimp only at whole ⊢
        by_cases few : bits > maxBits
        · rw [if_pos few, if_pos few]
          rfl
        · rw [if_neg few] at whole
          rw [if_neg few, if_neg few, tryFrom_idle whole]

end Search

namespace Enumerator

open FormulaGraph.Action

variable {e : Enumerator} {extra : List Handle}

/-- A check comes to an end because of its token: it is found raised while the engine stalls, or at
a look to which the search comes. -/
def Interrupted (e : Enumerator) (extra : List Handle) (token : CancelToken) : Prop :=
  0 < e.delay ∧ token.whileStalled = true ∨
    ∃ n, token.atPoll n = true ∧ Search.Looks e.store (e.scopes.active ++ extra) n

theorem check_of_interrupted (interrupted : e.Interrupted extra token) :
    check extra token e = .ok .unknown e.forget := by
  have forgets : (modify forget : Action Enumerator Unit) e = .ok () e.forget := rfl
  have gets : (get : Action Enumerator Enumerator) e.forget = .ok e.forget e.forget := rfl
  rw [check, bind_ok forgets, bind_ok gets]
  by_cases stalled : (0 < e.forget.delay && token.whileStalled) = true
  · rw [if_pos stalled]
    rfl
  · obtain ⟨slow, raised⟩ | looks := interrupted
    · exact absurd (by simp [forget, slow, raised]) stalled
    · have searched : e.forget.search extra token = .ok .cutShort :=
        Search.run_eq_cutShort_iff.mpr looks
      rw [if_neg stalled, searched]
      rfl

theorem check_of_not_interrupted (whole : ¬ e.Interrupted extra token) :
    check extra token e = check extra .idle e := by
  have forgets : (modify forget : Action Enumerator Unit) e = .ok () e.forget := rfl
  have gets : (get : Action Enumerator Enumerator) e.forget = .ok e.forget e.forget := rfl
  have moves : ¬ (0 < e.forget.delay && token.whileStalled) = true := by
    rw [Bool.and_eq_true, decide_eq_true_eq]
    exact fun stalled => whole (.inl stalled)
  have searched : e.forget.search extra token = e.forget.search extra .idle :=
    Search.run_idle fun cut => whole (.inr (Search.run_eq_cutShort_iff.mp cut))
  rw [check, check, bind_ok forgets, bind_ok gets, bind_ok forgets, bind_ok gets, if_neg moves,
    if_neg (by simp [CancelToken.idle]), searched]

theorem check_ne_unknown {e' : Enumerator} : check extra .idle e ≠ .ok .unknown e' :=
  fun answered => ((leads_check e extra .idle).answer answered).2.decides rfl

/-- A token never changes what a check tells. Whatever is found at the looks at it, the check either
is put an end to, and then it is unknown whether there is a model, with no model and no core at
hand; or it ends just as it would have done without a token, in the same state and with the same
answer or error. The former is so just if the token is found raised while the engine stalls, or at
some look before which every assignment was tried in vain; and it can be told from the latter, which
never leaves the answer open. -/
theorem checkSatInterruptible_safe (e : Enumerator) (token : CancelToken) :
    (e.Interrupted [] token ∧ Engine.checkSatInterruptible token e =
        EStateM.Result.ok Verdict.unknown { e with model := none, core := [] } ∨
      ¬ e.Interrupted [] token ∧ Engine.checkSatInterruptible token e =
        (Engine.checkSat : Action Enumerator Verdict) e) ∧
    ∀ e', (Engine.checkSat : Action Enumerator Verdict) e ≠
      EStateM.Result.ok Verdict.unknown e' := by
  refine ⟨?_, fun e' => check_ne_unknown⟩
  by_cases interrupted : e.Interrupted [] token
  · exact .inl ⟨interrupted, check_of_interrupted interrupted⟩
  · exact .inr ⟨interrupted, check_of_not_interrupted interrupted⟩

end Enumerator

end FormulaGraph

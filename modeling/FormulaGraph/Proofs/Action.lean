import FormulaGraph.Action

/-!
How an action that is made of parts runs: what comes after a part starts where the part ended, or
never, if it failed. `Action.Leads` says what is known of an action at a state however it ends.
-/

namespace FormulaGraph.Action

section Sequences

variable {ε σ α β : Type} {act : EStateM ε σ α} {next : α → EStateM ε σ β} {s s' : σ}

theorem bind_ok {a : α} (h : act s = .ok a s') : (act >>= next) s = next a s' := by
  simp only [bind, EStateM.bind, h]

theorem bind_error {e : ε} (h : act s = .error e s') : (act >>= next) s = .error e s' := by
  simp only [bind, EStateM.bind, h]

theorem of_bind_ok {b : β} {s'' : σ} (h : (act >>= next) s = .ok b s'') :
    ∃ a s', act s = .ok a s' ∧ next a s' = .ok b s'' := by
  cases first : act s with
  | ok a s' => exact ⟨a, s', rfl, (bind_ok first).symm.trans h⟩
  | error e s' => cases (bind_error first).symm.trans h

theorem map_ok {f : α → β} {a : α} (h : act s = .ok a s') : (f <$> act) s = .ok (f a) s' := by
  simp only [Functor.map, EStateM.map, h]

theorem map_error {f : α → β} {e : ε} (h : act s = .error e s') :
    (f <$> act) s = .error e s' := by
  simp only [Functor.map, EStateM.map, h]

theorem of_map_ok {f : α → β} {b : β} (h : (f <$> act) s = .ok b s') :
    ∃ a, act s = .ok a s' ∧ f a = b := by
  cases run : act s with
  | ok a s'' =>
    cases (map_ok run).symm.trans h
    exact ⟨a, rfl, rfl⟩
  | error e s'' => cases (map_error run).symm.trans h

theorem of_map_error {f : α → β} {e : ε} (h : (f <$> act) s = .error e s') :
    act s = .error e s' := by
  cases run : act s with
  | ok a s'' => cases (map_ok run).symm.trans h
  | error e' s'' =>
    cases (map_error run).symm.trans h
    rfl

theorem of_bind_error {e : ε} {s'' : σ} (h : (act >>= next) s = .error e s'') :
    act s = .error e s'' ∨ ∃ a s', act s = .ok a s' ∧ next a s' = .error e s'' := by
  cases first : act s with
  | ok a s' => exact .inr ⟨a, s', rfl, (bind_ok first).symm.trans h⟩
  | error e' s' =>
    cases (bind_error first).symm.trans h
    exact .inl rfl

/-- The action does not fail at the state, and the answer is as it should be. -/
def Succeeds (act : EStateM ε σ α) (s : σ) (post : α → σ → Prop) : Prop :=
  ∃ a s', act s = .ok a s' ∧ post a s'

theorem Succeeds.bind {post : α → σ → Prop} {goal : β → σ → Prop} (first : Succeeds act s post)
    (rest : ∀ a s', post a s' → Succeeds (next a) s' goal) : Succeeds (act >>= next) s goal := by
  obtain ⟨a, s', run, holds⟩ := first
  rw [Succeeds, bind_ok run]
  exact rest a s' holds

theorem Succeeds.mono {post goal : α → σ → Prop} (succeeds : Succeeds act s post)
    (weaker : ∀ a s', post a s' → goal a s') : Succeeds act s goal := by
  obtain ⟨a, s', run, holds⟩ := succeeds
  exact ⟨a, s', run, weaker a s' holds⟩

theorem Succeeds.of_bind {goal : β → σ → Prop} (succeeds : Succeeds (act >>= next) s goal) :
    Succeeds act s fun _ _ => True := by
  obtain ⟨b, s'', run, -⟩ := succeeds
  obtain ⟨a, s', first, -⟩ := of_bind_ok run
  exact ⟨a, s', first, trivial⟩

theorem succeeds_map_iff {f : α → β} :
    (Succeeds (f <$> act) s fun _ _ => True) ↔ Succeeds act s fun _ _ => True := by
  constructor
  · rintro ⟨b, s', run, -⟩
    cases h : act s with
    | ok a s'' => exact ⟨a, s'', h, trivial⟩
    | error e s'' => cases (map_error h).symm.trans run
  · rintro ⟨a, s', run, -⟩
    exact ⟨f a, s', map_ok run, trivial⟩

theorem succeeds_pure {a : α} {post : α → σ → Prop} (holds : post a s) :
    Succeeds (pure a : EStateM ε σ α) s post :=
  ⟨a, s, rfl, holds⟩

theorem succeeds_get {next : σ → EStateM ε σ β} {goal : β → σ → Prop}
    (rest : Succeeds (next s) s goal) : Succeeds (get >>= next) s goal :=
  rest

end Sequences

variable {σ α β : Type} {R : σ → σ → Prop} {F : Error → Prop} {act : Action σ α} {s s' : σ}
  {post : α → σ → Prop}

theorem finalState_ok {a : α} (h : act s = .ok a s') : act.finalState s = s' := by
  rw [finalState, h]

theorem finalState_error {e : Error} (h : act s = .error e s') : act.finalState s = s' := by
  rw [finalState, h]

theorem outcome_ok {a : α} (h : act s = .ok a s') : act.outcome s = .ok a := by
  unfold outcome
  rw [h]

theorem of_outcome_ok {a : α} (h : act.outcome s = .ok a) : ∃ s', act s = .ok a s' := by
  unfold outcome at h
  cases run : act s with
  | ok b s' =>
    rw [run] at h
    cases h
    exact ⟨s', rfl⟩
  | error e s' =>
    rw [run] at h
    cases h

theorem outcome_error {e : Error} (h : act s = .error e s') : act.outcome s = .error e := by
  unfold outcome
  rw [h]

theorem outcome_congr {act' : Action σ α} (same : act s = act' s') :
    act.outcome s = act'.outcome s' := by
  unfold outcome
  rw [same]

theorem finalState_congr {act' : Action σ α} (same : act s = act' s') :
    act.finalState s = act'.finalState s' := by
  unfold finalState
  rw [same]

theorem finalState_map (f : α → β) (act : Action σ α) :
    (f <$> act).finalState = act.finalState := by
  funext s
  cases h : act s with
  | ok a s' => rw [finalState_ok (map_ok h), finalState_ok h]
  | error e s' => rw [finalState_error (map_error h), finalState_error h]

theorem outcome_map (f : α → β) (act : Action σ α) (s : σ) :
    (f <$> act).outcome s = (act.outcome s).map f := by
  cases h : act s with
  | ok a s' =>
    rw [outcome_ok (map_ok h), outcome_ok h]
    rfl
  | error e s' =>
    rw [outcome_error (map_error h), outcome_error h]
    rfl

theorem finalState_bind_pure (act : Action σ α) (b : β) :
    (act >>= fun _ => pure b).finalState = act.finalState := by
  funext s
  cases h : act s with
  | ok a s' =>
    rw [finalState, bind_ok h, finalState_ok h]
    rfl
  | error e s' => rw [finalState_error (bind_error h), finalState_error h]

/-- The action takes the state to a related one, where the answer is as it should be or the failure
is one that may happen. -/
def Leads (R : σ → σ → Prop) (F : Error → Prop) (act : Action σ α) (s : σ)
    (post : α → σ → Prop) : Prop :=
  match act s with
  | .ok a s' => R s s' ∧ post a s'
  | .error e s' => R s s' ∧ F e

theorem leads_ok {a : α} (h : act s = .ok a s') : Leads R F act s post ↔ R s s' ∧ post a s' := by
  rw [Leads, h]

theorem leads_error {e : Error} (h : act s = .error e s') :
    Leads R F act s post ↔ R s s' ∧ F e := by
  rw [Leads, h]

theorem Leads.mono {post' : α → σ → Prop} (leads : Leads R F act s post)
    (weaker : ∀ a s', R s s' → post a s' → post' a s') : Leads R F act s post' := by
  cases h : act s with
  | ok a s' =>
    rw [leads_ok h] at leads ⊢
    exact ⟨leads.1, weaker a s' leads.1 leads.2⟩
  | error e s' =>
    rw [leads_error h] at leads ⊢
    exact leads

theorem Leads.weaken {Q : σ → σ → Prop} (leads : Leads R F act s post)
    (weaker : ∀ s', R s s' → Q s s') : Leads Q F act s post := by
  cases h : act s with
  | ok a s' =>
    rw [leads_ok h] at leads ⊢
    exact ⟨weaker s' leads.1, leads.2⟩
  | error e s' =>
    rw [leads_error h] at leads ⊢
    exact ⟨weaker s' leads.1, leads.2⟩

theorem Leads.allow {G : Error → Prop} (leads : Leads R F act s post) (weaker : ∀ e, F e → G e) :
    Leads R G act s post := by
  cases h : act s with
  | ok a s' =>
    rw [leads_ok h] at leads ⊢
    exact leads
  | error e s' =>
    rw [leads_error h] at leads ⊢
    exact ⟨leads.1, weaker e leads.2⟩

theorem Leads.bind {next : α → Action σ β} {goal : β → σ → Prop}
    (trans : ∀ {a b c}, R a b → R b c → R a c) (leads : Leads R F act s post)
    (rest : ∀ a s', R s s' → post a s' → Leads R F (next a) s' goal) :
    Leads R F (act >>= next) s goal := by
  cases h : act s with
  | error e s' =>
    rw [leads_error h] at leads
    rw [leads_error (bind_error h)]
    exact leads
  | ok a s' =>
    rw [leads_ok h] at leads
    have rest := rest a s' leads.1 leads.2
    rw [Leads, bind_ok h]
    cases h' : next a s' with
    | ok b s'' =>
      rw [leads_ok h'] at rest
      exact ⟨trans leads.1 rest.1, rest.2⟩
    | error e s'' =>
      rw [leads_error h'] at rest
      exact ⟨trans leads.1 rest.1, rest.2⟩

theorem Leads.map {f : α → β} {goal : β → σ → Prop} (leads : Leads R F act s post)
    (holds : ∀ a s', post a s' → goal (f a) s') : Leads R F (f <$> act) s goal := by
  cases h : act s with
  | ok a s' =>
    rw [leads_ok h] at leads
    exact (leads_ok (map_ok h)).mpr ⟨leads.1, holds a s' leads.2⟩
  | error e s' =>
    rw [leads_error h] at leads
    exact (leads_error (map_error h)).mpr leads

theorem leads_pure {a : α} (refl : R s s) (holds : post a s) : Leads R F (pure a) s post :=
  ⟨refl, holds⟩

theorem leads_throw {e : Error} (refl : R s s) (may : F e) :
    Leads R F (throw e : Action σ α) s post :=
  ⟨refl, may⟩

theorem leads_get {next : σ → Action σ α} (leads : Leads R F (next s) s post) :
    Leads R F (get >>= next) s post :=
  leads

theorem leads_ofExcept {r : Except Error α} (refl : R s s) (holds : ∀ a, r = .ok a → post a s)
    (may : ∀ e, r = .error e → F e) : Leads R F (ofExcept r) s post := by
  cases r with
  | ok a => exact leads_pure refl (holds a rfl)
  | error e => exact leads_throw refl (may e rfl)

theorem Leads.answer {a : α} (leads : Leads R F act s post) (h : act s = .ok a s') :
    R s s' ∧ post a s' :=
  (leads_ok h).mp leads

theorem Leads.failure {e : Error} (leads : Leads R F act s post) (h : act s = .error e s') :
    R s s' ∧ F e :=
  (leads_error h).mp leads

theorem Leads.finalState (leads : Leads R F act s post) : R s (act.finalState s) := by
  cases h : act s with
  | ok a s' =>
    rw [finalState_ok h]
    exact (leads.answer h).1
  | error e s' =>
    rw [finalState_error h]
    exact (leads.failure h).1

/-- That the state at the end is related, and no more, is the same however the action ends. -/
theorem leads_iff_finalState :
    (Leads R (fun _ => True) act s fun _ _ => True) ↔ R s (act.finalState s) := by
  cases h : act s with
  | ok a s' => rw [leads_ok h, finalState_ok h, and_true]
  | error e s' => rw [leads_error h, finalState_error h, and_true]

/-- What is known of an action however it ends is known of its answer. -/
theorem Leads.and (leads : Leads R F act s post) {goal : α → σ → Prop}
    (succeeds : Succeeds act s goal) :
    Succeeds act s fun a s' => R s s' ∧ post a s' ∧ goal a s' := by
  obtain ⟨a, s', run, holds⟩ := succeeds
  obtain ⟨related, known⟩ := leads.answer run
  exact ⟨a, s', run, related, known, holds⟩

/-- Two runs end with the same answer or the same failure, in states that are related. -/
inductive Alike (R : σ → σ → Prop) : EStateM.Result Error σ α → EStateM.Result Error σ α → Prop
  | ok (a : α) {s s' : σ} (related : R s s') : Alike R (.ok a s) (.ok a s')
  | error (e : Error) {s s' : σ} (related : R s s') : Alike R (.error e s) (.error e s')

namespace Alike

variable {act' : Action σ α}

theorem bind {next next' : α → Action σ β} (first : Alike R (act s) (act' s'))
    (rest : ∀ a t t', act s = .ok a t → R t t' → Alike R (next a t) (next' a t')) :
    Alike R ((act >>= next) s) ((act' >>= next') s') := by
  generalize left : act s = r, right : act' s' = r' at first
  cases first with
  | ok a related =>
    rw [bind_ok left, bind_ok right]
    exact rest a _ _ left related
  | error e related =>
    rw [bind_error left, bind_error right]
    exact .error e related

theorem map (f : α → β) (alike : Alike R (act s) (act' s')) :
    Alike R ((f <$> act) s) ((f <$> act') s') := by
  generalize left : act s = r, right : act' s' = r' at alike
  cases alike with
  | ok a related =>
    rw [map_ok left, map_ok right]
    exact .ok (f a) related
  | error e related =>
    rw [map_error left, map_error right]
    exact .error e related

theorem ofExcept (r : Except Error α) (related : R s s') :
    Alike R (Action.ofExcept r s) (Action.ofExcept r s') := by
  cases r with
  | ok a => exact .ok a related
  | error e => exact .error e related

theorem outcome_eq (alike : Alike R (act s) (act' s')) : act.outcome s = act'.outcome s' := by
  unfold outcome
  generalize act s = r, act' s' = r' at alike
  cases alike <;> rfl

theorem finalState (alike : Alike R (act s) (act' s')) :
    R (act.finalState s) (act'.finalState s') := by
  unfold Action.finalState
  generalize act s = r, act' s' = r' at alike
  cases alike with
  | ok a related | error e related => exact related

end Alike

end FormulaGraph.Action

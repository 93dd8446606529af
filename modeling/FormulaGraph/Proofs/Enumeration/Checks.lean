import FormulaGraph.Enumeration.Enumerator
import FormulaGraph.Proofs.Action
import FormulaGraph.Proofs.Enumeration.Completeness

/-!
Checks of the enumerating engine. However one ends, nothing has changed but what is known of a model
and a core; an answer tells what the search found.
-/

namespace FormulaGraph.Enumerator

open FormulaGraph.Action

variable {e e' : Enumerator} {extra : List Handle} {token : CancelToken} {v : Verdict}
  {env : Assignment}

/-- The second state is the first with another model and core. -/
def Rechecked (e e' : Enumerator) : Prop := ∃ model core, e' = { e with model, core }

theorem Rechecked.trans {e'' : Enumerator} (first : Rechecked e e') (second : Rechecked e' e'') :
    Rechecked e e'' := by
  obtain ⟨_, _, rfl⟩ := first
  obtain ⟨model, core, rfl⟩ := second
  exact ⟨model, core, rfl⟩

/-- The second state is the first with another model and without a core. -/
def Forgotten (e e' : Enumerator) : Prop := ∃ model, e' = { e with model, core := [] }

theorem Forgotten.trans {e'' : Enumerator} (first : Forgotten e e') (second : Forgotten e' e'') :
    Forgotten e e'' := by
  obtain ⟨_, rfl⟩ := first
  obtain ⟨model, rfl⟩ := second
  exact ⟨model, rfl⟩

theorem Forgotten.rechecked (forgotten : Forgotten e e') : Rechecked e e' := by
  obtain ⟨model, rfl⟩ := forgotten
  exact ⟨model, [], rfl⟩

/-- How a check ends that answers. -/
inductive Checked (e : Enumerator) (extra : List Handle) (token : CancelToken) :
    Verdict → Enumerator → Prop
  | sat {env : Assignment} (found : e.search extra token = .ok (.model env)) :
      Checked e extra token .sat { e.forget with model := some env }
  | unsat (none : e.search extra token = .ok .noModel) : Checked e extra token .unsat e.forget
  | stalled (slow : 0 < e.delay) (raised : token.whileStalled = true) :
      Checked e extra token .unknown e.forget
  | cutShort (cut : e.search extra token = .ok .cutShort) :
      Checked e extra token .unknown e.forget

theorem leads_check (e : Enumerator) (extra : List Handle) (token : CancelToken) :
    Leads Forgotten (fun _ => True) (check extra token) e (Checked e extra token) := by
  have same : Forgotten e.forget e.forget := ⟨none, rfl⟩
  have forgets : Leads Forgotten (fun _ => True) (modify forget) e fun _ e' => e' = e.forget :=
    ⟨⟨none, rfl⟩, rfl⟩
  refine forgets.bind .trans ?_
  rintro _ _ _ rfl
  refine leads_get ?_
  split
  · rename_i stalled
    rw [Bool.and_eq_true, decide_eq_true_eq] at stalled
    exact leads_pure same (.stalled stalled.1 stalled.2)
  · have searches : Leads Forgotten (fun _ => True) (Action.ofExcept (e.forget.search extra token))
        e.forget fun finding e' => e.search extra token = .ok finding ∧ e' = e.forget :=
      leads_ofExcept same (fun _ h => ⟨h, rfl⟩) fun _ _ => trivial
    refine searches.bind .trans ?_
    rintro finding _ _ ⟨searched, rfl⟩
    cases finding with
    | model env => exact ⟨⟨some env, rfl⟩, .sat searched⟩
    | noModel => exact leads_pure same (.unsat searched)
    | cutShort => exact leads_pure same (.cutShort searched)

theorem check_succeeds {finding : Search.Finding} (searched : e.search extra token = .ok finding) :
    Succeeds (check extra token) e fun _ _ => True := by
  have forgets : Succeeds (modify forget : Action Enumerator Unit) e fun _ e' => e' = e.forget :=
    ⟨(), e.forget, rfl, rfl⟩
  refine forgets.bind ?_
  rintro _ _ rfl
  refine succeeds_get ?_
  split
  · exact succeeds_pure trivial
  · have searches : Succeeds (Action.ofExcept (e.forget.search extra token)) e.forget
        fun _ e' => e' = e.forget := by
      refine ⟨finding, e.forget, ?_, rfl⟩
      show Action.ofExcept (e.search extra token) _ = _
      rw [searched]
      rfl
    refine searches.bind ?_
    rintro finding _ rfl
    cases finding with
    | model env => exact ⟨.sat, _, rfl, trivial⟩
    | noModel | cutShort => exact succeeds_pure trivial

theorem leads_checkSatAssuming (e : Enumerator) (assumptions : List Handle) :
    Leads Rechecked (fun _ => True) (checkSatAssuming assumptions) e fun v e' =>
      ∃ e₁ core, Checked e assumptions .idle v e₁ ∧ e' = { e₁ with core } := by
  refine ((leads_check e assumptions .idle).weaken fun _ => Forgotten.rechecked).bind .trans ?_
  intro v e₁ steps checked
  have same : Rechecked e₁ e₁ := ⟨e₁.model, e₁.core, rfl⟩
  dsimp only
  split
  · refine leads_get ?_
    have shrinks : Leads Rechecked (fun _ => True)
        (Action.ofExcept (Search.shrink e₁.isUnsat [] assumptions)) e₁ fun _ e' => e' = e₁ :=
      leads_ofExcept same (fun _ _ => rfl) fun _ _ => trivial
    refine shrinks.bind .trans ?_
    rintro core _ _ same
    subst same
    exact ⟨⟨_, core, rfl⟩, _, core, checked, rfl⟩
  · exact leads_pure same ⟨e₁, e₁.core, checked, rfl⟩

theorem Checked.store (checked : Checked e extra token v e') : e'.store = e.store := by
  cases checked <;> rfl

theorem Checked.decides (checked : Checked e extra .idle v e') : v ≠ .unknown := by
  rintro rfl
  cases checked with
  | stalled _ raised => cases raised
  | cutShort cut =>
    obtain ⟨_, _, -, -, -, searched⟩ := Search.run_ok cut
    exact Search.idle_ne_cutShort searched

/-- A model is recorded under which everything holds that was to hold. -/
theorem Checked.holds (checked : Checked e extra token .sat e') :
    ∃ env, e'.model = some env ∧ e.store.Admits env ∧
      ∀ t ∈ e.scopes.active ++ extra, e.store.eval env t = .ok (.bool true) := by
  cases checked with
  | sat found => exact ⟨_, rfl, Search.admits_of_run found, Search.holds_of_run found⟩

/-- Whatever the values of the symbols, something fails that was to hold. -/
theorem Checked.fails (checked : Checked e extra token .unsat e') (admits : e.store.Admits env) :
    ∃ t ∈ e.scopes.active ++ extra, e.store.eval env t = .ok (.bool false) := by
  cases checked with
  | unsat none => exact Search.fails_of_run none admits

end FormulaGraph.Enumerator

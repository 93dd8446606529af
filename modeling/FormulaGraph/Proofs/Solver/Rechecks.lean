import FormulaGraph.Proofs.Enumeration.Checks
import FormulaGraph.Proofs.Solver.VeiledRequests

/-!
What the last check of the enumerating engine has left is only seen by reading it: the next check
forgets it, and everything else neither looks at it nor touches it.
-/

namespace FormulaGraph

open FormulaGraph.Action

theorem Engine.discreet_eq {σ S T : Type} [Engine σ S T] :
    Engine.Discreet (σ := σ) (S := S) (T := T) Eq fun _ => False where
  reads none := none.elim
  performs := by
    rintro c - e _ rfl
    cases Engine.perform c e with
    | ok a e' => exact .ok a rfl
    | error x e' => exact .error x rfl
  describes same := congrArg _ same.symm
  reports same := congrArg (fun e => (Engine.takeNotices e).2) same

namespace Enumerator

variable {α : Type} {e e' : Enumerator} {extra : List Handle} {token : CancelToken}

theorem Rechecked.refl (e : Enumerator) : Rechecked e e := ⟨e.model, e.core, rfl⟩

theorem overlooks_modify {f : Enumerator → Enumerator}
    (same : ∀ e model core, Rechecked (f e) (f { e with model, core })) :
    Overlooks Rechecked (modify f : Action Enumerator Unit) := by
  rintro e _ ⟨model, core, rfl⟩
  exact .ok () (same e model core)

theorem overlooks_addValue (l : Literal) (sort : LogicSort) :
    Overlooks Rechecked (addValue l sort) := by
  rintro e _ ⟨model, core, rfl⟩
  exact .ok _ ⟨model, core, rfl⟩

theorem overlooks_makeConstArray (fill : Handle) (sort : LogicSort) :
    Overlooks Rechecked (makeConstArray fill sort) := by
  rintro e _ ⟨model, core, rfl⟩
  unfold makeConstArray
  dsimp only
  split
  · exact .ok _ ⟨model, core, rfl⟩
  · exact .error _ ⟨model, core, rfl⟩

theorem overlooks_makeSymbol (name : String) (sort : LogicSort) :
    Overlooks Rechecked (makeSymbol name sort) := by
  rintro e _ ⟨model, core, rfl⟩
  unfold makeSymbol
  dsimp only
  split
  · exact .error _ ⟨model, core, rfl⟩
  · exact .ok _ ⟨model, core, rfl⟩

theorem overlooks_makeTerm (op : Op) (args : List Handle) :
    Overlooks Rechecked (makeTerm op args) := by
  rintro e _ ⟨model, core, rfl⟩
  unfold makeTerm
  dsimp only
  split
  · cases (args.mapM e.store.find).bind fun found => applicationSort op (found.map Prod.snd) with
    | ok sort => exact .ok _ ⟨model, core, rfl⟩
    | error x => exact .error x ⟨model, core, rfl⟩
  · exact .error _ ⟨model, core, rfl⟩

theorem overlooks_lookUp (t : Handle) : Overlooks Rechecked (lookUp t) := by
  refine overlooks_get ?_ fun _ => overlooks_ofExcept _
  rintro e _ ⟨model, core, rfl⟩
  rfl

theorem overlooks_sortOf (t : Handle) : Overlooks Rechecked (sortOf t) := by
  refine (overlooks_lookUp t).bind fun _ => overlooks_get ?_ fun _ => overlooks_pure _
  rintro e _ ⟨model, core, rfl⟩
  rfl

theorem overlooks_opOf (t : Handle) : Overlooks Rechecked (opOf t) := by
  refine (overlooks_lookUp t).bind fun _ => ?_
  split
  · exact overlooks_pure _
  · exact overlooks_pure _

theorem overlooks_assertFormula (t : Handle) : Overlooks Rechecked (assertFormula t) :=
  ((overlooks_lookUp t).map fun _ => ()).bind fun _ =>
    overlooks_modify fun _ model core => ⟨model, core, rfl⟩

theorem overlooks_pop (levels : UInt64) : Overlooks Rechecked (pop levels) := by
  rintro e _ ⟨model, core, rfl⟩
  unfold pop
  dsimp only
  cases e.scopes.pop? levels.toNat with
  | some scopes => exact .ok () ⟨model, core, rfl⟩
  | none => exact .error _ ⟨model, core, rfl⟩

/-- A check begins by forgetting the last one, so it runs as if that had not been. -/
theorem Rechecked.check_eq (rechecked : Rechecked e e') (extra : List Handle)
    (token : CancelToken) :
    check extra token e' = check extra token e := by
  obtain ⟨model, core, rfl⟩ := rechecked
  rfl

theorem Rechecked.checkSatAssuming_eq (rechecked : Rechecked e e') (ns : List Handle) :
    checkSatAssuming ns e' = checkSatAssuming ns e := by
  obtain ⟨model, core, rfl⟩ := rechecked
  rfl

theorem overlooks_of_eq {act : Action Enumerator α}
    (same : ∀ e e', Rechecked e e' → act e' = act e) :
    Overlooks Rechecked act := by
  intro e e' related
  rw [same e e' related]
  cases act e with
  | ok a e₁ => exact .ok a (.refl e₁)
  | error x e₁ => exact .error x (.refl e₁)

theorem overlooks_perform {c : Command LogicSort Handle} (plain : ¬ c.ReadsCheck) :
    Overlooks Rechecked (Engine.perform c : Action Enumerator (Answer LogicSort Handle)) := by
  cases c with
  | getValue | getArrayValues | getUnsatCore => exact absurd trivial plain
  | name | capabilities | literal =>
    rintro e _ ⟨model, core, rfl⟩
    exact .ok _ ⟨model, core, rfl⟩
  | setOption | setLogic =>
    exact (overlooks_modify fun _ model core => ⟨model, core, rfl⟩).bind fun _ => overlooks_pure _
  | makeSort kind =>
    cases kind with
    | bool | int | real => exact (overlooks_pure _).map _
    | _ => exact (overlooks_throw _).map _
  | makeBitVecSort | makeArraySort | makeFunctionSort | makeUninterpretedSort | makeDatatypeSort =>
    exact (overlooks_pure _).map _
  | makeValue l sort => exact (overlooks_addValue l sort).map _
  | makeConstArray fill sort => exact (overlooks_makeConstArray fill sort).map _
  | makeSymbol name sort => exact (overlooks_makeSymbol name sort).map _
  | makeTerm op args => exact (overlooks_makeTerm op args).map _
  | sortOf t => exact (overlooks_sortOf t).map _
  | opOf t => exact (overlooks_opOf t).map _
  | children t => exact ((overlooks_lookUp t).bind fun _ => overlooks_pure _).map _
  | assertFormula t => exact (overlooks_assertFormula t).bind fun _ => overlooks_pure _
  | checkSat => exact (overlooks_of_eq fun _ _ related => related.check_eq [] .idle).map _
  | checkSatAssuming ns =>
    exact (overlooks_of_eq fun _ _ related => related.checkSatAssuming_eq ns).map _
  | checkSatInterruptible token =>
    exact (overlooks_of_eq fun _ _ related => related.check_eq [] token).map _
  | push =>
    exact (overlooks_modify fun _ model core => ⟨model, core, rfl⟩).bind fun _ => overlooks_pure _
  | pop levels => exact (overlooks_pop levels).bind fun _ => overlooks_pure _
  | reset => exact (overlooks_modify fun _ _ _ => .refl _).bind fun _ => overlooks_pure _
  | resetAssertions => exact (overlooks_modify fun _ _ _ => .refl _).bind fun _ => overlooks_pure _

/-- The engine is told from one with another check behind it by reading the model or the core
alone. -/
theorem discreet_rechecked : Engine.Discreet (σ := Enumerator) Rechecked Command.ReadsCheck where
  reads hidden := hidden
  performs := overlooks_perform
  describes := by
    rintro e _ ⟨model, core, rfl⟩
    rfl
  reports related := related

end Enumerator

end FormulaGraph

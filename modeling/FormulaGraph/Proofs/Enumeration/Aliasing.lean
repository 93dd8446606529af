import FormulaGraph.Proofs.Enumeration.Contract

/-!
What the enumerating engine does is the same whether or not it reports truth values as one-bit
vectors, but for what it reports: the sort of a truth value, and its literal, which is read back as
it was meant.
-/

namespace FormulaGraph.Enumerator

open FormulaGraph.Action

variable {α β : Type} {act : Action Enumerator α} {next : α → Action Enumerator β}

theorem aliasing_withAliasing (e : Enumerator) : e.withAliasing.aliasing = true := by
  rw [aliasing, withAliasing, Capabilities.has_insert, decide_eq_true rfl, Bool.or_true]

/-- The action does the same on an engine that reports truth values as one-bit vectors. -/
def Blind (act : Action Enumerator α) : Prop :=
  ∀ e, Alike (fun e e' => e' = e.withAliasing) (act e) (act e.withAliasing)

theorem Blind.bind (first : Blind act) (rest : ∀ a, Blind (next a)) : Blind (act >>= next) := by
  refine fun e => (first e).bind fun a t t' _ same => ?_
  rw [same]
  exact rest a t

theorem Blind.get {next : Enumerator → Action Enumerator α}
    (same : ∀ e, next e.withAliasing = next e)
    (rest : ∀ e, Blind (next e)) : Blind (get >>= next) := by
  intro e
  show Alike _ (next e e) (next e.withAliasing e.withAliasing)
  rw [same]
  exact rest e e

theorem blind_pure (a : α) : Blind (pure a) := fun _ => .ok a rfl

theorem blind_throw (x : Error) : Blind (throw x : Action Enumerator α) := fun _ => .error x rfl

theorem blind_ofExcept (r : Except Error α) : Blind (Action.ofExcept r) := fun _ => .ofExcept r rfl

theorem blind_modify {f : Enumerator → Enumerator}
    (same : ∀ e, f e.withAliasing = (f e).withAliasing) :
    Blind (modify f) := fun e => by
  show Alike _ (.ok () (f e)) (.ok () (f e.withAliasing))
  rw [same]
  exact .ok () rfl

theorem blind_addValue (l : Literal) (sort : LogicSort) : Blind (addValue l sort) :=
  fun _ => .ok _ rfl

theorem blind_addDatum (sort : LogicSort) (x : Datum) : Blind (addDatum sort x) := by
  cases x with
  | bool | bitVec => exact blind_addValue _ sort
  | array => exact blind_throw _

theorem blind_makeConstArray (fill : Handle) (sort : LogicSort) :
    Blind (makeConstArray fill sort) := by
  intro e
  unfold makeConstArray
  by_cases bound : fill.index < e.store.size
  · rw [dif_pos bound, dif_pos (show fill.index < e.withAliasing.store.size from bound)]
    exact .ok _ rfl
  · rw [dif_neg bound, dif_neg (show ¬ fill.index < e.withAliasing.store.size from bound)]
    exact .error _ rfl

theorem blind_makeSymbol (name : String) (sort : LogicSort) : Blind (makeSymbol name sort) := by
  intro e
  unfold makeSymbol
  by_cases taken : e.symbols.contains name = true
  · rw [if_pos taken, if_pos (show e.withAliasing.symbols.contains name = true from taken)]
    exact .error _ rfl
  · rw [if_neg taken, if_neg (show ¬ e.withAliasing.symbols.contains name = true from taken)]
    exact .ok _ rfl

theorem blind_makeTerm (op : Op) (args : List Handle) : Blind (makeTerm op args) := by
  intro e
  unfold makeTerm
  by_cases bound : ∀ a ∈ args, a.index < e.store.size
  · rw [dif_pos bound, dif_pos (show ∀ a ∈ args, a.index < e.withAliasing.store.size from bound)]
    have same : e.withAliasing.store.find = e.store.find := rfl
    rw [same]
    cases (args.mapM e.store.find).bind fun found => applicationSort op (found.map Prod.snd) with
    | ok sort => exact .ok _ rfl
    | error x => exact .error x rfl
  · rw [dif_neg bound, dif_neg (show ¬ ∀ a ∈ args, a.index < e.withAliasing.store.size from bound)]
    exact .error _ rfl

theorem blind_lookUp (t : Handle) : Blind (lookUp t) :=
    .get (fun _ => rfl) fun _ => blind_ofExcept _

theorem blind_assertFormula (t : Handle) : Blind (assertFormula t) :=
  .bind (.bind (blind_lookUp t) fun _ => blind_pure _) fun _ => blind_modify fun _ => rfl

theorem blind_check (extra : List Handle) (token : CancelToken) : Blind (check extra token) := by
  refine .bind (blind_modify fun _ => rfl) fun _ => .get (fun _ => rfl) fun e => ?_
  split
  · exact blind_pure _
  · refine .bind (blind_ofExcept _) fun finding => ?_
    cases finding with
    | model env => exact .bind (blind_modify fun _ => rfl) fun _ => blind_pure _
    | noModel | cutShort => exact blind_pure _

theorem blind_checkSatAssuming (assumptions : List Handle) :
    Blind (checkSatAssuming assumptions) := by
  refine .bind (blind_check assumptions .idle) fun verdict => ?_
  split
  · exact .get (fun _ => rfl) fun e => .bind (blind_ofExcept _) fun core =>
      .bind (blind_modify fun _ => rfl) fun _ => blind_pure _
  · exact blind_pure _

theorem blind_valueInModel (t : Handle) : Blind (valueInModel t) := by
  refine .get (fun _ => rfl) fun e => ?_
  split
  · exact blind_throw _
  · exact .bind (blind_ofExcept _) fun _ => .bind (blind_lookUp t) fun _ => blind_pure _

theorem blind_getValue (t : Handle) : Blind (getValue t) :=
  .bind (blind_valueInModel t) fun _ => blind_addDatum _ _

theorem blind_addCells (index element : LogicSort) (width : UInt64) (base : Datum) (i : Nat)
    (cells : List Datum) : Blind (addCells index element width base i cells) := by
  induction cells generalizing i with
  | nil => exact blind_pure _
  | cons x xs ih =>
    rw [addCells]
    split
    · exact ih (i + 1)
    · exact .bind (blind_addDatum _ _) fun _ => .bind (blind_addDatum _ _) fun _ =>
        .bind (ih (i + 1)) fun _ => blind_pure _

theorem blind_getArrayValues (t : Handle) : Blind (getArrayValues t) := by
  refine .bind (blind_valueInModel t) fun _ => .bind (blind_ofExcept _) fun _ =>
    .bind (blind_ofExcept _) fun _ => .bind (blind_ofExcept _) fun cells => ?_
  cases cells with
  | nil => exact blind_throw _
  | cons first rest =>
    exact .bind (blind_addDatum _ _) fun _ => .bind (blind_addCells _ _ _ _ _ _) fun _ =>
      .get (fun _ => rfl) fun _ => blind_pure _

theorem blind_getUnsatCore : Blind getUnsatCore := by
  refine .get (fun _ => rfl) fun e => ?_
  split
  · exact .bind (blind_addValue _ _) fun _ => blind_pure _
  · exact blind_pure _

theorem blind_pop (levels : UInt64) : Blind (pop levels) := by
  intro e
  unfold pop
  have same : e.withAliasing.scopes = e.scopes := rfl
  rw [same]
  cases e.scopes.pop? levels.toNat with
  | some scopes => exact .ok () rfl
  | none => exact .error _ rfl

theorem blind_push (levels : UInt64) : Blind (push levels) := blind_modify fun _ => rfl

theorem blind_reset : Blind (modify reset) := blind_modify fun _ => rfl

theorem blind_resetAssertions : Blind (modify resetAssertions) := blind_modify fun _ => rfl

theorem blind_setOption (option value : String) : Blind (setOption option value) :=
  blind_modify fun _ => rfl

end FormulaGraph.Enumerator

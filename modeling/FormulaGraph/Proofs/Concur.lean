import FormulaGraph.Proofs.Action

/-!
Two runs on states of two kinds that concur: both are answered, where the answers and the states
they come with are as they should be, or both fail with the same error. Whichever it is, the states
are again related.
-/

namespace FormulaGraph.Action

variable {σ σ' α α' β β' : Type} {sound : σ → σ' → Prop} {post : α → α' → σ → σ' → Prop}
  {goal : β → β' → σ → σ' → Prop} {s : σ} {s' : σ'} {act : Action σ α} {act' : Action σ' α'}

theorem bind_of_eq {first first' : Action σ α} {t t' : σ} (same : first t = first' t')
    (next : α → Action σ β) :
    (first >>= next) t = (first' >>= next) t' := by
  simp only [Bind.bind, EStateM.bind, same]

theorem get_then (next : σ → Action σ α) (s : σ) : (MonadState.get >>= next) s = next s s := rfl

theorem ofExcept_then (a : α) (next : α → Action σ β) (s : σ) :
    (ofExcept (.ok a) >>= next) s = next a s := rfl

inductive Concur (sound : σ → σ' → Prop) (post : α → α' → σ → σ' → Prop) :
    EStateM.Result Error σ α → EStateM.Result Error σ' α' → Prop
  | ok {a : α} {a' : α'} {s : σ} {s' : σ'} (related : sound s s') (holds : post a a' s s') :
      Concur sound post (.ok a s) (.ok a' s')
  | error (e : Error) {s : σ} {s' : σ'} (related : sound s s') :
      Concur sound post (.error e s) (.error e s')

namespace Concur

theorem mono {post' : α → α' → σ → σ' → Prop} {r : EStateM.Result Error σ α}
    {r' : EStateM.Result Error σ' α'} (concur : Concur sound post r r')
    (weaker : ∀ a a' s s', sound s s' → post a a' s s' → post' a a' s s') :
    Concur sound post' r r' := by
  cases concur with
  | ok related holds => exact .ok related (weaker _ _ _ _ related holds)
  | error e related => exact .error e related

theorem bind {next : α → Action σ β} {next' : α' → Action σ' β'}
    (first : Concur sound post (act s) (act' s'))
    (rest : ∀ a a' s s', sound s s' → post a a' s s' → Concur sound goal (next a s) (next' a' s')) :
    Concur sound goal ((act >>= next) s) ((act' >>= next') s') := by
  generalize left : act s = r, right : act' s' = r' at first
  cases first with
  | ok related holds =>
    rw [bind_ok left, bind_ok right]
    exact rest _ _ _ _ related holds
  | error e related =>
    rw [bind_error left, bind_error right]
    exact .error e related

theorem map {f : α → β} {f' : α' → β'} (concur : Concur sound post (act s) (act' s'))
    (holds : ∀ a a' s s', post a a' s s' → goal (f a) (f' a') s s') :
    Concur sound goal ((f <$> act) s) ((f' <$> act') s') := by
  generalize left : act s = r, right : act' s' = r' at concur
  cases concur with
  | ok related known =>
    rw [map_ok left, map_ok right]
    exact .ok related (holds _ _ _ _ known)
  | error e related =>
    rw [map_error left, map_error right]
    exact .error e related

theorem checked {γ : Type} {r : Except Error γ} {next : γ → Action σ α} {next' : γ → Action σ' α'}
    (related : sound s s') (passed : ∀ c, r = .ok c → Concur sound post (next c s) (next' c s')) :
    Concur sound post ((ofExcept r >>= next) s) ((ofExcept r >>= next') s') := by
  cases r with
  | ok c => exact passed c rfl
  | error e => exact .error e related

theorem get {next : σ → Action σ α} {next' : σ' → Action σ' α'}
    (concur : Concur sound post (next s s) (next' s' s')) :
    Concur sound post ((MonadState.get >>= next) s) ((MonadState.get >>= next') s') :=
  concur

theorem guard {c c' : Prop} [Decidable c] [Decidable c'] {e : Error} {next : PUnit → Action σ α}
    {next' : PUnit → Action σ' α'} (same : c' ↔ c) (related : sound s s')
    (passed : ¬ c → Concur sound post (next ⟨⟩ s) (next' ⟨⟩ s')) :
    Concur sound post ((if c then throw e >>= next else next ⟨⟩) s)
      ((if c' then throw e >>= next' else next' ⟨⟩) s') := by
  by_cases holds : c
  · rw [if_pos holds, if_pos (same.mpr holds)]
    exact .error e related
  · rw [if_neg holds, if_neg (fun h => holds (same.mp h))]
    exact passed holds

end Concur

end FormulaGraph.Action

import FormulaGraph.Proofs.Action
import FormulaGraph.Proofs.Term.Renaming

/-!
Two runs in two worlds, where what is made on the one side has another name on the other. As they go
on, more names correspond, and none is given up. The runs agree if both are answered, the answers
correspond and the states are again related, or both fail, for the same reason and in the same
words.
-/

namespace FormulaGraph

/-- Both failures are of one kind and worded alike. -/
def Error.Alike (e e' : Error) : Prop := e'.kind = e.kind ∧ e'.message = e.message

namespace Error.Alike

theorem refl (e : Error) : e.Alike e := ⟨rfl, rfl⟩

theorem usage {c c' : Misuse} (same : c'.text = c.text) : Error.Alike (.usage c) (.usage c') :=
  ⟨rfl, congrArg ("Incorrect usage: " ++ ·) same⟩

theorem internal {c c' : Breach} (same : c'.text = c.text) :
    Error.Alike (.internal c) (.internal c') :=
  ⟨rfl, congrArg ("Internal invariant violated: " ++ ·) same⟩

variable {t t' c c' : Term} (same : t'.render = t.render)

include same

/-! What a failure has to say of a term is what is written of it. -/

theorem foreignTerm : Error.Alike (.usage (.foreignTerm t)) (.usage (.foreignTerm t')) :=
  .usage (congrArg (fun text => "term " ++ text ++ " does not belong to this session") same)

theorem notABooleanLiteral :
    Error.Alike (.usage (.notABooleanLiteral t)) (.usage (.notABooleanLiteral t')) :=
  .usage (congrArg (fun text => "assumption " ++ text ++ " is not a Boolean literal") same)

theorem noEngineTerm : Error.Alike (.internal (.noEngineTerm t)) (.internal (.noEngineTerm t')) :=
  .internal (congrArg (fun text => "no engine term recorded for " ++ text) same)

theorem noConstantBase (engine : String) :
    Error.Alike (.internal (.noConstantBase engine t)) (.internal (.noConstantBase engine t')) :=
  .internal <| congrArg
    (fun text => engine ++ " gave no constant base for " ++ text ++ "; use get_array_values") same

theorem unresolvedChild (child : c'.render = c.render) :
    Error.Alike (.internal (.unresolvedChild c t)) (.internal (.unresolvedChild c' t')) :=
  .internal <| congrArg₂
    (fun child text => "child " ++ child ++ " of " ++ text ++ " was not resolved")
    child same

theorem unresolvedRoot :
    Error.Alike (.internal (.unresolvedRoot t)) (.internal (.unresolvedRoot t')) :=
  .internal (congrArg (fun text => text ++ " was not resolved") same)

end Error.Alike

/-- Both computations succeed with related results, or both fail alike. -/
inductive Answers {α α' : Type} (post : α → α' → Prop) : Except Error α → Except Error α' → Prop
  | ok {a : α} {a' : α'} (holds : post a a') : Answers post (.ok a) (.ok a')
  | error {e e' : Error} (alike : e.Alike e') : Answers post (.error e) (.error e')

namespace Answers

variable {α α' β β' γ γ' : Type} {post : α → α' → Prop} {goal : β → β' → Prop} {r : Except Error α}
  {r' : Except Error α'}

theorem imp {post' : α → α' → Prop} (answers : Answers post r r')
    (weaker : ∀ a a', post a a' → post' a a') :
    Answers post' r r' := by
  cases answers with
  | ok holds => exact .ok (weaker _ _ holds)
  | error alike => exact .error alike

theorem bind {next : α → Except Error β} {next' : α' → Except Error β'} (first : Answers post r r')
    (rest : ∀ a a', post a a' → Answers goal (next a) (next' a')) :
    Answers goal (r >>= next) (r' >>= next') := by
  cases first with
  | ok holds => exact rest _ _ holds
  | error alike => exact .error alike

theorem mapM {R : γ → γ' → Prop} {f : γ → Except Error α} {f' : γ' → Except Error α'} {cs : List γ}
    {cs' : List γ'} (related : List.Forall₂ R cs cs')
    (each : ∀ c c', R c c' → Answers post (f c) (f' c')) :
    Answers (List.Forall₂ post) (cs.mapM f) (cs'.mapM f') := by
  induction related with
  | nil => exact .ok .nil
  | cons first _ ih =>
    rw [List.mapM_cons, List.mapM_cons]
    exact (each _ _ first).bind fun a a' holds => ih.bind fun as as' rest => .ok (.cons holds rest)

end Answers

namespace Action

variable {σ σ' α α' β β' : Type} {sound : Naming → σ → σ' → Prop} {N N' : Naming}
  {post : Naming → α → α' → Prop} {goal : Naming → β → β' → Prop} {s : σ} {s' : σ'}
  {act : Action σ α} {act' : Action σ' α'}

/-- How two runs end that agree. -/
inductive Agree (sound : Naming → σ → σ' → Prop) (N : Naming) (post : Naming → α → α' → Prop) :
    EStateM.Result Error σ α → EStateM.Result Error σ' α' → Prop
  | ok {N' : Naming} {a : α} {a' : α'} {s : σ} {s' : σ'} (extension : N.Extends N')
      (related : sound N' s s')
    (holds : post N' a a') : Agree sound N post (.ok a s) (.ok a' s')
  | error {N' : Naming} {e e' : Error} {s : σ} {s' : σ'} (extension : N.Extends N')
      (related : sound N' s s')
    (alike : e.Alike e') : Agree sound N post (.error e s) (.error e' s')

/-- Both answer the same thing, and no names are needed to tell so. -/
def Same {α : Type} (_ : Naming) (a a' : α) : Prop := a' = a

namespace Agree

theorem pure {a : α} {a' : α'} (related : sound N s s') (holds : post N a a') :
    Agree sound N post ((Pure.pure a : Action σ α) s) ((Pure.pure a' : Action σ' α') s') :=
  .ok (.refl N) related holds

theorem throw {e e' : Error} (related : sound N s s') (alike : e.Alike e') :
    Agree sound N post ((MonadExcept.throw e : Action σ α) s)
      ((MonadExcept.throw e' : Action σ' α') s') :=
  .error (.refl N) related alike

theorem ofExcept {r : Except Error α} {r' : Except Error α'} (related : sound N s s')
    (answers : Answers (post N) r r') :
    Agree sound N post (Action.ofExcept r s) (Action.ofExcept r' s') := by
  cases answers with
  | ok holds => exact .ok (.refl N) related holds
  | error alike => exact .error (.refl N) related alike

theorem mono {result : EStateM.Result Error σ α} {result' : EStateM.Result Error σ' α'}
    {post' : Naming → α → α' → Prop} (agree : Agree sound N post result result')
    (weaker : ∀ N' a a', N.Extends N' → post N' a a' → post' N' a a') :
    Agree sound N post' result result' := by
  cases agree with
  | ok extension related holds => exact .ok extension related (weaker _ _ _ extension holds)
  | error extension related alike => exact .error extension related alike

theorem after {result : EStateM.Result Error σ α} {result' : EStateM.Result Error σ' α'}
    (extension : N.Extends N') (agree : Agree sound N' post result result') :
    Agree sound N post result result' := by
  cases agree with
  | ok extension' related holds => exact .ok (extension.trans extension') related holds
  | error extension' related alike => exact .error (extension.trans extension') related alike

theorem bind {next : α → Action σ β} {next' : α' → Action σ' β'}
    (first : Agree sound N post (act s) (act' s'))
    (rest : ∀ N' a a' s s', N.Extends N' → sound N' s s' → post N' a a' →
      Agree sound N' goal (next a s) (next' a' s')) :
    Agree sound N goal ((act >>= next) s) ((act' >>= next') s') := by
  generalize left : act s = r, right : act' s' = r' at first
  cases first with
  | ok extension related holds =>
    rw [bind_ok left, bind_ok right]
    exact (rest _ _ _ _ _ extension related holds).after extension
  | error extension related alike =>
    rw [bind_error left, bind_error right]
    exact .error extension related alike

theorem bind_same {act' : Action σ' α} {next : α → Action σ β} {next' : α → Action σ' β'}
    (first : Agree sound N Same (act s) (act' s'))
    (rest : ∀ N' a s s', N.Extends N' → sound N' s s' →
      Agree sound N' goal (next a s) (next' a s')) :
    Agree sound N goal ((act >>= next) s) ((act' >>= next') s') :=
  first.bind fun N' a _ s s' extension related same => same ▸ rest N' a s s' extension related

theorem checked {γ : Type} {r : Except Error γ} {next : γ → Action σ α} {next' : γ → Action σ' α'}
    (related : sound N s s')
    (passed : ∀ c, r = .ok c → Agree sound N post (next c s) (next' c s')) :
    Agree sound N post ((Action.ofExcept r >>= next) s) ((Action.ofExcept r >>= next') s') := by
  cases r with
  | ok c => exact passed c rfl
  | error e => exact .error (.refl N) related (.refl e)

theorem get {next : σ → Action σ α} {next' : σ' → Action σ' α'}
    (agree : Agree sound N post (next s s) (next' s' s')) :
    Agree sound N post ((MonadState.get >>= next) s) ((MonadState.get >>= next') s') :=
  agree

theorem map {f : α → β} {f' : α' → β'} (agree : Agree sound N post (act s) (act' s'))
    (holds : ∀ N' a a', post N' a a' → goal N' (f a) (f' a')) :
    Agree sound N goal ((f <$> act) s) ((f' <$> act') s') := by
  generalize left : act s = r, right : act' s' = r' at agree
  cases agree with
  | ok extension related known =>
    rw [map_ok left, map_ok right]
    exact .ok extension related (holds _ _ _ known)
  | error extension related alike =>
    rw [map_error left, map_error right]
    exact .error extension related alike

theorem guard {c c' : Prop} [Decidable c] [Decidable c'] {e e' : Error} {next : PUnit → Action σ α}
    {next' : PUnit → Action σ' α'} (same : c' ↔ c) (related : sound N s s') (alike : e.Alike e')
    (passed : ¬ c → Agree sound N post (next ⟨⟩ s) (next' ⟨⟩ s')) :
    Agree sound N post ((if c then MonadExcept.throw e >>= next else next ⟨⟩) s)
      ((if c' then MonadExcept.throw e' >>= next' else next' ⟨⟩) s') := by
  by_cases holds : c
  · rw [if_pos holds, if_pos (same.mpr holds)]
    exact .error (.refl N) related alike
  · rw [if_neg holds, if_neg (fun h => holds (same.mp h))]
    exact passed holds

end Agree

end Action

end FormulaGraph

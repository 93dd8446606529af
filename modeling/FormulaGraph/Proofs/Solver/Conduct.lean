import FormulaGraph.Proofs.Engine.Recall
import FormulaGraph.Proofs.Engine.Transcript
import FormulaGraph.Proofs.Solver.Changes

/-!
What a request goes through that neither checks nor resets. It calls the engine for other things
than these, and it changes the session, but not what is assumed there. A preorder on solvers that
goes along with each of these steps goes along with every such request, wherever the request starts
and however it ends.

Sorts can be told apart from the rest: a request has the engine make a sort, or hands it one, in a
few operations only.
-/

namespace FormulaGraph

/-- The second session has the sorts and the assumptions of the first, and nothing was put back into
the supply. -/
structure Session.Persists {S T : Type} [BEq T] [Hashable T] (s s' : Session S T) : Prop where
  sorts : s'.sorts = s.sorts
  declared : s'.declared = s.declared
  assumptions : s'.assumptions = s.assumptions
  drawn : s.supply.Drawn s'.supply

theorem Session.persists_intern {S T : Type} [BEq T] [Hashable T] (s : Session S T)
    (op : Op) (sort : LogicSort) (kind : TermKind) (children : List Term) (native : T) :
    s.Persists (s.intern op sort kind children native).2 :=
  ⟨s.sorts_intern op sort kind children native, s.declared_intern op sort kind children native,
    s.assumptions_intern op sort kind children native, s.drawn_intern op sort kind children native⟩

namespace Solver

open FormulaGraph.Action

variable {σ S T α β : Type} [BEq T] [Hashable T] {R : Solver σ S T → Solver σ S T → Prop}

/-- Wherever the action starts and however it ends, it leads along the relation. -/
def Abides (R : Solver σ S T → Solver σ S T → Prop) (act : Action (Solver σ S T) α) : Prop :=
  ∀ s, R s (act.finalState s)

/-- The preorder goes along with the changes of the session that leave its sorts and its assumptions
alone. -/
class Tolerant (R : Solver σ S T → Solver σ S T → Prop) :
    Prop extends IsPreorder (Solver σ S T) R where
  changed : ∀ {s s'}, Change s s' → s'.engine = s.engine → s.session.Persists s'.session → R s s'

/-- The preorder goes along with every operation in which the engine makes a sort or is handed one,
and with all else that leaves the model of the last check alone. -/
class Lenient [Engine σ S T] (R : Solver σ S T → Solver σ S T → Prop) :
    Prop extends Tolerant R where
  aside : ∀ {α : Type} {act : Action σ α} (c : Command S T), c.KeepsModel → c.SortFree →
    act.finalState = (Engine.perform c : Action σ (Answer S T)).finalState → Abides R (onEngine act)
  nativeSort : ∀ sort, Abides R (nativeSort sort)
  makeUninterpretedSort : ∀ name arity, Abides R (makeUninterpretedSort name arity)
  makeDatatypeSort : ∀ decl, Abides R (makeDatatypeSort decl)
  makeValue : ∀ l sort, Abides R (makeValue l sort)
  makeConstArray : ∀ fill sort, Abides R (makeConstArray fill sort)
  makeSymbol : ∀ name sort, Abides R (makeSymbol name sort)

/-- The preorder goes along with the calls of the engine that leave the model of the last check
alone, and with the changes of the session that leave its assumptions alone and put nothing back
into the supply. -/
class Permissive [Engine σ S T] (R : Solver σ S T → Solver σ S T → Prop) : Prop
    extends IsPreorder (Solver σ S T) R where
  called : ∀ {α : Type} {act : Action σ α}, Engine.Spares act → Abides R (onEngine act)
  nativeSort : ∀ sort, Abides R (nativeSort sort)
  changed : ∀ {s s'}, Change s s' → s'.engine = s.engine →
    s'.session.assumptions = s.session.assumptions →
      s.session.supply.Drawn s'.session.supply → R s s'

section Rules

variable [IsPreorder (Solver σ S T) R] {act : Action (Solver σ S T) α}

theorem abides_pure (a : α) : Abides R (pure a : Action (Solver σ S T) α) := refl

theorem abides_throw (e : Error) : Abides R (throw e : Action (Solver σ S T) α) := refl

theorem abides_ofExcept (r : Except Error α) :
    Abides R (Action.ofExcept r : Action (Solver σ S T) α) := by
  cases r with
  | ok a => exact abides_pure a
  | error e => exact abides_throw e

theorem abides_ask (question : Session S T → Except Error α) :
    Abides R (ask question : Action (Solver σ S T) α) := by
  intro s
  cases h : question s.session with
  | ok a =>
    rw [finalState_ok (show ask question s = .ok a s by rw [ask, h])]
    exact refl s
  | error e =>
    rw [finalState_error (show ask question s = .error e s by rw [ask, h])]
    exact refl s

omit [IsPreorder (Solver σ S T) R] in
theorem abides_get {next : Solver σ S T → Action (Solver σ S T) α}
    (abides : ∀ s, Abides R (next s)) :
    Abides R (get >>= next) :=
  fun s => abides s s

theorem Abides.bind {next : α → Action (Solver σ S T) β} (first : Abides R act)
    (rest : ∀ a, Abides R (next a)) : Abides R (act >>= next) := by
  intro s
  have before := first s
  cases h : act s with
  | ok a s' =>
    rw [finalState_ok h] at before
    rw [finalState, bind_ok h]
    exact IsTrans.trans _ _ _ before (rest a s')
  | error e s' =>
    rw [finalState_error h] at before
    rw [finalState_error (bind_error h)]
    exact before

omit [IsPreorder (Solver σ S T) R] in
theorem Abides.map {f : α → β} (abides : Abides R act) : Abides R (f <$> act) := by
  intro s
  rw [finalState_map]
  exact abides s

theorem abides_guard {c : Prop} [Decidable c] {e : Error} {next : PUnit → Action (Solver σ S T) α}
    (abides : ∀ u, Abides R (next u)) : Abides R (if c then throw e >>= next else next ⟨⟩) := by
  split
  · exact (abides_throw e).bind abides
  · exact abides ⟨⟩

theorem abides_mapM {f : α → Action (Solver σ S T) β} (each : ∀ a, Abides R (f a)) (as : List α) :
    Abides R (as.mapM f) := by
  induction as with
  | nil => exact abides_pure []
  | cons a as ih =>
    rw [List.mapM_cons]
    exact (each a).bind fun _ => ih.bind fun _ => abides_pure _

theorem abides_foldlM {f : β → α → Action (Solver σ S T) β} (each : ∀ b a, Abides R (f b a)) (b : β)
    (as : List α) : Abides R (as.foldlM f b) := by
  induction as generalizing b with
  | nil => exact abides_pure b
  | cons a as ih =>
    rw [List.foldlM_cons]
    exact (each b a).bind ih

end Rules

section Sessions

variable [Tolerant R]

theorem abides_update {change : Session S T → α × Session S T}
    (changes : ∀ s : Solver σ S T, Change s ⟨s.engine, (change s.session).2⟩)
    (kept : ∀ s : Session S T, s.Persists (change s).2) :
    Abides R (update change : Action (Solver σ S T) α) :=
  fun s => Tolerant.changed (changes s) rfl (kept s.session)

theorem abides_native (t : Term) : Abides R (native t : Action (Solver σ S T) T) := abides_ask _

theorem abides_natives (ts : List Term) : Abides R (natives ts : Action (Solver σ S T) (List T)) :=
  abides_mapM abides_native ts

theorem abides_intern (op : Op) (sort : LogicSort) (kind : TermKind)
    (children : List Term) (native : T) :
    Abides R (update (Session.intern op sort kind children native) : Action (Solver σ S T) Term) :=
  abides_update (fun s => .interned s op sort kind children native)
    fun s => s.persists_intern op sort kind children native

theorem abides_leaf (sort : LogicSort) (kind : TermKind) (children : List Term) (native : T) :
    Abides R (leaf sort kind children native : Action (Solver σ S T) Term) :=
  abides_intern _ _ _ _ _

theorem abides_named (name : String) (t : Term) :
    Abides R (do
      record fun s => { s with symbols := s.symbols.insert name t }
      return t : Action (Solver σ S T) Term) :=
  Abides.bind (abides_update (fun s => .named s name t) fun _ => ⟨rfl, rfl, rfl, .refl _⟩) fun _ =>
    abides_pure t

theorem abides_derive (op : Op) (args : List LogicSort) :
    Abides R (derive op args : Action (Solver σ S T) (Option LogicSort)) := by
  intro s
  obtain same | ⟨sort, derives, after⟩ := finalState_derive op args s
  · rw [same]
    exact refl s
  · rw [after]
    exact Tolerant.changed (.quiet (.derived s derives)) rfl ⟨rfl, rfl, rfl, .refl _⟩

theorem abides_reconcile (op : Op) (derived : Option LogicSort) (reported : LogicSort) :
    Abides R (reconcile op derived reported : Action (Solver σ S T) LogicSort) := by
  refine abides_update (fun s => ?_) fun s => ?_
  · cases h : s.session.arbiter.reconcile op derived reported with
    | mk sort noted =>
      cases noted with
      | none => exact .quiet (.called s s.engine s.session.notices)
      | some n => exact .quiet (.called s s.engine _)
  · cases h : s.arbiter.reconcile op derived reported with
    | mk sort noted =>
      cases noted with
      | none => exact ⟨rfl, rfl, rfl, .refl _⟩
      | some n => exact ⟨rfl, rfl, rfl, .refl _⟩

end Sessions

variable [Engine σ S T]

section Sorts

variable [Permissive R]

instance : Tolerant R where
  changed change engine kept := Permissive.changed change engine kept.assumptions kept.drawn

theorem abides_declare (name : String) (sort : LogicSort)
    (declared : sort.Declared) {make : Action σ S} (spares : Engine.Spares make) :
    Abides R (declare name sort make : Action (Solver σ S T) LogicSort) := by
  refine abides_get fun s => abides_guard fun _ => (Permissive.called spares).bind fun made => ?_
  refine Abides.bind (fun s => ?_) fun _ => abides_pure sort
  exact Permissive.changed (.sortDeclared s name declared made) rfl rfl (.refl _)

theorem abides_makeUninterpretedSort (name : String) (arity : UInt64) :
    Abides R (makeUninterpretedSort name arity : Action (Solver σ S T) LogicSort) :=
  abides_declare name (.uninterpreted name arity) trivial
    (Engine.spares_answered (.makeUninterpretedSort name arity) trivial rfl)

theorem abides_makeDatatypeSort (decl : DatatypeDecl) :
    Abides R (makeDatatypeSort decl : Action (Solver σ S T) LogicSort) := by
  unfold makeDatatypeSort
  split
  · exact abides_throw _
  · exact abides_declare decl.name (.datatype decl.name) trivial
      (Engine.spares_answered (.makeDatatypeSort decl) trivial rfl)

theorem abides_called {act : Action σ α} {f : α → Answer S T} (c : Command S T)
    (keeps : c.KeepsModel) (performs : Engine.perform c = f <$> act) : Abides R (onEngine act) :=
  Permissive.called (Engine.spares_answered c keeps performs)

theorem abides_makeValue (l : Literal) (sort : LogicSort) :
    Abides R (makeValue l sort : Action (Solver σ S T) Term) := by
  rw [makeValue]
  refine abides_guard fun _ => (abides_ofExcept _).bind fun l => ?_
  refine (Permissive.nativeSort sort).bind fun made => ?_
  exact (abides_called (.makeValue l made) trivial rfl).bind fun _ => abides_leaf _ _ _ _

theorem abides_makeConstArray (fill : Term) (sort : LogicSort) :
    Abides R (makeConstArray fill sort : Action (Solver σ S T) Term) := by
  refine (abides_ofExcept _).bind fun _ => (abides_ofExcept _).bind fun _ => ?_
  refine (abides_native fill).bind fun n => (Permissive.nativeSort sort).bind fun made => ?_
  exact (abides_called (.makeConstArray n made) trivial rfl).bind fun _ => abides_leaf _ _ _ _

theorem abides_makeSymbol (name : String) (sort : LogicSort) :
    Abides R (makeSymbol name sort : Action (Solver σ S T) Term) := by
  refine abides_get fun s => abides_guard fun _ => (Permissive.nativeSort sort).bind fun made => ?_
  refine (abides_called (.makeSymbol name made) trivial rfl).bind fun n => ?_
  refine (abides_leaf sort (.symbol name) [] n).bind fun t => ?_
  exact abides_named name t

instance : Lenient R where
  aside c keeps _ same := Permissive.called ⟨c, keeps, same⟩
  nativeSort := Permissive.nativeSort
  makeUninterpretedSort := abides_makeUninterpretedSort
  makeDatatypeSort := abides_makeDatatypeSort
  makeValue := abides_makeValue
  makeConstArray := abides_makeConstArray
  makeSymbol := abides_makeSymbol

end Sorts

variable [Lenient R]

section Operations

theorem abides_answered {act : Action σ α} {f : α → Answer S T} (c : Command S T)
    (keeps : c.KeepsModel)
    (free : c.SortFree) (performs : Engine.perform c = f <$> act) : Abides R (onEngine act) :=
  Lenient.aside c keeps free (by rw [performs, finalState_map])

theorem abides_done {act : Action σ Unit} (c : Command S T)
    (keeps : c.KeepsModel) (free : c.SortFree)
    (performs : Engine.perform c = do act; return .done) : Abides R (onEngine act) :=
  Lenient.aside c keeps free (by rw [performs, finalState_bind_pure])

theorem abides_withNative (sort : LogicSort) :
    Abides R (withNative sort : Action (Solver σ S T) LogicSort) :=
  Abides.bind (Abides.map (Lenient.nativeSort sort)) fun _ => abides_pure sort

theorem abides_makeSort (kind : SortKind) :
    Abides R (makeSort kind : Action (Solver σ S T) LogicSort) := by
  unfold makeSort
  split
  · exact abides_withNative _
  · exact abides_withNative _
  · exact abides_withNative _
  · exact abides_throw _

theorem abides_makeBitVecSort (width : UInt64) :
    Abides R (makeBitVecSort width : Action (Solver σ S T) LogicSort) := by
  unfold makeBitVecSort
  split
  · exact abides_throw _
  · exact abides_withNative _

theorem abides_makeFunctionSort (domain : List LogicSort) (range : LogicSort) :
    Abides R (makeFunctionSort domain range : Action (Solver σ S T) LogicSort) := by
  unfold makeFunctionSort
  split
  · exact abides_throw _
  · exact abides_withNative _

theorem abides_makeInt (i : Int64) (sort : LogicSort) :
    Abides R (makeInt i sort : Action (Solver σ S T) Term) := by
  unfold makeInt
  split
  · exact Lenient.makeValue _ _
  · exact Lenient.makeValue _ _
  · exact Lenient.makeValue _ _
  · exact abides_throw _

theorem abides_parseValue (repr : String) (sort : LogicSort) (base : Nat) :
    Abides R (parseValue repr sort base : Action (Solver σ S T) Term) :=
  (abides_ofExcept _).bind fun l => Lenient.makeValue l sort

theorem abides_makeTerm (op : Op) (args : List Term) :
    Abides R (makeTerm op args : Action (Solver σ S T) Term) := by
  refine (abides_natives args).bind fun ns => (abides_derive op _).bind fun derived => ?_
  refine (abides_answered (.makeTerm op ns) trivial trivial rfl).bind fun n => ?_
  refine (abides_answered (.sortOf n) trivial trivial rfl).bind fun reported => ?_
  exact (abides_reconcile op derived reported).bind fun sort => abides_intern _ _ _ _ _

theorem abides_wrapValue (n : T) (sort : LogicSort) :
    Abides R (wrapValue n sort : Action (Solver σ S T) Term) :=
  abides_get fun _ => abides_leaf _ _ _ _

theorem abides_wrapBase (base : Option T) (element : LogicSort) :
    Abides R (wrapBase base element : Action (Solver σ S T) (Option Term)) := by
  cases base with
  | none => exact abides_pure none
  | some b =>
    exact (abides_answered (.sortOf b) trivial trivial rfl).bind fun _ => abides_guard fun _ =>
      (abides_wrapValue b element).bind fun _ => abides_pure _

theorem abides_getArrayValues (t : Term) :
    Abides R (getArrayValues t : Action (Solver σ S T) (ArrayModel Term)) := by
  refine (abides_ofExcept _).bind fun sorts => (abides_native t).bind fun n => ?_
  refine (abides_answered (.getArrayValues n) trivial trivial rfl).bind fun raw => ?_
  refine (abides_wrapBase raw.base sorts.2).bind fun base => ?_
  refine (abides_mapM (fun cell => ?_) raw.cells).bind fun _ => abides_pure _
  exact (abides_wrapValue cell.1 sorts.1).bind fun _ =>
    (abides_wrapValue cell.2 sorts.2).bind fun _ =>
    abides_pure _

theorem abides_getArray (t : Term) : Abides R (getArray t : Action (Solver σ S T) Term) := by
  refine (abides_getArrayValues t).bind fun m => ?_
  split
  · exact abides_get fun _ => abides_throw _
  · exact (Lenient.makeConstArray _ t.sort).bind fun start =>
      abides_foldlM (fun _ _ => abides_makeTerm _ _) start m.cells

theorem abides_getValue (t : Term) : Abides R (getValue t : Action (Solver σ S T) Term) := by
  unfold getValue
  split
  · exact abides_getArray t
  · refine (abides_native t).bind fun n =>
      (abides_answered (.getValue n) trivial trivial rfl).bind fun v => ?_
    exact abides_wrapValue v t.sort

theorem abides_getUnsatCore : Abides R (getUnsatCore : Action (Solver σ S T) (List Term)) :=
  (abides_answered .getUnsatCore trivial trivial rfl).bind fun _ => abides_get fun _ => abides_ask _

theorem abides_assertFormula (t : Term) : Abides R (assertFormula t : Action (Solver σ S T) Unit) :=
  (abides_ofExcept _).bind fun _ => (abides_native t).bind fun n =>
    abides_done (.assertFormula n) trivial trivial rfl

end Operations

section Walks

theorem abides_walkWith {r : Rewriter (Solver σ S T)} (visit : ∀ t news, Abides R (r.visit t news))
    (rebuild : ∀ op news, Abides R (r.rebuild op news)) (w : Walker) (t : Term) :
    Abides R (walkWith r w t) :=
  fun s => walkWith_keeps (I := R s)
    (fun t news s' before => IsTrans.trans _ _ _ before (visit t news s'))
    (fun op news s' before => IsTrans.trans _ _ _ before (rebuild op news s')) w t (refl s)

theorem abides_replace (w : Walker) (t : Term) :
    Abides R (walkWith (.identity makeTerm) w t : Action (Solver σ S T) (Walker × Term)) :=
  abides_walkWith (fun _ _ => abides_pure _) abides_makeTerm w t

theorem abides_substituteAll (w : Walker) (ts : List Term) :
    Abides R (substituteAll w ts : Action (Solver σ S T) (List Term)) := by
  induction ts generalizing w with
  | nil => exact abides_pure []
  | cons t ts ih =>
    rw [substituteAll]
    exact (abides_replace w t).bind fun found => (ih found.1).bind fun _ => abides_pure _

theorem abides_substituteTerms (ts : List Term) (map : TermMap) :
    Abides R (substituteTerms ts map : Action (Solver σ S T) (List Term)) :=
  (abides_ofExcept _).bind fun w => abides_substituteAll w ts

theorem abides_substitute (t : Term) (map : TermMap) :
    Abides R (substitute t map : Action (Solver σ S T) Term) :=
  (abides_ofExcept _).bind fun w => (abides_replace w t).bind fun _ => abides_pure _

mutual
theorem abides_declareSorts (sort : LogicSort) :
    Abides R (declareSorts sort : Action (Solver σ S T) Unit) := by
  cases sort with
  | uninterpreted name arity =>
    rw [declareSorts]
    refine abides_get fun s => ?_
    split
    · exact (Lenient.makeUninterpretedSort name arity).bind fun _ => abides_pure ()
    · exact abides_pure ()
  | datatype name =>
    rw [declareSorts]
    refine abides_get fun s => ?_
    split
    · exact abides_throw _
    · exact abides_pure ()
  | array index element =>
    rw [declareSorts]
    exact (abides_declareSorts element).bind fun _ => abides_declareSorts index
  | function domain range =>
    rw [declareSorts]
    exact (abides_declareSorts range).bind fun _ => abides_declareAll domain
  | bool | int | real | bitVec | param | unresolved =>
    rw [declareSorts]
    exact abides_pure ()
theorem abides_declareAll (sorts : List LogicSort) :
    Abides R (declareAll sorts : Action (Solver σ S T) Unit) := by
  cases sorts with
  | nil =>
    rw [declareAll]
    exact abides_pure ()
  | cons sort rest =>
    rw [declareAll]
    exact (abides_declareAll rest).bind fun _ => abides_declareSorts sort
end

theorem abides_matchSymbol (name : String) (sort : LogicSort) :
    Abides R (matchSymbol name sort : Action (Solver σ S T) Term) := by
  refine abides_get fun s => ?_
  split
  · exact (abides_ofExcept _).bind fun _ => abides_pure _
  · exact (abides_declareSorts sort).bind fun _ => Lenient.makeSymbol name sort

theorem abides_translate (t : Term) (children : List Term) :
    Abides R (translate t children : Action (Solver σ S T) Term) := by
  unfold translate
  split
  · exact abides_matchSymbol _ _
  · exact Lenient.makeValue _ _
  · exact Lenient.makeConstArray _ _
  · exact abides_throw _
  · exact abides_makeTerm _ _

theorem abides_transfer (t : Term) : Abides R (transfer t : Action (Solver σ S T) Term) :=
  (abides_walkWith (fun t news => (abides_translate t news).map) abides_makeTerm _ t).bind
    fun _ => abides_pure _

end Walks

section Requests

omit [Lenient R] [Engine σ S T] in
theorem Abides.done {act : Action (Solver σ S T) Unit} (abides : Abides R act) :
    Abides R (do act; return .done : Action (Solver σ S T) (Answer LogicSort Term)) := by
  intro s
  rw [finalState_bind_pure]
  exact abides s

theorem abides_command {c : Command LogicSort Term} (keeps : c.KeepsModel) :
    Abides R (Engine.perform c : Action (Solver σ S T) (Answer LogicSort Term)) := by
  cases c with
  | checkSat | checkSatAssuming | checkSatInterruptible | reset | resetAssertions =>
    exact keeps.elim
  | name | capabilities | literal | sortOf | opOf | children => exact refl
  | setOption option value => exact (abides_done (.setOption option value) trivial trivial rfl).done
  | setLogic logic => exact (abides_done (.setLogic logic) trivial trivial rfl).done
  | makeSort kind => exact (abides_makeSort kind).map
  | makeBitVecSort width => exact (abides_makeBitVecSort width).map
  | makeArraySort index element => exact (abides_withNative (.array index element)).map
  | makeFunctionSort domain range => exact (abides_makeFunctionSort domain range).map
  | makeUninterpretedSort name arity => exact (Lenient.makeUninterpretedSort name arity).map
  | makeDatatypeSort decl => exact (Lenient.makeDatatypeSort decl).map
  | makeValue l sort => exact (Lenient.makeValue l sort).map
  | makeConstArray fill sort => exact (Lenient.makeConstArray fill sort).map
  | makeSymbol name sort => exact (Lenient.makeSymbol name sort).map
  | makeTerm op args => exact (abides_makeTerm op args).map
  | assertFormula t => exact (abides_assertFormula t).done
  | getValue t => exact (abides_getValue t).map
  | getArrayValues t => exact (abides_getArrayValues t).map
  | getUnsatCore => exact abides_getUnsatCore.map
  | push levels => exact (abides_done (.push levels) trivial trivial rfl).done
  | pop levels => exact (abides_done (.pop levels) trivial trivial rfl).done

theorem abides_perform {q : Request} (keeps : q.KeepsModel) :
    Abides R (q.perform : Action (Solver σ S T) (Answer LogicSort Term)) := by
  cases q with
  | command c =>
    refine abides_command ?_
    cases c with
    | checkSat | checkSatAssuming | checkSatInterruptible | reset | resetAssertions => exact keeps
    | _ => trivial
  | makeBool b => exact (Lenient.makeValue _ _).map
  | makeInt i sort => exact (abides_makeInt i sort).map
  | parseValue repr sort base => exact (abides_parseValue repr sort base).map
  | getSymbol name => exact (abides_ask _).map
  | substitute t map => exact (abides_substitute t map).map
  | substituteTerms ts map => exact (abides_substituteTerms ts map).map
  | transfer t => exact (abides_transfer t).map

section Every

variable (assumed : ∀ s assumptions, R s ⟨s.engine, { s.session with assumptions }⟩)

include assumed

/-- A preorder that goes along with the checks and resets, too, goes along with every request. -/
theorem abides_perform_of_reset
    (aside : ∀ {α : Type} {act : Action σ α} (c : Command S T), c.SortFree →
      act.finalState = (Engine.perform c : Action σ (Answer S T)).finalState →
        Abides R (onEngine act))
    (resets : Abides R (reset : Action (Solver σ S T) Unit)) (q : Request) :
    Abides R (q.perform : Action (Solver σ S T) (Answer LogicSort Term)) := by
  by_cases keeps : q.KeepsModel
  · exact abides_perform keeps
  · cases q with
    | command c =>
      cases c with
      | checkSat => exact Abides.map (aside .checkSat trivial (finalState_map _ _).symm)
      | checkSatInterruptible token =>
        exact Abides.map (aside (.checkSatInterruptible token) trivial (finalState_map _ _).symm)
      | checkSatAssuming assumptions =>
        have checks : Abides R (checkSatAssuming assumptions : Action (Solver σ S T) Verdict) := by
          refine (abides_ofExcept _).bind fun _ => (abides_natives assumptions).bind fun ns => ?_
          refine Abides.bind (fun s => ?_) fun _ =>
            aside (.checkSatAssuming ns) trivial (finalState_map _ _).symm
          have noted := Change.quiet (.called
            ⟨s.engine, { s.session with
              assumptions := (rememberAssumptions ns assumptions s.session).assumptions }⟩
            s.engine (rememberAssumptions ns assumptions s.session).notices)
          exact IsTrans.trans _ _ _ (assumed s _)
            (Tolerant.changed noted rfl ⟨rfl, rfl, rfl, .refl _⟩)
        exact Abides.map checks
      | reset => exact Abides.done resets
      | resetAssertions =>
        have drops : Abides R (resetAssertions : Action (Solver σ S T) Unit) :=
          Abides.bind (fun s => assumed s {}) fun _ =>
            aside .resetAssertions trivial (finalState_bind_pure _ _).symm
        exact Abides.done drops
      | _ => exact absurd trivial keeps
    | _ => exact absurd trivial keeps

theorem abides_perform_every (called : ∀ {α : Type} (act : Action σ α), Abides R (onEngine act))
    (renewed : ∀ s, R s ⟨s.engine, s.session.renew⟩) (q : Request) :
    Abides R (q.perform : Action (Solver σ S T) (Answer LogicSort Term)) :=
  abides_perform_of_reset assumed (fun _ _ _ => called _) ((called _).bind fun _ => renewed) q

end Every

end Requests

end Solver

end FormulaGraph

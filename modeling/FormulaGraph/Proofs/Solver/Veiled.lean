import FormulaGraph.Proofs.Rewrite.Abreast
import FormulaGraph.Proofs.Solver.Run

/-!
Two solvers over one kind of engine that differ in what the last check has left: the model and the
core that the engine keeps, the assumptions that the session remembers, and the notices. What is
asked of both is done alike, unless it reads what the check has left.
-/

namespace FormulaGraph

namespace Action

variable {σ α β : Type} {R : σ → σ → Prop} {act : Action σ α} {next : α → Action σ β}

/-- From related states the action does the same, and ends in related states. -/
def Overlooks (R : σ → σ → Prop) (act : Action σ α) :
    Prop := ∀ s s', R s s' → Alike R (act s) (act s')

theorem Overlooks.bind (first : Overlooks R act) (rest : ∀ a, Overlooks R (next a)) :
    Overlooks R (act >>= next) :=
  fun s s' related => (first s s' related).bind fun a t t' _ related => rest a t t' related

theorem Overlooks.map (f : α → β) (overlooks : Overlooks R act) : Overlooks R (f <$> act) :=
  fun s s' related => (overlooks s s' related).map f

theorem overlooks_pure (a : α) : Overlooks R (pure a) := fun _ _ related => .ok a related

theorem overlooks_throw (e : Error) : Overlooks R (throw e : Action σ α) :=
    fun _ _ related => .error e related

theorem overlooks_ofExcept (r : Except Error α) : Overlooks R (Action.ofExcept r) :=
  fun _ _ related => .ofExcept r related

theorem overlooks_guard {c : Prop} [Decidable c] {e : Error} {next : PUnit → Action σ α}
    (passed : Overlooks R (next ⟨⟩)) : Overlooks R (if c then throw e >>= next else next ⟨⟩) := by
  split
  · exact overlooks_throw e
  · exact passed

theorem overlooks_get {next : σ → Action σ α} (same : ∀ s s', R s s' → next s' = next s)
    (rest : ∀ s, Overlooks R (next s)) : Overlooks R (get >>= next) := by
  intro s s' related
  show Alike R (next s s) (next s' s')
  rw [same s s' related]
  exact rest s s s' related

theorem overlooks_mapM {f : α → Action σ β} (each : ∀ a, Overlooks R (f a)) (as : List α) :
    Overlooks R (as.mapM f) := by
  induction as with
  | nil => exact overlooks_pure []
  | cons a as ih =>
    rw [List.mapM_cons]
    exact (each a).bind fun _ => Overlooks.bind ih fun _ => overlooks_pure _

theorem overlooks_foldlM {f : β → α → Action σ β} (each : ∀ b a, Overlooks R (f b a)) (b : β)
    (as : List α) : Overlooks R (as.foldlM f b) := by
  induction as generalizing b with
  | nil => exact overlooks_pure b
  | cons a as ih =>
    rw [List.foldlM_cons]
    exact (each b a).bind ih

theorem Overlooks.of_map {f : α → β} (injective : f.Injective)
    (overlooks : Overlooks R (f <$> act)) :
    Overlooks R act := by
  intro s s' related
  have alike := overlooks s s' related
  cases left : act s with
  | ok a t =>
    rw [map_ok left] at alike
    cases right : act s' with
    | ok a' t' =>
      rw [map_ok right] at alike
      generalize wrapped : f a = b, wrapped' : f a' = b' at alike
      cases alike with
      | ok _ related => exact injective (wrapped.trans wrapped'.symm) ▸ .ok a related
    | error e t' =>
      rw [map_error right] at alike
      cases alike
  | error e t =>
    rw [map_error left] at alike
    cases right : act s' with
    | ok a' t' =>
      rw [map_ok right] at alike
      cases alike
    | error e' t' =>
      rw [map_error right] at alike
      cases alike with
      | error _ related => exact .error e related

end Action

open FormulaGraph.Action

/-- The command reads what the last check has left. -/
def Command.ReadsCheck {S T : Type} : Command S T → Prop
  | .getValue _ | .getArrayValues _ | .getUnsatCore => True
  | _ => False

namespace Engine

variable {σ S T α : Type} [Engine σ S T] {Q : σ → σ → Prop} {hidden : Command S T → Prop} {e e' : σ}

/-- Engines in related states do the same, whatever they are told, unless it is among what is
hidden. -/
structure Discreet (Q : σ → σ → Prop) (hidden : Command S T → Prop) : Prop where
  reads : ∀ {c}, hidden c → c.ReadsCheck
  performs : ∀ {c}, ¬ hidden c → Overlooks Q (Engine.perform c)
  describes : ∀ {e e'}, Q e e' → Engine.describe e' = Engine.describe e
  reports : ∀ {e e'}, Q e e' → Q (Engine.takeNotices e).2 (Engine.takeNotices e').2

namespace Discreet

variable (discreet : Discreet Q hidden)

include discreet

theorem answered {act : Action σ α} {f : α → Answer S T} {c : Command S T} (shown : ¬ hidden c)
    (performs : Engine.perform c = f <$> act) (injective : f.Injective) : Overlooks Q act :=
  .of_map injective (performs ▸ discreet.performs shown)

theorem done {act : Action σ Unit} {c : Command S T} (shown : ¬ hidden c)
    (performs : Engine.perform c = do act; return .done) : Overlooks Q act := by
  have wrapped : Engine.perform c = (fun _ : Unit => (.done : Answer S T)) <$> act :=
    performs.trans (map_eq_pure_bind _ act).symm
  exact discreet.answered shown wrapped fun _ _ _ => rfl

theorem sort {act : Action σ S} (c : Command S T) (plain : ¬ c.ReadsCheck)
    (performs : Engine.perform c = Answer.sort <$> act) : Overlooks Q act :=
  discreet.answered (mt discreet.reads plain) performs fun _ _ => Answer.sort.inj

theorem term {act : Action σ T} (c : Command S T) (plain : ¬ c.ReadsCheck)
    (performs : Engine.perform c = Answer.term <$> act) : Overlooks Q act :=
  discreet.answered (mt discreet.reads plain) performs fun _ _ => Answer.term.inj

theorem told {read : σ → α} {f : α → Answer S T} {c : Command S T} (shown : ¬ hidden c)
    (performs : Engine.perform c = fun e : σ => .ok (f (read e)) e) (injective : f.Injective)
    (related : Q e e') : read e' = read e := by
  have alike := discreet.performs shown e e' related
  rw [performs] at alike
  dsimp only at alike
  generalize left : f (read e) = a, right : f (read e') = a' at alike
  cases alike with
  | ok _ _ => exact injective (right.trans left.symm)

theorem name (related : Q e e') : Engine.name e' = Engine.name e :=
  discreet.told (c := .name) discreet.reads rfl (fun _ _ => Answer.text.inj) related

theorem capabilities (related : Q e e') : Engine.capabilities e' = Engine.capabilities e :=
  discreet.told (c := .capabilities) discreet.reads rfl (fun _ _ => Answer.capabilities.inj) related

theorem literal (n : T) (related : Q e e') : Engine.literal e' n = Engine.literal e n :=
  discreet.told (c := .literal n) discreet.reads rfl (fun _ _ => Answer.literal.inj) related

end Discreet

end Engine

section Sessions

variable {S T : Type} [BEq T] [Hashable T]

/-- The session, had it another check behind it. -/
def Session.rechecked (assumptions : Std.HashMap T Term)
    (notices : Array Notice) (s : Session S T) :
    Session S T :=
  { s with assumptions, notices }

theorem intern_rechecked (session : Session S T) (op : Op) (sort : LogicSort) (kind : TermKind)
    (children : List Term) (native : T) (assumptions : Std.HashMap T Term)
    (notices : Array Notice) :
    (session.rechecked assumptions notices).intern op sort kind children native =
      ((session.intern op sort kind children native).1,
        (session.intern op sort kind children native).2.rechecked assumptions notices) := by
  unfold Session.intern
  dsimp only [Session.rechecked]
  split <;> rfl

end Sessions

namespace Solver

variable {σ S T α β : Type} [BEq T] [Hashable T] {Q : σ → σ → Prop} {hidden : Command S T → Prop}

/-- The engines are related, and the sessions differ in nothing but the assumptions and the
notices. -/
def Veiled (Q : σ → σ → Prop) (s s' : Solver σ S T) : Prop :=
  Q s.engine s'.engine ∧ ∃ assumptions notices, s'.session = s.session.rechecked assumptions notices

section Rules

theorem overlooks_ask {question : Session S T → Except Error α}
    (same : ∀ session assumptions notices,
      question (session.rechecked assumptions notices) = question session) :
    Overlooks (Veiled Q) (ask question) := by
  rintro ⟨e, session⟩ ⟨e', _⟩ ⟨related, assumptions, notices, rfl⟩
  have veiled : Veiled Q ⟨e, session⟩ ⟨e', session.rechecked assumptions notices⟩ :=
    ⟨related, assumptions, notices, rfl⟩
  unfold ask
  dsimp only
  rw [same]
  cases question session with
  | ok a => exact .ok a veiled
  | error x => exact .error x veiled

theorem overlooks_update {change : Session S T → α × Session S T}
    (same : ∀ session assumptions notices, ∃ assumptions' notices',
      change (session.rechecked assumptions notices) =
        ((change session).1, (change session).2.rechecked assumptions' notices')) :
    Overlooks (Veiled Q) (update change) := by
  rintro ⟨e, session⟩ ⟨e', _⟩ ⟨related, assumptions, notices, rfl⟩
  obtain ⟨assumptions', notices', changed⟩ := same session assumptions notices
  unfold update
  dsimp only
  rw [changed]
  exact .ok _ ⟨related, assumptions', notices', rfl⟩

theorem overlooks_record {change : Session S T → Session S T}
    (same : ∀ session assumptions notices, ∃ assumptions' notices',
      change (session.rechecked assumptions notices) =
        (change session).rechecked assumptions' notices') :
    Overlooks (Veiled Q) (record change) := by
  refine overlooks_update fun session assumptions notices => ?_
  obtain ⟨assumptions', notices', changed⟩ := same session assumptions notices
  exact ⟨assumptions', notices', congrArg (Prod.mk ()) changed⟩

theorem overlooks_intern (op : Op) (sort : LogicSort) (kind : TermKind)
    (children : List Term) (native : T) :
    Overlooks (Veiled Q)
      (update (Session.intern op sort kind children native) : Action (Solver σ S T) Term) :=
  overlooks_update fun _ _ _ => ⟨_, _, intern_rechecked _ _ _ _ _ _ _ _⟩

theorem overlooks_native (t : Term) : Overlooks (Veiled Q) (native t : Action (Solver σ S T) T) :=
  overlooks_ask fun _ _ _ => rfl

theorem overlooks_natives (ts : List Term) :
    Overlooks (Veiled Q) (natives ts : Action (Solver σ S T) (List T)) :=
  overlooks_mapM overlooks_native ts

theorem overlooks_derive (op : Op) (args : List LogicSort) :
    Overlooks (Veiled Q) (derive op args : Action (Solver σ S T) (Option LogicSort)) := by
  rintro ⟨e, session⟩ ⟨e', _⟩ ⟨related, assumptions, notices, rfl⟩
  unfold derive Session.rechecked
  dsimp only
  cases SortArbiter.derive op args session.arbiter with
  | ok sort arbiter => exact .ok sort ⟨related, assumptions, notices, rfl⟩
  | error x arbiter => exact .error x ⟨related, assumptions, notices, rfl⟩

theorem overlooks_reconcile (op : Op) (derived : Option LogicSort) (reported : LogicSort) :
    Overlooks (Veiled Q) (reconcile op derived reported : Action (Solver σ S T) LogicSort) := by
  refine overlooks_update fun session assumptions notices => ?_
  dsimp only [Session.rechecked]
  cases session.arbiter.reconcile op derived reported with
  | mk sort noted =>
    cases noted with
    | none => exact ⟨assumptions, notices, rfl⟩
    | some n => exact ⟨assumptions, notices.push n, rfl⟩

/-- What only looks at the session does not look at what the checks have left there. -/
theorem overlooks_getSession {next : Solver σ S T → Action (Solver σ S T) α}
    (same : ∀ e e' session assumptions notices,
      next ⟨e', session.rechecked assumptions notices⟩ = next ⟨e, session⟩)
    (rest : ∀ s, Overlooks (Veiled Q) (next s)) : Overlooks (Veiled Q) (get >>= next) := by
  refine overlooks_get ?_ rest
  rintro ⟨e, session⟩ ⟨e', _⟩ ⟨-, assumptions, notices, rfl⟩
  exact same e e' session assumptions notices

variable [Engine σ S T] (discreet : Engine.Discreet Q hidden)

include discreet in
theorem veiled_withEngine {e e' : σ} (related : Q e e') (session : Session S T)
    (assumptions : Std.HashMap T Term) (notices : Array Notice) :
    Veiled Q (withEngine e session) (withEngine e' (session.rechecked assumptions notices)) := by
  have reports := discreet.reports related
  unfold withEngine
  dsimp only
  split <;> split <;> exact ⟨reports, _, _, rfl⟩

include discreet in
theorem overlooks_onEngine {act : Action σ α} (overlooks : Overlooks Q act) :
    Overlooks (Veiled Q) (onEngine act : Action (Solver σ S T) α) := by
  rintro ⟨e, session⟩ ⟨e', _⟩ ⟨related, assumptions, notices, rfl⟩
  have alike := overlooks e e' related
  unfold onEngine
  dsimp only
  generalize act e = r, act e' = r' at alike
  cases alike with
  | ok a related => exact .ok a (veiled_withEngine discreet related session assumptions notices)
  | error x related =>
    exact .error x (veiled_withEngine discreet related session assumptions notices)

end Rules

variable [Engine σ S T] (discreet : Engine.Discreet Q hidden)

include discreet

section Sorts

theorem overlooks_firstUse {act : Action σ S} (overlooks : Overlooks Q act) (sort : LogicSort) :
    Overlooks (Veiled Q) (do
      let made ← onEngine act
      record fun s => { s with sorts := s.sorts.insert sort made }
      return made : Action (Solver σ S T) S) :=
  (overlooks_onEngine discreet overlooks).bind fun made =>
    (overlooks_record fun _ _ _ => ⟨_, _, rfl⟩).bind fun _ => overlooks_pure made

omit discreet in
mutual
theorem overlooks_nativeSort (discreet : Engine.Discreet Q hidden) (sort : LogicSort) :
    Overlooks (Veiled Q) (nativeSort sort : Action (Solver σ S T) S) := by
  rw [nativeSort]
  refine overlooks_getSession (fun _ _ _ _ _ => rfl) fun s => ?_
  split
  · exact overlooks_pure _
  · cases sort with
    | bool => exact overlooks_firstUse discreet (discreet.sort (.makeSort .bool) id rfl) _
    | int => exact overlooks_firstUse discreet (discreet.sort (.makeSort .int) id rfl) _
    | real => exact overlooks_firstUse discreet (discreet.sort (.makeSort .real) id rfl) _
    | bitVec w => exact overlooks_firstUse discreet (discreet.sort (.makeBitVecSort w) id rfl) _
    | array index element =>
      exact (overlooks_nativeSort discreet index).bind fun i =>
        (overlooks_nativeSort discreet element).bind fun x =>
        overlooks_firstUse discreet (discreet.sort (.makeArraySort i x) id rfl) _
    | function domain range =>
      exact (overlooks_nativeSorts discreet domain).bind fun ds =>
        (overlooks_nativeSort discreet range).bind fun r =>
        overlooks_firstUse discreet (discreet.sort (.makeFunctionSort ds r) id rfl) _
    | uninterpreted | datatype | param | unresolved => exact overlooks_throw _
theorem overlooks_nativeSorts (discreet : Engine.Discreet Q hidden) (sorts : List LogicSort) :
    Overlooks (Veiled Q) (nativeSorts sorts : Action (Solver σ S T) (List S)) := by
  cases sorts with
  | nil =>
    rw [nativeSorts]
    exact overlooks_pure _
  | cons sort rest =>
    rw [nativeSorts]
    exact (overlooks_nativeSort discreet sort).bind fun _ =>
      (overlooks_nativeSorts discreet rest).bind fun _ => overlooks_pure _
end

theorem overlooks_withNative (sort : LogicSort) :
    Overlooks (Veiled Q) (withNative sort : Action (Solver σ S T) LogicSort) :=
  ((overlooks_nativeSort discreet sort).map fun _ => ()).bind fun _ => overlooks_pure sort

theorem overlooks_makeSort (kind : SortKind) :
    Overlooks (Veiled Q) (makeSort kind : Action (Solver σ S T) LogicSort) := by
  unfold makeSort
  split
  · exact overlooks_withNative discreet _
  · exact overlooks_withNative discreet _
  · exact overlooks_withNative discreet _
  · exact overlooks_throw _

theorem overlooks_makeBitVecSort (width : UInt64) :
    Overlooks (Veiled Q) (makeBitVecSort width : Action (Solver σ S T) LogicSort) := by
  unfold makeBitVecSort
  split
  · exact overlooks_throw _
  · exact overlooks_withNative discreet _

theorem overlooks_makeFunctionSort (domain : List LogicSort) (range : LogicSort) :
    Overlooks (Veiled Q) (makeFunctionSort domain range : Action (Solver σ S T) LogicSort) := by
  unfold makeFunctionSort
  split
  · exact overlooks_throw _
  · exact overlooks_withNative discreet _

theorem overlooks_declare (name : String) (sort : LogicSort) {make : Action σ S}
    (overlooks : Overlooks Q make) :
    Overlooks (Veiled Q) (declare name sort make : Action (Solver σ S T) LogicSort) :=
  overlooks_getSession (fun _ _ _ _ _ => rfl) fun _ => overlooks_guard <|
    (overlooks_onEngine discreet overlooks).bind fun _ =>
      (overlooks_record fun _ _ _ => ⟨_, _, rfl⟩).bind fun _ => overlooks_pure sort

theorem overlooks_makeUninterpretedSort (name : String) (arity : UInt64) :
    Overlooks (Veiled Q) (makeUninterpretedSort name arity : Action (Solver σ S T) LogicSort) :=
  overlooks_declare discreet name _ (discreet.sort (.makeUninterpretedSort name arity) id rfl)

theorem overlooks_makeDatatypeSort (decl : DatatypeDecl) :
    Overlooks (Veiled Q) (makeDatatypeSort decl : Action (Solver σ S T) LogicSort) := by
  unfold makeDatatypeSort
  split
  · exact overlooks_throw _
  · exact overlooks_declare discreet _ _ (discreet.sort (.makeDatatypeSort decl) id rfl)

end Sorts

section Terms

theorem overlooks_makeValue (l : Literal) (sort : LogicSort) :
    Overlooks (Veiled Q) (makeValue l sort : Action (Solver σ S T) Term) := by
  unfold makeValue
  refine overlooks_guard <| (overlooks_ofExcept _).bind fun l => ?_
  refine (overlooks_nativeSort discreet sort).bind fun made => ?_
  exact (overlooks_onEngine discreet (discreet.term (.makeValue l made) id rfl)).bind fun _ =>
    overlooks_intern _ _ _ _ _

theorem overlooks_makeInt (i : Int64) (sort : LogicSort) :
    Overlooks (Veiled Q) (makeInt i sort : Action (Solver σ S T) Term) := by
  unfold makeInt
  split
  · exact overlooks_makeValue discreet _ _
  · exact overlooks_makeValue discreet _ _
  · exact overlooks_makeValue discreet _ _
  · exact overlooks_throw _

theorem overlooks_parseValue (repr : String) (sort : LogicSort) (base : Nat) :
    Overlooks (Veiled Q) (parseValue repr sort base : Action (Solver σ S T) Term) :=
  (overlooks_ofExcept _).bind fun l => overlooks_makeValue discreet l sort

theorem overlooks_makeConstArray (fill : Term) (sort : LogicSort) :
    Overlooks (Veiled Q) (makeConstArray fill sort : Action (Solver σ S T) Term) := by
  refine (overlooks_ofExcept _).bind fun _ => (overlooks_ofExcept _).bind fun _ => ?_
  refine (overlooks_native fill).bind fun n =>
    (overlooks_nativeSort discreet sort).bind fun made => ?_
  exact (overlooks_onEngine discreet (discreet.term (.makeConstArray n made) id rfl)).bind fun _ =>
    overlooks_intern _ _ _ _ _

theorem overlooks_makeSymbol (name : String) (sort : LogicSort) :
    Overlooks (Veiled Q) (makeSymbol name sort : Action (Solver σ S T) Term) := by
  refine overlooks_getSession (fun _ _ _ _ _ => rfl) fun _ => overlooks_guard ?_
  refine (overlooks_nativeSort discreet sort).bind fun made => ?_
  refine (overlooks_onEngine discreet (discreet.term (.makeSymbol name made) id rfl)).bind
    fun n => ?_
  refine (overlooks_intern _ _ _ _ _).bind fun t => ?_
  exact (overlooks_record fun _ _ _ => ⟨_, _, rfl⟩).bind fun _ => overlooks_pure t

theorem overlooks_sortOf (n : T) :
    Overlooks (Veiled Q) (onEngine (Engine.sortOf n) : Action (Solver σ S T) LogicSort) :=
  overlooks_onEngine discreet <|
    discreet.answered (c := .sortOf n) discreet.reads rfl fun _ _ => Answer.logicSort.inj

theorem overlooks_makeTerm (op : Op) (args : List Term) :
    Overlooks (Veiled Q) (makeTerm op args : Action (Solver σ S T) Term) := by
  refine (overlooks_natives args).bind fun ns => (overlooks_derive op _).bind fun derived => ?_
  refine (overlooks_onEngine discreet (discreet.term (.makeTerm op ns) id rfl)).bind fun n => ?_
  refine (overlooks_sortOf discreet n).bind fun reported => ?_
  exact (overlooks_reconcile op derived reported).bind fun sort => overlooks_intern _ _ _ _ _

end Terms

section Checks

omit [Engine σ S T] discreet in
theorem overlooks_rememberAssumptions (ns : List T) (ts : List Term) :
    Overlooks (Veiled Q) (record (rememberAssumptions ns ts) : Action (Solver σ S T) Unit) :=
  overlooks_record fun _ _ _ => ⟨_, _, rfl⟩

theorem overlooks_assertFormula (t : Term) :
    Overlooks (Veiled Q) (assertFormula t : Action (Solver σ S T) Unit) :=
  (overlooks_ofExcept _).bind fun _ => (overlooks_native t).bind fun n =>
    overlooks_onEngine discreet (discreet.done (c := .assertFormula n) discreet.reads rfl)

theorem overlooks_checkSatAssuming (assumptions : List Term) :
    Overlooks (Veiled Q) (checkSatAssuming assumptions : Action (Solver σ S T) Verdict) := by
  refine (overlooks_ofExcept _).bind fun _ => (overlooks_natives assumptions).bind fun ns => ?_
  refine (overlooks_rememberAssumptions ns assumptions).bind fun _ => ?_
  exact overlooks_onEngine discreet <|
    discreet.answered (c := .checkSatAssuming ns) discreet.reads rfl fun _ _ => Answer.verdict.inj

theorem overlooks_reset : Overlooks (Veiled Q) (reset : Action (Solver σ S T) Unit) :=
  Overlooks.bind (overlooks_onEngine discreet (discreet.done (c := .reset) discreet.reads rfl))
    fun _ =>
    overlooks_record fun _ _ _ => ⟨_, _, rfl⟩

theorem overlooks_resetAssertions :
    Overlooks (Veiled Q) (resetAssertions : Action (Solver σ S T) Unit) :=
  Overlooks.bind (overlooks_record fun _ _ _ => ⟨_, _, rfl⟩) fun _ =>
    overlooks_onEngine discreet (discreet.done (c := .resetAssertions) discreet.reads rfl)

end Checks

section Reading

variable (shown : ∀ c, ¬ hidden c)

theorem overlooks_wrapValue (n : T) (sort : LogicSort) :
    Overlooks (Veiled Q) (wrapValue n sort : Action (Solver σ S T) Term) := by
  refine overlooks_get ?_ fun s => overlooks_intern _ _ _ _ _
  rintro ⟨e, session⟩ ⟨e', _⟩ ⟨related, assumptions, notices, rfl⟩
  dsimp only
  rw [discreet.literal n related, discreet.describes related]
  rfl

theorem overlooks_wrapBase (base : Option T) (element : LogicSort) :
    Overlooks (Veiled Q) (wrapBase base element : Action (Solver σ S T) (Option Term)) := by
  cases base with
  | none => exact overlooks_pure none
  | some b =>
    exact (overlooks_sortOf discreet b).bind fun _ => overlooks_guard <|
      (overlooks_wrapValue discreet b element).bind fun _ => overlooks_pure _

include shown

theorem overlooks_getArrayValues (t : Term) :
    Overlooks (Veiled Q) (getArrayValues t : Action (Solver σ S T) (ArrayModel Term)) := by
  refine (overlooks_ofExcept _).bind fun sorts => (overlooks_native t).bind fun n => ?_
  refine (overlooks_onEngine discreet <| discreet.answered (shown (.getArrayValues n)) rfl
    fun _ _ => Answer.arrayModel.inj).bind fun raw => ?_
  refine (overlooks_wrapBase discreet raw.base sorts.2).bind fun base => ?_
  refine (overlooks_mapM (fun cell => ?_) raw.cells).bind fun _ => overlooks_pure _
  exact (overlooks_wrapValue discreet cell.1 sorts.1).bind fun _ =>
    (overlooks_wrapValue discreet cell.2 sorts.2).bind fun _ => overlooks_pure _

theorem overlooks_getArray (t : Term) :
    Overlooks (Veiled Q) (getArray t : Action (Solver σ S T) Term) := by
  refine (overlooks_getArrayValues discreet shown t).bind fun m => ?_
  split
  · refine overlooks_get (fun s s' related => ?_) fun _ => overlooks_throw _
    rw [discreet.name related.1]
  · exact (overlooks_makeConstArray discreet _ t.sort).bind fun start =>
      overlooks_foldlM (fun _ _ => overlooks_makeTerm discreet _ _) start m.cells

theorem overlooks_getValue (t : Term) :
    Overlooks (Veiled Q) (getValue t : Action (Solver σ S T) Term) := by
  unfold getValue
  split
  · exact overlooks_getArray discreet shown t
  · refine (overlooks_native t).bind fun n => ?_
    refine (overlooks_onEngine discreet <| discreet.answered (shown (.getValue n)) rfl
      fun _ _ => Answer.term.inj).bind fun v => ?_
    exact overlooks_wrapValue discreet v t.sort

end Reading

end Solver

end FormulaGraph

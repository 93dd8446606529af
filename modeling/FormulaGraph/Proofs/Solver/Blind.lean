import FormulaGraph.Proofs.Enumeration.Aliasing
import FormulaGraph.Proofs.Solver.LockStep
import FormulaGraph.Proofs.Solver.Rewriting

/-!
Two solvers that differ in one setting of their engine: that of the second reports truth values as
one-bit vectors. What an action does on the first solver it does on the second; only the notices may
be others, and what is remembered of derived sorts.
-/

namespace FormulaGraph

/-- What the session of a solver has of its own if its engine reports truth values as one-bit
vectors. -/
structure Guise where
  notices : Array Notice
  arbiter : SortArbiter
  aliasing : arbiter.aliasing = true
  faithful : arbiter.Faithful

/-- The session of a solver whose engine reports truth values as one-bit vectors. -/
def Session.aliased {S T : Type} [BEq T] [Hashable T] (guise : Guise) (s : Session S T) :
    Session S T :=
  { s with arbiter := guise.arbiter, notices := guise.notices }

namespace Solver

open FormulaGraph.Action

variable {α β : Type} {s s' : Solver Enumerator LogicSort Handle}
  {act : Action (Solver Enumerator LogicSort Handle) α}
  {next : α → Action (Solver Enumerator LogicSort Handle) β}

/-- The solver, had its engine reported truth values as one-bit vectors. -/
def aliased (guise : Guise) (s : Solver Enumerator LogicSort Handle) :
    Solver Enumerator LogicSort Handle :=
  ⟨s.engine.withAliasing, s.session.aliased guise⟩

/-- The second solver differs from the first by the setting alone, by its notices, and by what is
remembered. -/
def Twin (s s' : Solver Enumerator LogicSort Handle) : Prop := ∃ guise, s' = s.aliased guise

theorem twin_aliased (guise : Guise) (s : Solver Enumerator LogicSort Handle) :
    Twin s (s.aliased guise) :=
  ⟨guise, rfl⟩

/-- At this state and its twins the action does the same. -/
def Blind (act : Action (Solver Enumerator LogicSort Handle) α)
    (s : Solver Enumerator LogicSort Handle) : Prop :=
  ∀ guise, Alike Twin (act s) (act (s.aliased guise))

section Rules

theorem Blind.bind (first : Blind act s) (rest : ∀ a s', act s = .ok a s' → Blind (next a) s') :
    Blind (act >>= next) s := by
  refine fun guise => (first guise).bind fun a t t' run related => ?_
  obtain ⟨guise', rfl⟩ := related
  exact rest a t run guise'

theorem Blind.after {post : α → Solver Enumerator LogicSort Handle → Prop} (first : Blind act s)
    (keeps : Keeps Enumerator.contract act s post)
    (rest : ∀ a s', Kept Enumerator.contract s s' → post a s' → Blind (next a) s') :
    Blind (act >>= next) s :=
  first.bind fun a s' run => rest a s' (keeps.answer run).1 (keeps.answer run).2

theorem Blind.map (f : α → β) (blind : Blind act s) : Blind (f <$> act) s :=
  fun guise => (blind guise).map f

theorem Blind.get {next : Solver Enumerator LogicSort Handle →
      Action (Solver Enumerator LogicSort Handle) α}
    (same : ∀ guise, next (s.aliased guise) = next s) (rest : Blind (next s) s) :
    Blind (get >>= next) s := by
  intro guise
  show Alike _ (next s s) (next (s.aliased guise) (s.aliased guise))
  rw [same]
  exact rest guise

theorem blind_pure (a : α) (s : Solver Enumerator LogicSort Handle) : Blind (pure a) s :=
  fun guise => .ok a (twin_aliased guise s)

theorem blind_throw (e : Error) (s : Solver Enumerator LogicSort Handle) :
    Blind (throw e : Action (Solver Enumerator LogicSort Handle) α) s :=
  fun guise => .error e (twin_aliased guise s)

theorem blind_ofExcept (r : Except Error α) (s : Solver Enumerator LogicSort Handle) :
    Blind (Action.ofExcept r) s :=
  fun guise => .ofExcept r (twin_aliased guise s)

theorem blind_guard {c : Prop} [Decidable c] {e : Error}
    {next : PUnit → Action (Solver Enumerator LogicSort Handle) α}
    (passed : ¬ c → Blind (next ⟨⟩) s) :
    Blind (if c then throw e >>= next else next ⟨⟩) s := by
  split
  · exact blind_throw e s
  · exact passed ‹_›

theorem blind_ask {question : Session LogicSort Handle → Except Error α}
    (same : ∀ guise, question (s.session.aliased guise) = question s.session) :
    Blind (ask question) s := by
  intro guise
  show Alike _ (ask question s) (ask question ⟨_, s.session.aliased guise⟩)
  unfold ask
  dsimp only
  rw [same]
  cases question s.session with
  | ok a => exact .ok a (twin_aliased guise s)
  | error e => exact .error e (twin_aliased guise s)

theorem blind_update {change : Session LogicSort Handle → α × Session LogicSort Handle}
    (same : ∀ guise, ∃ guise', change (s.session.aliased guise) =
      ((change s.session).1, (change s.session).2.aliased guise')) : Blind (update change) s := by
  intro guise
  obtain ⟨guise', changed⟩ := same guise
  have run : update change (s.aliased guise) =
      .ok (change s.session).1 (aliased guise' ⟨s.engine, (change s.session).2⟩) := by
    show EStateM.Result.ok (change (s.session.aliased guise)).1 _ = _
    rw [changed]
    rfl
  rw [run]
  exact .ok _ (twin_aliased guise' _)

theorem blind_record {change : Session LogicSort Handle → Session LogicSort Handle}
    (same : ∀ guise, ∃ guise', change (s.session.aliased guise) =
      (change s.session).aliased guise') : Blind (record change) s :=
  blind_update fun guise => (same guise).imp fun _ changed => congrArg (Prod.mk ()) changed

theorem blind_onEngine {act : Action Enumerator α} (blind : Enumerator.Blind act)
    (s : Solver Enumerator LogicSort Handle) : Blind (onEngine act) s := by
  intro guise
  have alike := blind s.engine
  generalize left : act s.engine = r, right : act s.engine.withAliasing = r' at alike
  cases alike with
  | ok a related =>
    rw [show s.aliased guise = ⟨s.engine.withAliasing, s.session.aliased guise⟩ from rfl,
      onEngine_ok left s.session, onEngine_ok right, related]
    exact .ok a ⟨guise, rfl⟩
  | error e related =>
    rw [show s.aliased guise = ⟨s.engine.withAliasing, s.session.aliased guise⟩ from rfl,
      onEngine_error left s.session, onEngine_error right, related]
    exact .error e ⟨guise, rfl⟩

end Rules

section Sorts

theorem blind_useSort (sort made : LogicSort) (s : Solver Enumerator LogicSort Handle) :
    Blind (do
      record fun s => { s with sorts := s.sorts.insert sort made }
      return made) s :=
  (blind_record fun guise => ⟨guise, rfl⟩).bind fun _ s' _ => blind_pure made s'

theorem blind_firstUse {act : Action Enumerator LogicSort} (blind : Enumerator.Blind act)
    (sort : LogicSort) (s : Solver Enumerator LogicSort Handle) :
    Blind (do
      let made ← onEngine act
      record fun s => { s with sorts := s.sorts.insert sort made }
      return made) s :=
  (blind_onEngine blind s).bind fun made s' _ => blind_useSort sort made s'

mutual
theorem blind_nativeSort (sort : LogicSort) (s : Solver Enumerator LogicSort Handle) :
    Blind (nativeSort sort) s := by
  rw [nativeSort]
  refine .get (fun _ => rfl) ?_
  split
  · exact blind_pure _ s
  · cases sort with
    | bool | int | real => exact blind_firstUse (Enumerator.blind_pure _) _ s
    | bitVec w => exact blind_firstUse (Enumerator.blind_pure _) _ s
    | array index element =>
      exact (blind_nativeSort index s).bind fun i s₁ _ => (blind_nativeSort element s₁).bind
        fun x s₂ _ => blind_firstUse (Enumerator.blind_pure _) _ s₂
    | function domain range =>
      exact (blind_nativeSorts domain s).bind fun ds s₁ _ => (blind_nativeSort range s₁).bind
        fun r s₂ _ => blind_firstUse (Enumerator.blind_pure _) _ s₂
    | uninterpreted | datatype | param | unresolved => exact blind_throw _ s
theorem blind_nativeSorts (sorts : List LogicSort) (s : Solver Enumerator LogicSort Handle) :
    Blind (nativeSorts sorts) s := by
  cases sorts with
  | nil =>
    rw [nativeSorts]
    exact blind_pure _ s
  | cons sort rest =>
    rw [nativeSorts]
    exact (blind_nativeSort sort s).bind fun first s₁ _ => (blind_nativeSorts rest s₁).bind
      fun made s₂ _ => blind_pure _ s₂
end

theorem blind_withNative (sort : LogicSort) (s : Solver Enumerator LogicSort Handle) :
    Blind (withNative sort) s :=
  ((blind_nativeSort sort s).map fun _ => ()).bind fun _ s' _ => blind_pure sort s'

theorem blind_makeSort (kind : SortKind) (s : Solver Enumerator LogicSort Handle) :
    Blind (makeSort kind) s := by
  unfold makeSort
  split
  · exact blind_withNative _ s
  · exact blind_withNative _ s
  · exact blind_withNative _ s
  · exact blind_throw _ s

theorem blind_makeBitVecSort (width : UInt64) (s : Solver Enumerator LogicSort Handle) :
    Blind (makeBitVecSort width) s := by
  unfold makeBitVecSort
  split
  · exact blind_throw _ s
  · exact blind_withNative _ s

theorem blind_makeFunctionSort (domain : List LogicSort) (range : LogicSort)
    (s : Solver Enumerator LogicSort Handle) : Blind (makeFunctionSort domain range) s := by
  unfold makeFunctionSort
  split
  · exact blind_throw _ s
  · exact blind_withNative _ s

theorem blind_declare (name : String) (sort : LogicSort) {act : Action Enumerator LogicSort}
    (blind : Enumerator.Blind act) (s : Solver Enumerator LogicSort Handle) :
    Blind (declare name sort act) s := by
  refine .get (fun _ => rfl) (blind_guard fun _ => ?_)
  exact (blind_onEngine blind s).bind fun made s₁ _ =>
    (blind_record fun guise => ⟨guise, rfl⟩).bind fun _ s₂ _ => blind_pure sort s₂

theorem blind_makeUninterpretedSort (name : String) (arity : UInt64)
    (s : Solver Enumerator LogicSort Handle) : Blind (makeUninterpretedSort name arity) s :=
  blind_declare name _ (Enumerator.blind_pure _) s

theorem blind_makeDatatypeSort (decl : DatatypeDecl) (s : Solver Enumerator LogicSort Handle) :
    Blind (makeDatatypeSort decl) s := by
  unfold makeDatatypeSort
  split
  · exact blind_throw _ s
  · exact blind_declare _ _ (Enumerator.blind_pure _) s

end Sorts

section Terms

theorem intern_aliased (session : Session LogicSort Handle) (op : Op) (sort : LogicSort)
    (kind : TermKind) (children : List Term) (native : Handle) (guise : Guise) :
    (session.aliased guise).intern op sort kind children native =
      ((session.intern op sort kind children native).1,
        (session.intern op sort kind children native).2.aliased guise) := by
  unfold Session.intern
  dsimp only [Session.aliased]
  split <;> rfl

theorem blind_intern (op : Op) (sort : LogicSort) (kind : TermKind) (children : List Term)
    (native : Handle) (s : Solver Enumerator LogicSort Handle) :
    Blind (update (Session.intern op sort kind children native)) s :=
  blind_update fun guise => ⟨guise, intern_aliased _ _ _ _ _ _ _⟩

theorem blind_native (t : Term) (s : Solver Enumerator LogicSort Handle) : Blind (native t) s :=
  blind_ask fun _ => rfl

theorem blind_natives (ts : List Term) (s : Solver Enumerator LogicSort Handle) :
    Blind (natives ts) s := by
  induction ts generalizing s with
  | nil => exact blind_pure [] s
  | cons t ts ih =>
    rw [natives, List.mapM_cons]
    exact (blind_native t s).bind fun n s₁ _ => Blind.bind (ih s₁) fun ns s₂ _ => blind_pure _ s₂

theorem blind_makeValue (l : Literal) (sort : LogicSort) (s : Solver Enumerator LogicSort Handle) :
    Blind (makeValue l sort) s := by
  unfold makeValue
  refine blind_guard fun _ => (blind_ofExcept _ s).bind fun l' s₁ _ => ?_
  refine (blind_nativeSort sort s₁).bind fun made s₂ _ => ?_
  exact (blind_onEngine (Enumerator.blind_addValue l' made) s₂).bind fun n s₃ _ =>
    blind_intern _ _ _ _ _ s₃

theorem blind_makeInt (i : Int64) (sort : LogicSort) (s : Solver Enumerator LogicSort Handle) :
    Blind (makeInt i sort) s := by
  unfold makeInt
  split
  · exact blind_makeValue _ _ s
  · exact blind_makeValue _ _ s
  · exact blind_makeValue _ _ s
  · exact blind_throw _ s

theorem blind_parseValue (repr : String) (sort : LogicSort) (base : Nat)
    (s : Solver Enumerator LogicSort Handle) : Blind (parseValue repr sort base) s :=
  (blind_ofExcept _ s).bind fun l s₁ _ => blind_makeValue l sort s₁

theorem blind_makeConstArray (fill : Term) (sort : LogicSort)
    (s : Solver Enumerator LogicSort Handle) : Blind (makeConstArray fill sort) s := by
  refine (blind_ofExcept _ s).bind fun _ s₁ _ => (blind_ofExcept _ s₁).bind fun _ s₂ _ => ?_
  refine (blind_native fill s₂).bind fun n s₃ _ =>
    (blind_nativeSort sort s₃).bind fun made s₄ _ => ?_
  exact (blind_onEngine (Enumerator.blind_makeConstArray n made) s₄).bind fun m s₅ _ =>
    blind_intern _ _ _ _ _ s₅

theorem blind_makeSymbol (name : String) (sort : LogicSort)
    (s : Solver Enumerator LogicSort Handle) : Blind (makeSymbol name sort) s := by
  refine .get (fun _ => rfl) (blind_guard fun _ => ?_)
  refine (blind_nativeSort sort s).bind fun made s₁ _ => ?_
  refine (blind_onEngine (Enumerator.blind_makeSymbol name made) s₁).bind fun n s₂ _ => ?_
  refine (blind_intern _ _ _ _ _ s₂).bind fun t s₃ _ => ?_
  exact (blind_record fun guise => ⟨guise, rfl⟩).bind fun _ s₄ _ => blind_pure t s₄

theorem blind_derive (faithful : s.session.arbiter.Faithful) (op : Op) (args : List LogicSort) :
    Blind (derive op args) s := by
  intro guise
  obtain ⟨sort, a, b, run, run', -, -, faithful', aliases⟩ | ⟨e, run, run'⟩ :=
    SortArbiter.derive_both faithful guise.faithful op args
  · have ours : derive op args s = .ok sort ⟨s.engine, { s.session with arbiter := a }⟩ := by
      rw [derive, run]
    have theirs : derive op args (s.aliased guise) = .ok sort (aliased
        ⟨guise.notices, b, aliases.trans guise.aliasing, faithful'⟩
        ⟨s.engine, { s.session with arbiter := a }⟩) := by
      rw [derive, aliased, Session.aliased, run']
      rfl
    rw [ours, theirs]
    exact .ok sort (twin_aliased _ _)
  · have ours : derive op args s = .error e s := by rw [derive, run]
    have theirs : derive op args (s.aliased guise) = .error e (s.aliased guise) := by
      rw [derive, aliased, Session.aliased, run']
    rw [ours, theirs]
    exact .error e (twin_aliased guise s)

/-- Where a sort is derived, it is recorded whatever the engine reports. -/
theorem reconcile_answers (op : Op) (sort reported : LogicSort)
    (s : Solver Enumerator LogicSort Handle) :
    ∃ notices, reconcile op (some sort) reported s =
      .ok sort ⟨s.engine, { s.session with notices }⟩ := by
  have settled := SortArbiter.reconcile_some s.session.arbiter op sort reported
  unfold reconcile update
  dsimp only
  generalize s.session.arbiter.reconcile op (some sort) reported = choice at settled
  obtain ⟨_, notice⟩ := choice
  obtain rfl := settled
  cases notice with
  | none => exact ⟨s.session.notices, rfl⟩
  | some n => exact ⟨s.session.notices.push n, rfl⟩

theorem blind_makeTerm (coherent : s.Coherent Enumerator.contract) (op : Op) {args : List Term}
    (genuine : ∀ a ∈ args, s.session.Genuine a) : Blind (makeTerm op args) s := by
  have honoured := Enumerator.contract_honoured
  refine (blind_natives args s).bind fun ns s₁ asked => ?_
  obtain ⟨-, rfl, known, renders⟩ := (keeps_natives honoured coherent genuine).answer asked
  refine (blind_derive coherent.canonical.memo op _).bind fun derived s₁ derives => ?_
  obtain ⟨kept₁, result, -⟩ := (keeps_derive honoured coherent op _).answer derives
  refine (blind_onEngine (Enumerator.blind_makeTerm op ns) s₁).bind fun n s₂ made => ?_
  obtain ⟨e, called, rfl⟩ := onEngine_answered made
  have operands := kept₁.coherent.operands (fun a ha => kept₁.extension.has a (known a ha))
    (renders.extend kept₁.extension)
  obtain ⟨sort, derives'⟩ := Enumerator.derived_of_makeTerm operands called
  obtain ⟨_, _, called', node, found⟩ := Enumerator.makeTerm_succeeds op operands derives'
  cases called'.symm.trans called
  cases result.symm.trans derives'
  -- What the two engines report may differ, but neither report is recorded.
  intro guise
  obtain ⟨reported, left, -⟩ := Enumerator.sortOf_of_found found
  obtain ⟨reported', right, -⟩ := Enumerator.sortOf_of_found (e := e.withAliasing) found
  obtain ⟨ours, settled⟩ := reconcile_answers op sort reported ⟨e, s₁.session⟩
  obtain ⟨theirs, settled'⟩ :=
    reconcile_answers op sort reported' ⟨e.withAliasing, s₁.session.aliased guise⟩
  have asks : onEngine (Engine.sortOf n) ⟨e, s₁.session⟩ = .ok reported ⟨e, s₁.session⟩ :=
    onEngine_ok left s₁.session
  have asks' : onEngine (Engine.sortOf n) (aliased guise ⟨e, s₁.session⟩) =
      .ok reported' ⟨e.withAliasing, s₁.session.aliased guise⟩ :=
    onEngine_ok right (s₁.session.aliased guise)
  rw [bind_ok asks, bind_ok asks', bind_ok settled, bind_ok settled']
  exact blind_intern op sort .application args n ⟨e, { s₁.session with notices := ours }⟩
    { guise with notices := theirs }

end Terms

end Solver

end FormulaGraph

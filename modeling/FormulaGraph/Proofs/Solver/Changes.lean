import Mathlib.Logic.Relation
import FormulaGraph.Proofs.Solver.Run
import FormulaGraph.Proofs.Solver.SortMaking

/-!
The changes that the operations of a solver consist of. Whatever is asked of a solver, on whatever
engine and wherever it fails, goes through changes of a few kinds; what each of them keeps, every
run keeps. Some of them are quiet: what they leave behind would be made, or derived, again.
-/

namespace FormulaGraph

namespace Solver

open FormulaGraph.Action

section Kinds

variable {σ S T : Type} [BEq T] [Hashable T]

/-- The engine is called, an engine's sort comes into use of which all parts are in use, or a
derivation is remembered. -/
inductive QuietChange : Solver σ S T → Solver σ S T → Prop
  | called (s : Solver σ S T) (engine : σ) (notices : Array Notice) :
      QuietChange s ⟨engine, { s.session with notices }⟩
  | sortUsed {s : Solver σ S T} {sort : LogicSort} (absent : sort ∉ s.session.sorts)
      (constructed : sort.Constructed)
        (parts : ∀ part ∈ sort.parts, part ∈ s.session.sorts) (made : S) :
      QuietChange s ⟨s.engine, { s.session with sorts := s.session.sorts.insert sort made }⟩
  | derived (s : Solver σ S T) {op : Op} {args : List LogicSort} {sort : Option LogicSort}
      (derives : op.resultSort args = .ok sort) :
      QuietChange s ⟨s.engine,
        { s.session with arbiter := s.session.arbiter.remember op args sort }⟩

inductive Change : Solver σ S T → Solver σ S T → Prop
  | quiet {s s' : Solver σ S T} (change : QuietChange s s') : Change s s'
  | interned (s : Solver σ S T) (op : Op) (sort : LogicSort) (kind : TermKind)
      (children : List Term)
      (native : T) : Change s ⟨s.engine, (s.session.intern op sort kind children native).2⟩
  | named (s : Solver σ S T) (name : String) (t : Term) :
      Change s ⟨s.engine, { s.session with symbols := s.session.symbols.insert name t }⟩
  | sortDeclared (s : Solver σ S T) (name : String) {sort : LogicSort} (declared : sort.Declared)
      (made : S) :
      Change s ⟨s.engine, { s.session with
        declared := s.session.declared.insert name
        sorts := s.session.sorts.insert sort made }⟩
  | assumed (s : Solver σ S T) (assumptions : Std.HashMap T Term) :
      Change s ⟨s.engine, { s.session with assumptions }⟩
  | renewed (s : Solver σ S T) : Change s ⟨s.engine, s.session.renew⟩
  /-- Another solver has drawn on the supply. -/
  | drawn (s : Solver σ S T) (supply : Supply) : Change s ⟨s.engine, { s.session with supply }⟩

abbrev QuietChanges : Solver σ S T → Solver σ S T → Prop := Relation.ReflTransGen QuietChange

abbrev Changes : Solver σ S T → Solver σ S T → Prop := Relation.ReflTransGen Change

theorem QuietChanges.changes {s s' : Solver σ S T} (quietly : QuietChanges s s') : Changes s s' :=
  Relation.ReflTransGen.mono (fun _ _ => Change.quiet) _ _ quietly

theorem QuietChanges.uses {s s' : Solver σ S T} (quietly : QuietChanges s s') {sort : LogicSort}
    (used : sort ∈ s.session.sorts) : sort ∈ s'.session.sorts := by
  induction quietly with
  | refl => exact used
  | tail _ change ih =>
    cases change with
    | called | derived => exact ih
    | sortUsed => exact Std.HashMap.mem_insert.mpr (.inr ih)

end Kinds

variable {σ S T α β : Type} [BEq T] [Hashable T] [Engine σ S T] {s s' : Solver σ S T}

section Quiet

/-- However the action ends, it has made quiet changes only. -/
abbrev Quiet (act : Action (Solver σ S T) α) (s : Solver σ S T)
    (post : α → Solver σ S T → Prop) : Prop :=
  Leads QuietChanges (fun _ => True) act s post

omit [Engine σ S T] in
theorem Quiet.bind {act : Action (Solver σ S T) α} {next : α → Action (Solver σ S T) β}
    {post : α → Solver σ S T → Prop} {goal : β → Solver σ S T → Prop} (first : Quiet act s post)
    (rest : ∀ a s', QuietChanges s s' → post a s' → Quiet (next a) s' goal) :
    Quiet (act >>= next) s goal :=
  Leads.bind Relation.ReflTransGen.trans first rest

omit [Engine σ S T] in
theorem quiet_pure {a : α} {post : α → Solver σ S T → Prop} (holds : post a s) :
    Quiet (pure a) s post :=
  leads_pure .refl holds

omit [Engine σ S T] in
theorem quiet_throw (e : Error) {post : α → Solver σ S T → Prop} :
    Quiet (throw e : Action (Solver σ S T) α) s post :=
  leads_throw .refl trivial

theorem quiet_onEngine (act : Action σ α) (s : Solver σ S T) :
    Quiet (onEngine act) s fun _ s' => s'.session.sorts = s.session.sorts := by
  cases h : onEngine act s with
  | ok a s' =>
    obtain ⟨e, notices, -, rfl⟩ := of_onEngine_ok h
    exact (leads_ok h).mpr ⟨.single (.called s _ notices), rfl⟩
  | error x s' =>
    obtain ⟨e, notices, -, rfl⟩ := of_onEngine_error h
    exact (leads_error h).mpr ⟨.single (.called s _ notices), trivial⟩

omit [Engine σ S T] in
theorem quiet_ask (question : Session S T → Except Error α) (s : Solver σ S T) :
    Quiet (ask question) s fun _ s' => s' = s := by
  cases h : question s.session with
  | ok a => exact (leads_ok (by rw [ask, h])).mpr ⟨.refl, rfl⟩
  | error e => exact (leads_error (by rw [ask, h])).mpr ⟨.refl, trivial⟩

omit [Engine σ S T] in
theorem quiet_ofExcept (r : Except Error α) (s : Solver σ S T) :
    Quiet (Action.ofExcept r) s fun _ s' => s' = s :=
  leads_ofExcept .refl (fun _ _ => rfl) fun _ _ => trivial

omit [Engine σ S T] in
theorem quiet_natives (ts : List Term) (s : Solver σ S T) :
    Quiet (natives ts) s fun _ s' => s' = s := by
  rw [Quiet, Leads, natives_eq_ask]
  exact quiet_ask _ s

omit [Engine σ S T] in
theorem finalState_derive (op : Op) (args : List LogicSort) (s : Solver σ S T) :
    (derive op args).finalState s = s ∨ ∃ sort, op.resultSort args = .ok sort ∧
      (derive op args).finalState s =
        ⟨s.engine, { s.session with arbiter := s.session.arbiter.remember op args sort }⟩ := by
  obtain ⟨sort, -, h⟩ | ⟨-, ⟨sort, derives, h⟩ | ⟨e, -, h⟩⟩ :=
    SortArbiter.derive_inv op args s.session.arbiter
  · have run : derive op args s = .ok sort s := by rw [derive, h]
    exact .inl (finalState_ok run)
  · have run : derive op args s =
        .ok sort ⟨s.engine,
          { s.session with arbiter := s.session.arbiter.remember op args sort }⟩ := by
      rw [derive, h]
    exact .inr ⟨sort, derives, finalState_ok run⟩
  · have run : derive op args s = .error e s := by rw [derive, h]
    exact .inl (finalState_error run)

omit [Engine σ S T] in
theorem quiet_derive (op : Op) (args : List LogicSort) (s : Solver σ S T) :
    Quiet (derive op args) s fun _ _ => True := by
  refine leads_iff_finalState.mpr ?_
  obtain same | ⟨sort, derives, after⟩ := finalState_derive op args s
  · rw [same]
  · rw [after]
    exact .single (.derived s derives)

/-- The sort has come into use, and none that is larger than it. -/
def Introduces (s : Solver σ S T) (sort : LogicSort) (s' : Solver σ S T) : Prop :=
  sort ∈ s'.session.sorts ∧ ∀ c ∈ s'.session.sorts, c ∈ s.session.sorts ∨ sizeOf c ≤ sizeOf sort

theorem quiet_follows :
    FollowsUses (QuietChanges : Solver σ S T → Solver σ S T → Prop) fun _ => True where
  refl _ := .refl
  trans := Relation.ReflTransGen.trans
  undeclared _ := trivial
  abstract _ := trivial
  first {s sort _ make} use := by
    refine (quiet_onEngine make s).bind fun made s₁ _ same => ?_
    have change :
        QuietChange s₁ ⟨s₁.engine,
        { s₁.session with sorts := s₁.session.sorts.insert sort made }⟩ :=
      .sortUsed (same ▸ use.absent) use.constructed (same ▸ use.parts) made
    exact ⟨.single change, trivial⟩

theorem quiet_nativeSort (sort : LogicSort) (s : Solver σ S T) :
    Quiet (nativeSort sort) s fun _ => Introduces s sort :=
  (leads_nativeSort quiet_follows sort s).mono fun _ _ _ provided =>
    ⟨mem_of_recorded provided.recorded, provided.widens.only⟩

theorem quiet_nativeSorts (sorts : List LogicSort) (s : Solver σ S T) :
    Quiet (nativeSorts sorts) s fun _ s' => (∀ sort ∈ sorts, sort ∈ s'.session.sorts) ∧
      ∀ c ∈ s'.session.sorts, c ∈ s.session.sorts ∨ sizeOf c ≤ sizeOf sorts := by
  refine (leads_nativeSorts quiet_follows sorts s).mono ?_
  rintro _ s' - ⟨pairs, rfl, -, known, widens⟩
  exact ⟨List.forall_mem_map.mpr fun p hp => mem_of_recorded (known p hp), widens.only⟩

theorem quiet_withNative (sort : LogicSort) (s : Solver σ S T) :
    Quiet (withNative sort) s fun made _ => made = sort := by
  have made : Quiet (discard (nativeSort sort)) s fun _ _ => True :=
    (quiet_nativeSort sort s).bind fun _ _ _ _ => quiet_pure trivial
  exact made.bind fun _ _ _ _ => quiet_pure rfl

theorem quiet_makeSort (kind : SortKind) (s : Solver σ S T) :
    Quiet (makeSort kind) s fun made _ => made = .bool ∨ made = .int ∨ made = .real := by
  unfold makeSort
  split
  · exact (quiet_withNative _ s).mono fun _ _ _ made => .inl made
  · exact (quiet_withNative _ s).mono fun _ _ _ made => .inr (.inl made)
  · exact (quiet_withNative _ s).mono fun _ _ _ made => .inr (.inr made)
  · exact quiet_throw _

theorem quiet_makeBitVecSort (width : UInt64) (s : Solver σ S T) :
    Quiet (makeBitVecSort width) s fun made _ => width ≠ 0 ∧ made = .bitVec width := by
  unfold makeBitVecSort
  split
  · exact quiet_throw _
  · exact (quiet_withNative _ s).mono fun _ _ _ made => ⟨‹_›, made⟩

theorem quiet_makeFunctionSort (domain : List LogicSort) (range : LogicSort) (s : Solver σ S T) :
    Quiet (makeFunctionSort domain range) s fun made _ =>
      domain ≠ [] ∧ made = .function domain range := by
  unfold makeFunctionSort
  split
  · exact quiet_throw _
  · rename_i nonempty
    refine (quiet_withNative _ s).mono fun _ _ _ made => ⟨?_, made⟩
    rintro rfl
    exact nonempty rfl

end Quiet

end Solver

end FormulaGraph

import FormulaGraph.Proofs.Solver.Coupled

/-!
Operations of solvers that are coupled, one by one: each is answered the same on both sides, and
leaves them coupled. So coupled solvers are alike.
-/

namespace FormulaGraph.Solver

open FormulaGraph.Action

variable {σ S T : Type} [BEq T] [Hashable T] [Engine σ S T] {N N' : Naming} {s s' : Solver σ S T}
  {t t' : Term} {ts ts' : List Term}

/-- A cell of an array model, the index first. -/
def wrapCell (index element : LogicSort) (p : T × T) : Action (Solver σ S T) (Term × Term) := do
  let i ← wrapValue p.1 index
  return (i, ← wrapValue p.2 element)

namespace Coupled

section Sorts

mutual
theorem nativeSort (sort : LogicSort) {N : Naming} {s s' : Solver σ S T}
    (coupled : s.Coupled N s') :
    Agree Coupled N Same (Solver.nativeSort sort s) (Solver.nativeSort sort s') := by
  -- Whichever way the engine's sort is made, it is put down in the same way.
  have use : ∀ {N : Naming} {s s' : Solver σ S T}, s.Coupled N s' → ∀ made : S,
      Agree Coupled N Same
        ((do Solver.record fun s => { s with sorts := s.sorts.insert sort made }
             return made : Action (Solver σ S T) S) s)
        ((do Solver.record fun s => { s with sorts := s.sorts.insert sort made }
             return made : Action (Solver σ S T) S) s') := by
    intro N s s' coupled made
    refine (coupled.record ?_).bind_same fun _ _ _ _ _ coupled => .pure coupled rfl
    exact { coupled.session with sorts := congrArg (·.insert sort made) coupled.session.sorts }
  rw [Solver.nativeSort]
  refine .get ?_
  rw [coupled.session.sorts]
  cases s.session.sorts[sort]? with
  | some known => exact .pure coupled rfl
  | none =>
    cases sort with
    | bool | int | real | bitVec w =>
      exact (coupled.onEngine _).bind_same fun _ made _ _ _ coupled => use coupled made
    | array index element =>
      refine (nativeSort index coupled).bind_same fun _ i _ _ _ coupled => ?_
      refine (nativeSort element coupled).bind_same fun _ x _ _ _ coupled => ?_
      exact (coupled.onEngine _).bind_same fun _ made _ _ _ coupled => use coupled made
    | function domain range =>
      refine (nativeSorts domain coupled).bind_same fun _ ds _ _ _ coupled => ?_
      refine (nativeSort range coupled).bind_same fun _ r _ _ _ coupled => ?_
      exact (coupled.onEngine _).bind_same fun _ made _ _ _ coupled => use coupled made
    | uninterpreted | datatype | param | unresolved => exact .throw coupled (.refl _)
theorem nativeSorts (sorts : List LogicSort) {N : Naming} {s s' : Solver σ S T}
    (coupled : s.Coupled N s') :
    Agree Coupled N Same (Solver.nativeSorts sorts s) (Solver.nativeSorts sorts s') := by
  cases sorts with
  | nil =>
    rw [Solver.nativeSorts]
    exact .pure coupled rfl
  | cons sort rest =>
    rw [Solver.nativeSorts]
    refine (nativeSort sort coupled).bind_same fun _ first _ _ _ coupled => ?_
    exact (nativeSorts rest coupled).bind_same fun _ _ _ _ _ coupled => .pure coupled rfl
end

variable (coupled : s.Coupled N s')

include coupled

theorem withNative (sort : LogicSort) :
    Agree Coupled N Same (Solver.withNative sort s) (Solver.withNative sort s') := by
  have made :
    Agree Coupled N Same ((discard (Solver.nativeSort sort) : Action (Solver σ S T) Unit) s)
      ((discard (Solver.nativeSort sort) : Action (Solver σ S T) Unit) s') :=
    (nativeSort sort coupled).map fun _ _ _ _ => rfl
  exact made.bind_same fun _ _ _ _ _ coupled => .pure coupled rfl

theorem makeSort (kind : SortKind) :
    Agree Coupled N Same (Solver.makeSort kind s) (Solver.makeSort kind s') := by
  unfold Solver.makeSort
  split
  · exact coupled.withNative _
  · exact coupled.withNative _
  · exact coupled.withNative _
  · exact .throw coupled (.refl _)

theorem makeBitVecSort (width : UInt64) :
    Agree Coupled N Same (Solver.makeBitVecSort width s) (Solver.makeBitVecSort width s') := by
  unfold Solver.makeBitVecSort
  split
  · exact .throw coupled (.refl _)
  · exact coupled.withNative _

theorem makeFunctionSort (domain : List LogicSort) (range : LogicSort) :
    Agree Coupled N Same (Solver.makeFunctionSort domain range s)
      (Solver.makeFunctionSort domain range s') := by
  unfold Solver.makeFunctionSort
  split
  · exact .throw coupled (.refl _)
  · exact coupled.withNative _

theorem declare (name : String) (sort : LogicSort) (make : Action σ S) :
    Agree Coupled N Same (Solver.declare name sort make s) (Solver.declare name sort make s') := by
  refine .get ?_
  rw [coupled.session.declared]
  refine .guard .rfl coupled (.refl _) fun _ => ?_
  refine (coupled.onEngine make).bind_same fun _ made s₁ s₁' _ coupled => ?_
  refine (coupled.record ?_).bind_same fun _ _ _ _ _ coupled => .pure coupled rfl
  exact { coupled.session with
    declared := congrArg (·.insert name) coupled.session.declared
    sorts := congrArg (·.insert sort made) coupled.session.sorts }

theorem makeDatatypeSort (decl : DatatypeDecl) :
    Agree Coupled N Same (Solver.makeDatatypeSort decl s) (Solver.makeDatatypeSort decl s') := by
  unfold Solver.makeDatatypeSort
  split
  · exact .throw coupled (.refl _)
  · exact coupled.declare _ _ _

end Sorts

section Terms

variable (coupled : s.Coupled N s')

include coupled

omit [Engine σ S T] in
theorem leaf (sort : LogicSort) (kind : TermKind)
    (renamed : List.Forall₂ (Term.Renamed N) ts ts') (n : T) :
    AgreeTerm N (Solver.leaf sort kind ts n s) (Solver.leaf sort kind ts' n s') :=
  coupled.intern renamed n

theorem makeValue (l : Literal) (sort : LogicSort) :
    AgreeTerm N (Solver.makeValue l sort s) (Solver.makeValue l sort s') := by
  unfold Solver.makeValue
  refine .guard .rfl coupled (.refl _) fun _ => ?_
  refine .checked coupled fun l _ => ?_
  refine (nativeSort sort coupled).bind_same fun _ made _ _ _ coupled => ?_
  refine (coupled.onEngine _).bind_same fun _ n _ _ _ coupled => ?_
  exact coupled.leaf sort (.value l) .nil n

theorem makeConstArray (renamed : t.Renamed N t') (sort : LogicSort) :
    AgreeTerm N (Solver.makeConstArray t sort s) (Solver.makeConstArray t' sort s') := by
  refine .checked coupled fun (_, element) _ => ?_
  rw [renamed.sort]
  refine .checked coupled fun _ _ => ?_
  refine (coupled.native renamed).bind_same fun N₁ n _ _ extension coupled => ?_
  refine (nativeSort sort coupled).bind_same fun N₂ made _ _ extension' coupled => ?_
  refine (coupled.onEngine _).bind_same fun N₃ n _ _ extension'' coupled => ?_
  have later := extension.trans (extension'.trans extension'')
  exact coupled.leaf sort .constArray (.cons (renamed.extend later) .nil) n

theorem makeSymbol (name : String) (sort : LogicSort) :
    AgreeTerm N (Solver.makeSymbol name sort s) (Solver.makeSymbol name sort s') := by
  refine .get ?_
  have known : s'.session.symbols.contains name = s.session.symbols.contains name := by
    rw [Std.HashMap.contains_eq_isSome_getElem?, Std.HashMap.contains_eq_isSome_getElem?]
    have related := coupled.session.symbols name
    generalize s.session.symbols[name]? = v, s'.session.symbols[name]? = v' at related
    cases related with
    | some _ => rfl
    | none => rfl
  rw [known]
  refine .guard .rfl coupled (.refl _) fun _ => ?_
  refine (nativeSort sort coupled).bind_same fun _ made _ _ _ coupled => ?_
  refine (coupled.onEngine _).bind_same fun _ n _ _ _ coupled => ?_
  refine Agree.bind (coupled.leaf sort (.symbol name) .nil n) ?_
  intro N₃ t t' s₃ s₃' _ coupled renamed
  refine (coupled.record ?_).bind_same fun N₄ _ _ _ extension coupled =>
    .pure coupled (renamed.extend extension)
  refine { coupled.session with symbols := fun other => ?_ }
  rw [Std.HashMap.getElem?_insert, Std.HashMap.getElem?_insert]
  split
  · exact .some renamed
  · exact coupled.session.symbols other

omit [Engine σ S T] in
theorem derive (op : Op) (sorts : List LogicSort) :
    Agree Coupled N Same (Solver.derive op sorts s) (Solver.derive op sorts s') := by
  have session := coupled.session
  unfold Solver.derive
  dsimp only
  obtain ⟨sort, a, a', run, run', -, ⟨faithful, aliasing⟩, faithful', aliasing'⟩ | ⟨e, run, run'⟩ :=
    SortArbiter.derive_both session.memo session.memo' op sorts
  · rw [run, run']
    refine .ok (.refl N) ⟨coupled.engine, ?_⟩ rfl
    exact { session with
      aliasing := aliasing'.trans (session.aliasing.trans aliasing.symm)
      memo := faithful
      memo' := faithful' }
  · rw [run, run']
    exact .error (.refl N) coupled (.refl e)

omit [Engine σ S T] in
theorem reconcile (op : Op) (derived : Option LogicSort) (reported : LogicSort) :
    Agree Coupled N Same (Solver.reconcile op derived reported s)
      (Solver.reconcile op derived reported s') := by
  have settled : s'.session.arbiter.reconcile op derived reported =
      s.session.arbiter.reconcile op derived reported := by
    unfold SortArbiter.reconcile SortArbiter.compatible
    rw [coupled.session.aliasing]
  rw [Solver.reconcile, update_apply, update_apply, settled]
  split
  · exact .ok (.refl N) ⟨coupled.engine, coupled.session⟩ rfl
  · exact .ok (.refl N) ⟨coupled.engine, { coupled.session with }⟩ rfl

theorem makeTerm (op : Op) (renamed : List.Forall₂ (Term.Renamed N) ts ts') :
    AgreeTerm N (Solver.makeTerm op ts s) (Solver.makeTerm op ts' s') := by
  refine (coupled.natives renamed).bind_same fun N₁ ns _ _ ext₁ coupled => ?_
  rw [Term.Renamed.sorts renamed]
  refine (coupled.derive op _).bind_same fun N₂ derived _ _ ext₂ coupled => ?_
  refine (coupled.onEngine _).bind_same fun N₃ n _ _ ext₃ coupled => ?_
  refine (coupled.onEngine _).bind_same fun N₄ reported _ _ ext₄ coupled => ?_
  refine (coupled.reconcile op derived reported).bind_same fun N₅ sort _ _ ext₅ coupled => ?_
  have later := ext₁.trans (ext₂.trans (ext₃.trans (ext₄.trans ext₅)))
  exact coupled.intern (Term.Renamed.extend_all renamed later) n

end Terms

section Queries

variable (coupled : s.Coupled N s')

include coupled

theorem assertFormula (renamed : t.Renamed N t') :
    Agree Coupled N Same (Solver.assertFormula t s) (Solver.assertFormula t' s') := by
  unfold Solver.assertFormula
  rw [renamed.sort]
  refine .checked coupled fun _ _ => ?_
  exact (coupled.native renamed).bind_same fun _ n _ _ _ coupled => coupled.onEngine _

omit [BEq T] [Hashable T] [Engine σ S T] coupled in
theorem expectBooleanLiteral (renamed : t.Renamed N t') :
    Answers Eq (Solver.expectBooleanLiteral t) (Solver.expectBooleanLiteral t') := by
  have refused := Error.Alike.notABooleanLiteral (Term.render_same renamed.shape)
  have decided {a a' : Term} (atoms : a.Renamed N a') :
      Answers Eq
        (if t.sort.isBool && a.isSymbol then .ok ()
          else .error (.usage (.notABooleanLiteral t)))
        (if t.sort.isBool && a'.isSymbol then .ok ()
          else .error (.usage (.notABooleanLiteral t'))) := by
    rw [atoms.isSymbol]
    split
    · exact .ok rfl
    · exact .error refused
  have children := renamed.children
  unfold Solver.expectBooleanLiteral
  rw [renamed.op, renamed.sort]
  generalize t.children = cs, t'.children = cs' at children
  cases children with
  | nil =>
    cases t.op.prim
    all_goals exact decided renamed
  | cons first _ =>
    cases t.op.prim
    case not => exact decided first
    all_goals exact decided renamed

omit [Engine σ S T] in
theorem rememberAssumptions [EquivBEq T] [LawfulHashable T] (ns : List T)
    (renamed : List.Forall₂ (Term.Renamed N) ts ts') :
    (Solver.rememberAssumptions ns ts s.session).Coupled N
    (Solver.rememberAssumptions ns ts' s'.session) := by
  have zipped (known known' : Std.HashMap T Term) (m : T)
      (related : ∀ m : T, Option.Rel (Term.Renamed N) known[m]? known'[m]?) :
      Option.Rel (Term.Renamed N)
        ((ns.zip ts).foldl (fun known p => known.insert p.1 p.2) known)[m]?
        ((ns.zip ts').foldl (fun known p => known.insert p.1 p.2) known')[m]? := by
    induction renamed generalizing ns known known' with
    | nil =>
      rw [List.zip_nil_right]
      exact related m
    | cons first _ ih =>
      cases ns with
      | nil => exact related m
      | cons n ns =>
        refine ih ns _ _ fun m => ?_
        rw [Std.HashMap.getElem?_insert, Std.HashMap.getElem?_insert]
        split
        · exact .some first
        · exact related m
  refine { coupled.session with assumptions := fun m => zipped {} {} m fun m => ?_ }
  rw [Std.HashMap.getElem?_empty]
  exact .none

theorem checkSatAssuming [EquivBEq T] [LawfulHashable T]
    (renamed : List.Forall₂ (Term.Renamed N) ts ts') :
    Agree Coupled N Same (Solver.checkSatAssuming ts s) (Solver.checkSatAssuming ts' s') := by
  have literals :
      Answers Eq (ts.forM Solver.expectBooleanLiteral) (ts'.forM Solver.expectBooleanLiteral) := by
    clear coupled
    induction renamed with
    | nil => exact .ok rfl
    | cons first _ ih => exact (expectBooleanLiteral first).bind fun _ _ _ => ih
  unfold Solver.checkSatAssuming
  refine Agree.bind_same (.ofExcept coupled (literals.imp fun _ _ _ => rfl))
    fun N₁ _ _ _ ext₁ coupled => ?_
  have renamed := Term.Renamed.extend_all renamed ext₁
  refine (coupled.natives renamed).bind_same fun N₂ ns _ _ ext₂ coupled => ?_
  have remembered := coupled.rememberAssumptions ns (Term.Renamed.extend_all renamed ext₂)
  exact (coupled.record remembered).bind_same fun _ _ _ _ _ coupled => coupled.onEngine _

theorem wrapValue (n : T) (sort : LogicSort) :
    AgreeTerm N (Solver.wrapValue n sort s) (Solver.wrapValue n sort s') := by
  rw [wrapValue_eq_reading, wrapValue_eq_reading, coupled.engine, coupled.session.aliasing]
  exact coupled.leaf sort _ .nil n

theorem wrapBase (base : Option T) (element : LogicSort) :
    Agree Coupled N (fun N => Option.Rel (Term.Renamed N)) (Solver.wrapBase base element s)
      (Solver.wrapBase base element s') := by
  unfold Solver.wrapBase
  cases base with
  | none => exact .pure coupled .none
  | some b =>
    refine (coupled.onEngine _).bind_same fun N₁ sort _ _ _ coupled => ?_
    refine .guard .rfl coupled (.refl _) fun _ => ?_
    exact (coupled.wrapValue b element).bind fun _ _ _ _ _ _ coupled renamed =>
      .pure coupled (.some renamed)

theorem wrapCell (index element : LogicSort) (p : T × T) :
    Agree Coupled N (fun N p p' => Term.Renamed N p.1 p'.1 ∧ Term.Renamed N p.2 p'.2)
      (Solver.wrapCell index element p s) (Solver.wrapCell index element p s') := by
  refine (coupled.wrapValue p.1 index).bind fun N₁ i i' _ _ _ coupled position => ?_
  refine (coupled.wrapValue p.2 element).bind fun N₂ x x' _ _ extension coupled cell => ?_
  exact .pure coupled ⟨position.extend extension, cell⟩

theorem wrapCells (index element : LogicSort) (cells : List (T × T)) :
    Agree Coupled N
      (fun N => List.Forall₂ fun p p' => Term.Renamed N p.1 p'.1 ∧ Term.Renamed N p.2 p'.2)
      (cells.mapM (Solver.wrapCell index element) s)
      (cells.mapM (Solver.wrapCell index element) s') := by
  induction cells generalizing N s s' with
  | nil => exact .pure coupled .nil
  | cons p cells ih =>
    rw [List.mapM_cons]
    refine (coupled.wrapCell index element p).bind fun N₁ q q' _ _ _ coupled first => ?_
    refine Agree.bind (ih coupled) fun N₂ qs qs' _ _ extension coupled rest => ?_
    exact .pure coupled (.cons ⟨first.1.extend extension, first.2.extend extension⟩ rest)

theorem getArrayValues (renamed : t.Renamed N t') :
    Agree Coupled N (fun N => ArrayModel.Alike (Term.Renamed N)) (Solver.getArrayValues t s)
      (Solver.getArrayValues t' s') := by
  unfold Solver.getArrayValues
  rw [renamed.sort]
  refine .checked coupled fun (index, element) _ => ?_
  refine (coupled.native renamed).bind_same fun _ n _ _ _ coupled => ?_
  refine (coupled.onEngine _).bind_same fun _ raw _ _ _ coupled => ?_
  refine (coupled.wrapBase raw.base element).bind fun N₁ base base' _ _ _ coupled bases => ?_
  refine (coupled.wrapCells index element raw.cells).bind
    fun N₂ cells cells' _ _ ext coupled pairs => ?_
  refine .pure coupled ⟨?_, pairs⟩
  exact optionRel_imp bases fun _ _ renamed => renamed.extend ext

theorem readValue (renamed : t.Renamed N t') (plain : t.sort.isArray = false) :
    AgreeTerm N (Solver.getValue t s) (Solver.getValue t' s') := by
  unfold Solver.getValue
  rw [renamed.sort, plain]
  refine (coupled.native renamed).bind_same fun _ n _ _ _ coupled => ?_
  exact (coupled.onEngine _).bind_same fun _ value _ _ _ coupled => coupled.wrapValue value t.sort

theorem getUnsatCore :
    Agree Coupled N (fun N => List.Forall₂ (Term.Renamed N)) (Solver.getUnsatCore s)
      (Solver.getUnsatCore s') := by
  unfold Solver.getUnsatCore
  refine (coupled.onEngine _).bind_same fun N₁ core s₁ s₁' _ coupled => .get ?_
  rw [coupled.engine]
  refine ask_agree coupled ?_
  have same : List.Forall₂ Eq core core := List.forall₂_refl core
  refine Answers.mapM same fun n _ equal => ?_
  subst equal
  have known := coupled.session.assumptions n
  rw [Session.assumption, Session.assumption]
  generalize s₁.session.assumptions[n]? = v, s₁'.session.assumptions[n]? = v' at known
  cases known with
  | some renamed => exact .ok renamed
  | none => exact .error (.refl _)

omit [Engine σ S T] in
theorem renew :
    Agree Coupled N Same (Solver.record Session.renew s) (Solver.record Session.renew s') := by
  have session := coupled.session
  refine .ok (.refl N) ⟨coupled.engine, ?_⟩ rfl
  exact {
    ordered := session.ordered
    current := ⟨Nat.lt_succ_self _, Nat.lt_succ_self _⟩
    bounded := session.bounded
    sessions := fun t t' nodes => by
      have := session.sessions t t' nodes
      exact ⟨Nat.lt_succ_of_lt this.1, Nat.lt_succ_of_lt this.2⟩
    -- Whatever there is by now is of an earlier session.
    own := fun t t' nodes => by
      have := session.sessions t t' nodes
      exact ⟨fun same => absurd same this.2.ne, fun same => absurd same this.1.ne⟩
    has := fun t t' nodes same => absurd same (session.sessions t t' nodes).1.ne
    aliasing := session.aliasing
    memo := session.memo
    memo' := session.memo'
    table := .empty (fun _ => Std.HashMap.getElem?_empty) fun _ => Std.HashMap.getElem?_empty
    size := rfl
    natives := .empty (fun _ => Std.HashMap.getElem?_empty) fun _ => Std.HashMap.getElem?_empty
    sorts := rfl
    declared := rfl
    symbols := fun name => by
      dsimp only [Session.renew]
      rw [Std.HashMap.getElem?_empty]
      exact .none
    assumptions := fun n => by
      dsimp only [Session.renew]
      rw [Std.HashMap.getElem?_empty]
      exact .none }

theorem reset : Agree Coupled N Same (Solver.reset s) (Solver.reset s') :=
  (coupled.onEngine Engine.reset).bind_same fun _ _ _ _ _ coupled => coupled.renew

theorem resetAssertions :
    Agree Coupled N Same (Solver.resetAssertions s) (Solver.resetAssertions s') := by
  refine Agree.bind_same (coupled.record ?_) fun _ _ _ _ _ coupled => coupled.onEngine _
  refine { coupled.session with assumptions := fun n => ?_ }
  rw [Std.HashMap.getElem?_empty]
  exact .none

end Queries

end Coupled

section Alike

variable [EquivBEq T] [LawfulHashable T]

end Alike

end FormulaGraph.Solver

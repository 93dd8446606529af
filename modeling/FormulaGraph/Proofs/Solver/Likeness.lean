import FormulaGraph.Proofs.Agreement
import FormulaGraph.Solver.Transfer

/-!
Two solvers, perhaps over different engines, that are alike: whatever basic operation both are asked
for, they answer the same but for the names of nodes, and are alike afterwards. What is composed of
these operations is then answered the same as well: integers and spelt literals, the values of
arrays, the sorts and symbols of a translation.
-/

namespace FormulaGraph

open FormulaGraph.Action

/-- The same base and the same cells, in their order. -/
structure ArrayModel.Alike {T T' : Type} (R : T → T' → Prop) (m : ArrayModel T)
    (m' : ArrayModel T') : Prop where
  base : Option.Rel R m.base m'.base
  cells : List.Forall₂ (fun p p' => R p.1 p'.1 ∧ R p.2 p'.2) m.cells m'.cells

namespace Solver

variable {σ S T σ' S' T' : Type} [BEq T] [Hashable T] [Engine σ S T] [BEq T']
    [Hashable T'] [Engine σ' S' T']
  {V : Vocabulary} {sound : Naming → Solver σ S T → Solver σ' S' T' → Prop} {N : Naming}
  {s : Solver σ S T} {s' : Solver σ' S' T'} {t t' : Term} {ts ts' : List Term}

omit [Engine σ S T] [Engine σ' S' T'] in
theorem ask_agree {α α' : Type} {post : Naming → α → α' → Prop}
    {question : Session S T → Except Error α}
    {question' : Session S' T' → Except Error α'} (related : sound N s s')
    (answers : Answers (post N) (question s.session) (question' s'.session)) :
    Agree sound N post (ask question s) (ask question' s') := by
  unfold ask
  generalize question s.session = r, question' s'.session = r' at answers
  cases answers with
  | ok holds => exact .ok (.refl N) related holds
  | error alike => exact .error (.refl N) related alike

/-- A relation of states under which the basic operations of both solvers do the same, as long as
they are about sorts and operators of the vocabulary. -/
structure Likeness (V : Vocabulary) (sound : Naming → Solver σ S T → Solver σ' S' T' → Prop) :
    Prop where
  ordered : ∀ {N s s'}, sound N s s' → N.Ordered
  name : ∀ {N s s'}, sound N s s' → Engine.name s'.engine = Engine.name s.engine
  capabilities : ∀ {N s s'}, sound N s s' → Engine.capabilities s' = Engine.capabilities s
  termCount : ∀ {N s s'}, sound N s s' → s'.termCount = s.termCount
  hasSort : ∀ {N s s'}, sound N s s' → ∀ sort, s'.session.hasSort sort = s.session.hasSort sort
  symbols : ∀ {N s s'}, sound N s s' → ∀ name : String,
    Option.Rel (V.Pair N) s.session.symbols[name]? s'.session.symbols[name]?
  bool : V.sorts .bool
  store : V.ops PrimOp.store
  setOption : ∀ {N s s'} (option value : String), sound N s s' →
    Agree sound N Same (Engine.setOption option value s) (Engine.setOption option value s')
  setLogic : ∀ {N s s'} (logic : String), sound N s s' →
    Agree sound N Same (Engine.setLogic logic s) (Engine.setLogic logic s')
  makeSort : ∀ {N s s'} (kind : SortKind), sound N s s' →
    Agree sound N Same (makeSort kind s) (makeSort kind s')
  makeBitVecSort : ∀ {N s s'} (width : UInt64), sound N s s' →
    Agree sound N Same (makeBitVecSort width s) (makeBitVecSort width s')
  makeArraySort : ∀ {N s s'} {index element : LogicSort}, sound N s s' →
    V.sorts index → V.sorts element →
    Agree sound N Same (makeArraySort index element s) (makeArraySort index element s')
  makeFunctionSort : ∀ {N s s'} {domain : List LogicSort} {range : LogicSort}, sound N s s' →
    (∀ sort ∈ domain, V.sorts sort) → V.sorts range →
      Agree sound N Same (makeFunctionSort domain range s) (makeFunctionSort domain range s')
  makeUninterpretedSort : ∀ {N s s'} (name : String) (arity : UInt64), sound N s s' →
    Agree sound N Same (makeUninterpretedSort name arity s) (makeUninterpretedSort name arity s')
  makeDatatypeSort : ∀ {N s s'} (decl : DatatypeDecl), sound N s s' →
    Agree sound N Same (makeDatatypeSort decl s) (makeDatatypeSort decl s')
  makeValue : ∀ {N s s'} (l : Literal) {sort : LogicSort}, sound N s s' → V.sorts sort →
    Agree sound N V.Pair (makeValue l sort s) (makeValue l sort s')
  makeConstArray : ∀ {N s s'} {fill fill' : Term} {sort : LogicSort}, sound N s s' →
    V.Pair N fill fill' →
    V.sorts sort → Agree sound N V.Pair (makeConstArray fill sort s) (makeConstArray fill' sort s')
  makeSymbol : ∀ {N s s'} (name : String) {sort : LogicSort}, sound N s s' → V.sorts sort →
    Agree sound N V.Pair (makeSymbol name sort s) (makeSymbol name sort s')
  makeTerm : ∀ {N s s'} {op : Op} {args args' : List Term}, sound N s s' → V.ops op →
    List.Forall₂ (V.Pair N) args args' →
      Agree sound N V.Pair (makeTerm op args s) (makeTerm op args' s')
  assertFormula : ∀ {N s s'} {t t' : Term}, sound N s s' → V.Pair N t t' →
    Agree sound N Same (assertFormula t s) (assertFormula t' s')
  checkSat : ∀ {N s s'}, sound N s s' → Agree sound N Same (Engine.checkSat s) (Engine.checkSat s')
  checkSatAssuming : ∀ {N s s'} {ts ts' : List Term}, sound N s s' →
    List.Forall₂ (V.Pair N) ts ts' →
    Agree sound N Same (checkSatAssuming ts s) (checkSatAssuming ts' s')
  checkSatInterruptible : ∀ {N s s'} (token : CancelToken), sound N s s' →
    Agree sound N Same (Engine.checkSatInterruptible token s)
      (Engine.checkSatInterruptible token s')
  readValue : ∀ {N s s'} {t t' : Term}, sound N s s' → V.Pair N t t' → t.sort.isArray = false →
    Agree sound N V.Pair (getValue t s) (getValue t' s')
  getArrayValues : ∀ {N s s'} {t t' : Term}, sound N s s' → V.Pair N t t' →
    Agree sound N (fun N => ArrayModel.Alike (V.Pair N)) (getArrayValues t s) (getArrayValues t' s')
  getUnsatCore : ∀ {N s s'}, sound N s s' →
    Agree sound N (fun N => List.Forall₂ (V.Pair N)) (getUnsatCore s) (getUnsatCore s')
  push : ∀ {N s s'} (levels : UInt64), sound N s s' →
    Agree sound N Same (Engine.push levels s) (Engine.push levels s')
  pop : ∀ {N s s'} (levels : UInt64), sound N s s' →
    Agree sound N Same (Engine.pop levels s) (Engine.pop levels s')
  reset : ∀ {N s s'}, sound N s s' → Agree sound N Same (reset s) (reset s')
  resetAssertions : ∀ {N s s'}, sound N s s' →
    Agree sound N Same (resetAssertions s) (resetAssertions s')

namespace Likeness

variable (like : Likeness V sound) (related : sound N s s')

include like related

theorem makeInt (i : Int64) {sort : LogicSort} (used : V.sorts sort) :
    Agree sound N V.Pair (Solver.makeInt i sort s) (Solver.makeInt i sort s') := by
  unfold Solver.makeInt
  split
  · exact like.makeValue _ related used
  · exact like.makeValue _ related used
  · exact like.makeValue _ related used
  · exact .throw related (.refl _)

theorem parseValue (repr : String) {sort : LogicSort} (base : Nat) (used : V.sorts sort) :
    Agree sound N V.Pair (Solver.parseValue repr sort base s)
      (Solver.parseValue repr sort base s') := by
  exact .checked related fun l _ => like.makeValue l related used

section Arrays

theorem storeAll {array array' : Term} {cells cells' : List (Term × Term)}
    (pair : V.Pair N array array')
    (pairs : List.Forall₂ (fun p p' => V.Pair N p.1 p'.1 ∧ V.Pair N p.2 p'.2) cells cells') :
    Agree sound N V.Pair
      ((cells.foldlM (fun array (i, x) => Solver.makeTerm PrimOp.store [array, i, x]) array :
        Action (Solver σ S T) Term) s)
      ((cells'.foldlM (fun array (i, x) => Solver.makeTerm PrimOp.store [array, i, x]) array' :
        Action (Solver σ' S' T') Term) s') := by
  induction cells generalizing N s s' array array' cells' with
  | nil =>
    cases pairs
    exact .pure related pair
  | cons p cells ih =>
    cases pairs with
    | cons first rest =>
      rw [List.foldlM_cons, List.foldlM_cons]
      refine Agree.bind (like.makeTerm related like.store
        (.cons pair (.cons first.1 (.cons first.2 .nil)))) ?_
      rintro N' array₁ array₁' s₁ s₁' extension related pair
      refine ih related pair (rest.imp fun _ _ pairs => ?_)
      exact ⟨pairs.1.extend extension, pairs.2.extend extension⟩

theorem getArray (pair : V.Pair N t t') :
    Agree sound N V.Pair (Solver.getArray t s) (Solver.getArray t' s') := by
  refine Agree.bind (like.getArrayValues related pair) ?_
  rintro N' ⟨base, cells⟩ ⟨base', cells'⟩ s s' extension related ⟨hbase, hcells⟩
  have pair := pair.extend extension
  dsimp only at hbase hcells ⊢
  cases hbase with
  | none =>
    refine .get ?_
    rw [like.name related]
    exact .throw related (Error.Alike.noConstantBase pair.render _)
  | some base =>
    rw [pair.renamed.sort]
    refine Agree.bind (like.makeConstArray related base pair.sort_mem) ?_
    rintro N'' array array' s s' extension related pair
    refine like.storeAll related pair (hcells.imp fun _ _ pairs => ?_)
    exact ⟨pairs.1.extend extension, pairs.2.extend extension⟩

theorem getValue (pair : V.Pair N t t') :
    Agree sound N V.Pair (Solver.getValue t s) (Solver.getValue t' s') := by
  cases array : t.sort.isArray with
  | true =>
    rw [Solver.getValue, if_pos array, Solver.getValue, if_pos (pair.renamed.sort ▸ array)]
    exact like.getArray related pair
  | false => exact like.readValue related pair array

end Arrays

section Translation

omit like related in
mutual
theorem declareSorts (like : Likeness V sound) (sort : LogicSort) :
    ∀ {N : Naming} {s : Solver σ S T} {s' : Solver σ' S' T'}, sound N s s' →
      Agree sound N Same (Solver.declareSorts sort s) (Solver.declareSorts sort s') := by
  intro N s s' related
  cases sort with
  | uninterpreted name arity =>
    have known := like.hasSort related (.uninterpreted name arity)
    rw [Solver.declareSorts, Solver.declareSorts]
    refine .get ?_
    rw [known]
    split
    · exact (like.makeUninterpretedSort name arity related).map fun _ _ _ _ => rfl
    · exact .pure related rfl
  | datatype name =>
    have known := like.hasSort related (.datatype name)
    rw [Solver.declareSorts, Solver.declareSorts]
    refine .get ?_
    rw [known, like.name related]
    split
    · exact .throw related (.refl _)
    · exact .pure related rfl
  | array index element =>
    rw [Solver.declareSorts, Solver.declareSorts]
    refine Agree.bind (declareSorts like element related) ?_
    rintro N' _ _ s s' - related -
    exact declareSorts like index related
  | function domain range =>
    rw [Solver.declareSorts, Solver.declareSorts]
    refine Agree.bind (declareSorts like range related) ?_
    rintro N' _ _ s s' - related -
    exact declareAll like domain related
  | bool | int | real | bitVec | param | unresolved =>
    rw [Solver.declareSorts, Solver.declareSorts]
    exact .pure related rfl
theorem declareAll (like : Likeness V sound) (sorts : List LogicSort) :
    ∀ {N : Naming} {s : Solver σ S T} {s' : Solver σ' S' T'}, sound N s s' →
      Agree sound N Same (Solver.declareAll sorts s) (Solver.declareAll sorts s') := by
  intro N s s' related
  cases sorts with
  | nil =>
    rw [Solver.declareAll, Solver.declareAll]
    exact .pure related rfl
  | cons sort rest =>
    rw [Solver.declareAll, Solver.declareAll]
    refine Agree.bind (declareAll like rest related) ?_
    rintro N' _ _ s s' - related -
    exact declareSorts like sort related
end

theorem matchSymbol (name : String) {sort : LogicSort} (used : V.sorts sort) :
    Agree sound N V.Pair (Solver.matchSymbol name sort s) (Solver.matchSymbol name sort s') := by
  have known := like.symbols related name
  rw [Solver.matchSymbol, Solver.matchSymbol]
  refine .get ?_
  generalize s.session.symbols[name]? = found, s'.session.symbols[name]? = found' at known
  cases known with
  | some pair =>
    dsimp only
    rw [pair.renamed.sort]
    exact .checked related fun _ _ => .pure related pair
  | none =>
    refine Agree.bind (like.declareSorts sort related) ?_
    rintro N' _ _ s s' - related -
    exact like.makeSymbol name related used

theorem translate {news news' : List Term} (pair : V.Pair N t t')
    (pairs : List.Forall₂ (V.Pair N) news news') :
    Agree sound N V.Pair (Solver.translate t news s) (Solver.translate t' news' s') := by
  have used := pair.sort_mem
  unfold Solver.translate
  rw [pair.renamed.kind, pair.renamed.sort, pair.renamed.op]
  cases t.kind with
  | symbol name => exact like.matchSymbol related name used
  | value l => exact like.makeValue l related used
  | constArray =>
    cases pairs with
    | nil => exact .throw related (.refl _)
    | cons first _ => exact like.makeConstArray related first used
  | application => exact like.makeTerm related pair.op_mem pairs

end Translation

end Likeness

end Solver

end FormulaGraph

import FormulaGraph.Proofs.Solver.SortMaking
import FormulaGraph.Proofs.Solver.Stacked

/-!
Sorts in a solver on top of another. What is asked for above is made below first, where its parts
are known by then; so a sort comes into use on both levels at once, and at the same point as it does
directly.
-/

namespace FormulaGraph.Solver

open FormulaGraph.Action

section Known

variable {σ T : Type} [BEq T] [Hashable T] {s : Solver σ LogicSort T} {sort : LogicSort}

/-- The action makes the sort; it is then in use, as itself, and nothing else has changed. -/
def Brings (sort : LogicSort) (act : Action (Solver σ LogicSort T) LogicSort)
    (s : Solver σ LogicSort T) : Prop :=
  ∃ sorts : Std.HashMap LogicSort LogicSort, act s = .ok sort ⟨s.engine, { s.session with sorts }⟩ ∧
    ∀ other : LogicSort, sorts[other]? =
      if sort == other then some sort else s.session.sorts[other]?

variable [Engine σ LogicSort T]

theorem brings_known (known : s.session.sorts[sort]? = some sort) :
    Brings sort (nativeSort sort) s := by
  refine ⟨s.session.sorts, nativeSort_known known, fun other => ?_⟩
  split
  · rename_i same
    rw [← eq_of_beq same, known]
  · rfl

theorem Brings.withNative (brings : Brings sort (nativeSort sort) s) :
    Brings sort (withNative sort) s := by
  obtain ⟨sorts, run, known⟩ := brings
  refine ⟨sorts, ?_, known⟩
  have dropped : (discard (nativeSort sort) : Action (Solver σ LogicSort T) Unit) s =
    .ok () _ := map_ok run
  rw [Solver.withNative, bind_ok dropped]
  rfl

end Known

section Direct

variable {i : Direct} {index element range : LogicSort} {domain : List LogicSort}

theorem brings_new {sort : LogicSort} (run : nativeSort sort i =
    .ok sort ⟨i.engine, { i.session with sorts := i.session.sorts.insert sort sort }⟩) :
    Brings sort (nativeSort sort) i :=
  ⟨_, run, fun _ => Std.HashMap.getElem?_insert⟩

/-! Only the sort itself has to be made, if its parts are in use. The engine makes any sort that it
is asked for.
-/

theorem brings_basic {sort : LogicSort}
    (basic : sort = .bool ∨ sort = .int ∨ sort = .real ∨ ∃ w, sort = .bitVec w)
    (made : ∀ made, i.session.sorts[sort]? = some made → made = sort) :
    Brings sort (nativeSort sort) i := by
  cases found : i.session.sorts[sort]? with
  | some known => exact brings_known (made known found ▸ found)
  | none =>
    refine brings_new ?_
    rw [nativeSort, get_then, found]
    obtain rfl | rfl | rfl | ⟨w, rfl⟩ := basic
    all_goals rfl

theorem brings_array (ofIndex : i.session.sorts[index]? = some index)
    (ofElement : i.session.sorts[element]? = some element)
    (made : ∀ made, i.session.sorts[LogicSort.array index element]? = some made →
      made = .array index element) :
    Brings (.array index element) (nativeSort (.array index element)) i := by
  cases found : i.session.sorts[LogicSort.array index element]? with
  | some known => exact brings_known (made known found ▸ found)
  | none =>
    refine brings_new ?_
    rw [nativeSort_array found ofIndex ofElement]
    rfl

theorem brings_function (ofDomain : ∀ sort ∈ domain, i.session.sorts[sort]? = some sort)
    (ofRange : i.session.sorts[range]? = some range)
    (made : ∀ made, i.session.sorts[LogicSort.function domain range]? = some made →
      made = .function domain range) :
    Brings (.function domain range) (nativeSort (.function domain range)) i := by
  cases found : i.session.sorts[LogicSort.function domain range]? with
  | some known => exact brings_known (made known found ▸ found)
  | none =>
    refine brings_new ?_
    rw [nativeSort_function found (List.forall₂_same.mpr ofDomain) ofRange]
    rfl

end Direct

variable {n n' n'' : Stacked} {m m' m'' : Direct} {i : Direct} {s : Session LogicSort Term}
  {sort a b : LogicSort} {sorts : List LogicSort}

/-- There may be more sorts in use, but nothing else has changed on any level. -/
structure OnlySorts (n : Stacked) (m : Direct) (n' : Stacked) (m' : Direct) : Prop where
  above : Session.SameGraph n.session n'.session
  below : Session.SameGraph n.engine.session n'.engine.session
  direct : Session.SameGraph m.session m'.session
  symbols : n'.session.symbols = n.session.symbols
  sorts : ∀ sort made : LogicSort, n.session.sorts[sort]? = some made →
    n'.session.sorts[sort]? = some made

theorem OnlySorts.refl (n : Stacked) (m : Direct) : OnlySorts n m n m :=
  ⟨.refl _, .refl _, .refl _, rfl, fun _ _ h => h⟩

theorem OnlySorts.trans (first : OnlySorts n m n' m') (second : OnlySorts n' m' n'' m'') :
    OnlySorts n m n'' m'' :=
  ⟨first.above.trans second.above, first.below.trans second.below, first.direct.trans second.direct,
    second.symbols.trans first.symbols,
    fun sort made known => second.sorts sort made (first.sorts sort made known)⟩

/-- The sort is in use on all levels, and is what both solvers go on with. -/
structure UsesSort (n : Stacked) (m : Direct) (sort a b : LogicSort) (n' : Stacked) (m' : Direct) :
    Prop where
  above : a = sort
  direct : b = sort
  known : n'.session.sorts[sort]? = some sort
  only : OnlySorts n m n' m'

structure UsesSorts (n : Stacked) (m : Direct) (sorts as bs : List LogicSort)
    (n' : Stacked) (m' : Direct) : Prop where
  above : as = sorts
  direct : bs = sorts
  known : ∀ sort ∈ sorts, n'.session.sorts[sort]? = some sort
  only : OnlySorts n m n' m'

theorem UsesSort.after (uses : UsesSort n' m' sort a b n'' m'') (before : OnlySorts n m n' m') :
    UsesSort n m sort a b n'' m'' :=
  { uses with only := before.trans uses.only }

namespace Level

theorem made_below (level : Level ⟨i, s⟩ m) (made : LogicSort)
    (found : i.session.sorts[sort]? = some made) :
    made = sort :=
  level.sessions.made sort made ((level.sessions.sorts sort).1.symm.trans found)

theorem useSort (level : Level ⟨i, s⟩ m) {make : Action Direct LogicSort}
    {make' : Action Enumerator LogicSort}
    (below : Brings sort make i) (direct : ∀ e, make' e = .ok sort e) :
    Concur Level (UsesSort ⟨i, s⟩ m sort)
      ((do let made ← Solver.onEngine make
           record fun s => { s with sorts := s.sorts.insert sort made }
           return made : Action Stacked LogicSort) ⟨i, s⟩)
      ((do let made ← Solver.onEngine make'
           record fun s => { s with sorts := s.sorts.insert sort made }
           return made : Action Direct LogicSort) m) := by
  obtain ⟨sorts, below, lookups⟩ := below
  obtain ⟨notices, run⟩ := stacked_ok below s
  rw [bind_ok run, bind_ok (onEngine_ok (direct m.engine) m.session)]
  refine .ok ⟨level.engine, (level.sessions.addSort sort lookups).quiet _ _ _⟩
    ⟨rfl, rfl, Std.HashMap.getElem?_insert_self, ?_⟩
  refine ⟨⟨rfl, rfl, rfl, rfl⟩, ⟨rfl, rfl, rfl, rfl⟩, ⟨rfl, rfl, rfl, rfl⟩, rfl,
    fun other made known => ?_⟩
  show (s.sorts.insert sort sort)[other]? = some made
  rw [Std.HashMap.getElem?_insert]
  split
  · rename_i same
    rw [level.sessions.made other made known, eq_of_beq same]
  · exact known

mutual
theorem nativeSort {n : Stacked} {m : Direct} (level : Level n m) (sort : LogicSort)
    (proper : sort.Proper) :
    Concur Level (UsesSort n m sort) (Solver.nativeSort sort n) (Solver.nativeSort sort m) := by
  obtain ⟨i, s⟩ := n
  have direct := (level.sessions.sorts sort).2
  cases found : s.sorts[sort]? with
  | some made =>
    have same := level.sessions.made sort made found
    rw [nativeSort_known (s := (⟨i, s⟩ : Stacked)) found, nativeSort_known (direct.trans found)]
    exact .ok level ⟨same, same, same ▸ found, .refl _ _⟩
  | none =>
    rw [Solver.nativeSort, Solver.nativeSort, get_then, get_then,
      direct, found]
    cases sort with
    | bool =>
      have made : Brings .bool (Solver.nativeSort .bool) i :=
        brings_basic (.inl rfl) level.made_below
      exact level.useSort made.withNative fun _ => rfl
    | int =>
      have made : Brings .int (Solver.nativeSort .int) i :=
        brings_basic (.inr (.inl rfl)) level.made_below
      exact level.useSort made.withNative fun _ => rfl
    | real =>
      have made : Brings .real (Solver.nativeSort .real) i :=
        brings_basic (.inr (.inr (.inl rfl))) level.made_below
      exact level.useSort made.withNative fun _ => rfl
    | bitVec w =>
      have bits : w ≠ 0 := by
        cases proper with
        | bitVec bits => exact bits
      have made : Brings (.bitVec w) (Solver.nativeSort (.bitVec w)) i :=
        brings_basic (.inr (.inr (.inr ⟨w, rfl⟩))) level.made_below
      have checked : Brings (.bitVec w) (Engine.makeBitVecSort w : Action Direct LogicSort) i := by
        show Brings _ (Solver.makeBitVecSort w) i
        rw [Solver.makeBitVecSort, if_neg bits]
        exact made.withNative
      exact level.useSort checked fun _ => rfl
    | array index element =>
      have parts : index.Proper ∧ element.Proper := by
        cases proper with
        | array ofIndex ofElement => exact ⟨ofIndex, ofElement⟩
      refine Concur.bind (nativeSort level index parts.1) ?_
      rintro _ _ n₁ m₁ level ⟨rfl, rfl, ofIndex, only⟩
      refine Concur.bind (nativeSort level element parts.2) ?_
      rintro _ _ ⟨i₂, s₂⟩ m₂ level ⟨rfl, rfl, ofElement, only'⟩
      have made := brings_array ((level.sessions.sorts _).1.trans (only'.sorts _ _ ofIndex))
        ((level.sessions.sorts _).1.trans ofElement) level.made_below
      exact (level.useSort made.withNative fun _ => rfl).mono fun _ _ _ _ _ uses =>
        uses.after (only.trans only')
    | function domain range =>
      obtain ⟨nonempty, ofDomain, ofRange⟩ : domain ≠ [] ∧
          (∀ sort ∈ domain, sort.Proper) ∧ range.Proper := by
        cases proper with
        | function arguments ofDomain ofRange => exact ⟨arguments, ofDomain, ofRange⟩
      refine Concur.bind (nativeSorts level domain ofDomain) ?_
      rintro _ domain n₁ m₁ level ⟨rfl, rfl, known, only⟩
      refine Concur.bind (nativeSort level range ofRange) ?_
      rintro _ range ⟨i₂, s₂⟩ m₂ level ⟨rfl, rfl, known', only'⟩
      have made := brings_function
        (fun sort hs => (level.sessions.sorts _).1.trans (only'.sorts _ _ (known sort hs)))
        ((level.sessions.sorts _).1.trans known') level.made_below
      have checked : Brings (.function domain range)
          (Engine.makeFunctionSort domain range : Action Direct LogicSort) i₂ := by
        show Brings _ (Solver.makeFunctionSort domain range) i₂
        rw [Solver.makeFunctionSort, if_neg (fun empty => nonempty (List.isEmpty_iff.mp empty))]
        exact made.withNative
      exact (level.useSort checked fun _ => rfl).mono fun _ _ _ _ _ uses =>
        uses.after (only.trans only')
    | uninterpreted | datatype | param | unresolved => exact .error _ level
theorem nativeSorts {n : Stacked} {m : Direct} (level : Level n m) (sorts : List LogicSort)
    (proper : ∀ sort ∈ sorts, sort.Proper) :
    Concur Level (UsesSorts n m sorts) (Solver.nativeSorts sorts n)
      (Solver.nativeSorts sorts m) := by
  cases sorts with
  | nil =>
    rw [Solver.nativeSorts, Solver.nativeSorts]
    exact .ok level ⟨rfl, rfl, fun _ hs => absurd hs List.not_mem_nil, .refl n m⟩
  | cons sort rest =>
    rw [Solver.nativeSorts, Solver.nativeSorts]
    refine Concur.bind (nativeSort level sort (proper sort List.mem_cons_self)) ?_
    intro a b n₁ m₁ level first
    refine Concur.bind
      (nativeSorts level rest fun sort hs => proper sort (List.mem_cons_of_mem _ hs)) ?_
    intro as bs n₂ m₂ level others
    refine .ok level ⟨?_, ?_, fun other hs => ?_, first.only.trans others.only⟩
    · rw [first.above, others.above]
    · rw [first.direct, others.direct]
    · cases List.mem_cons.mp hs with
      | inl same => exact same ▸ others.only.sorts _ _ first.known
      | inr hs => exact others.known other hs
end

variable (level : Level n m)

include level

theorem withNative (proper : sort.Proper) :
    Alike (Solver.withNative sort n) (Solver.withNative sort m) := by
  have made := level.nativeSort sort proper
  have dropped :
    Concur Level (fun _ _ _ _ => True) ((discard (Solver.nativeSort sort) : Action Stacked Unit) n)
      ((discard (Solver.nativeSort sort) : Action Direct Unit) m) :=
        made.map fun _ _ _ _ _ => trivial
  exact dropped.bind fun _ _ _ _ level _ => .ok level rfl

theorem makeSort (kind : SortKind) :
    Alike (Solver.makeSort kind n) (Solver.makeSort kind m) := by
  unfold Solver.makeSort
  split
  · exact level.withNative .bool
  · exact level.withNative .int
  · exact level.withNative .real
  · exact .error _ level

theorem makeBitVecSort (width : UInt64) :
    Alike (Solver.makeBitVecSort width n) (Solver.makeBitVecSort width m) := by
  unfold Solver.makeBitVecSort
  split
  · exact .error _ level
  · rename_i bits
    exact level.withNative (.bitVec bits)

theorem makeFunctionSort {domain : List LogicSort} {range : LogicSort}
    (ofDomain : ∀ sort ∈ domain, sort.Proper) (ofRange : range.Proper) :
    Alike (Solver.makeFunctionSort domain range n)
      (Solver.makeFunctionSort domain range m) := by
  unfold Solver.makeFunctionSort
  split
  · exact .error _ level
  · rename_i nonempty
    exact level.withNative
      (.function (fun empty => nonempty (List.isEmpty_iff.mpr empty)) ofDomain ofRange)

theorem declare (name : String) {make : Action Direct LogicSort}
    {make' : Action Enumerator LogicSort}
    (below : make = Solver.declare name sort make') (direct : ∀ e, make' e = .ok sort e) :
    Alike (Solver.declare name sort make n)
      (Solver.declare name sort make' m) := by
  obtain ⟨⟨e, session⟩, s⟩ := n
  obtain ⟨e', session'⟩ := m
  obtain ⟨engines, sessions⟩ := level
  obtain rfl : e' = e := engines
  obtain ⟨declared, declared'⟩ := sessions.declared
  dsimp only at declared declared'
  rw [Solver.declare, Solver.declare, get_then, get_then]
  dsimp only
  rw [declared']
  refine .guard .rfl ⟨rfl, sessions⟩ fun unused => ?_
  have declares : make ⟨e', session⟩ = .ok sort ⟨e', { session with
      declared := session.declared.insert name
      sorts := session.sorts.insert sort sort }⟩ := by
    have unused' : ¬ session.declared.contains name = true := declared ▸ unused
    rw [below, Solver.declare, get_then]
    dsimp only
    rw [if_neg unused', bind_ok (onEngine_ok (direct e') session)]
    rfl
  obtain ⟨notices, run⟩ := stacked_ok declares s
  rw [bind_ok run, bind_ok (onEngine_ok (direct e') session')]
  have added := sessions.addSort sort fun _ => Std.HashMap.getElem?_insert
  exact .ok ⟨rfl, (added.addName name).quiet _ _ _⟩ rfl

theorem makeUninterpretedSort (name : String) (arity : UInt64) :
    Alike (Solver.makeUninterpretedSort name arity n)
      (Solver.makeUninterpretedSort name arity m) :=
  level.declare name rfl fun _ => rfl

theorem makeDatatypeSort (decl : DatatypeDecl) :
    Alike (Solver.makeDatatypeSort decl n) (Solver.makeDatatypeSort decl m) := by
  unfold Solver.makeDatatypeSort
  split
  · exact .error _ level
  · rename_i final
    refine level.declare decl.name ?_ fun _ => rfl
    show Solver.makeDatatypeSort decl = _
    rw [Solver.makeDatatypeSort, if_neg final]

end Level

end FormulaGraph.Solver

import FormulaGraph.Proofs.Enumeration.Additions
import FormulaGraph.Proofs.Solver.OverEnumerator

/-!
What making terms and reading values leaves alone on the enumerating engine: the assertions, the
model and the core. Along with them an order is kept, by which every node could be made again.
-/

namespace FormulaGraph

/-- The request neither asserts nor checks, and enters and leaves no scope: it makes terms, reads
values or sets an option. -/
def Request.Reads : Request → Prop
  | .command (.assertFormula _) | .command .checkSat | .command (.checkSatAssuming _)
  | .command (.checkSatInterruptible _) | .command (.push _) | .command (.pop _) | .command .reset
  | .command .resetAssertions => False
  | _ => True

namespace Solver

open FormulaGraph.Action

variable {α β : Type} {s s' s'' : Solver Enumerator LogicSort Handle} {sort : LogicSort}

/-- The node could be made again: it needs no sort of the session but those that are made by
themselves, or else its sort is in use and its literal is in normal form. -/
def Remakes (sorts : Std.HashMap LogicSort LogicSort) (node : Node) (sort : LogicSort) : Prop :=
  node.Plain ∨ sort ∈ sorts ∧ ∀ l, node = .value l → l.normalize sort = .ok l

structure Tidy (s : Solver Enumerator LogicSort Handle) : Prop where
  sorts : ∀ sort made : LogicSort, s.session.sorts[sort]? = some made → made = sort
  /-- A symbol of the engine is a symbol of the session. -/
  symbols : ∀ name : String, name ∈ s.engine.symbols → name ∈ s.session.symbols
  nodes : ∀ (t : Handle) (node : Node) (sort : LogicSort),
    s.engine.store.find? t = some (node, sort) → Remakes s.session.sorts node sort

structure Stays (s s' : Solver Enumerator LogicSort Handle) : Prop where
  scopes : s'.engine.scopes = s.engine.scopes
  model : s'.engine.model = s.engine.model
  core : s'.engine.core = s.engine.core
  faulty : s'.engine.faulty = s.engine.faulty
  assumptions : s'.session.assumptions = s.session.assumptions
  tidy : s'.Tidy

theorem Stays.refl (tidy : s.Tidy) : Stays s s := ⟨rfl, rfl, rfl, rfl, rfl, tidy⟩

theorem Stays.trans (first : Stays s s') (second : Stays s' s'') : Stays s s'' :=
  ⟨second.scopes.trans first.scopes, second.model.trans first.model, second.core.trans first.core,
    second.faulty.trans first.faulty, second.assumptions.trans first.assumptions, second.tidy⟩

/-- However the action ends, assertions and model are as they were. -/
abbrev Frames (act : Action (Solver Enumerator LogicSort Handle) α)
    (s : Solver Enumerator LogicSort Handle)
    (post : α → Solver Enumerator LogicSort Handle → Prop) : Prop :=
  Leads Stays (fun _ => True) act s post

section Rules

variable {act : Action (Solver Enumerator LogicSort Handle) α}
  {next : α → Action (Solver Enumerator LogicSort Handle) β}
  {post : α → Solver Enumerator LogicSort Handle → Prop}

theorem Frames.bind {goal : β → Solver Enumerator LogicSort Handle → Prop}
    (first : Frames act s post)
    (rest : ∀ a s', s'.Tidy → post a s' → Frames (next a) s' goal) : Frames (act >>= next) s goal :=
  Leads.bind .trans first fun a s' stays holds => rest a s' stays.tidy holds

theorem Frames.map {f : α → β} (frames : Frames act s post) :
    Frames (f <$> act) s fun _ _ => True :=
  Leads.map frames fun _ _ _ => trivial

theorem frames_pure (tidy : s.Tidy) {a : α} (holds : post a s) : Frames (pure a) s post :=
  leads_pure (.refl tidy) holds

theorem frames_throw (tidy : s.Tidy) (e : Error) :
    Frames (throw e : Action (Solver Enumerator LogicSort Handle) α) s post :=
  leads_throw (.refl tidy) trivial

theorem frames_ofExcept (tidy : s.Tidy) (r : Except Error α) :
    Frames (Action.ofExcept r) s fun a s' => r = .ok a ∧ s' = s :=
  leads_ofExcept (.refl tidy) (fun _ h => ⟨h, rfl⟩) fun _ _ => trivial

theorem frames_guard (tidy : s.Tidy) {c : Prop} [Decidable c] {e : Error}
    {next : PUnit → Action (Solver Enumerator LogicSort Handle) α}
    (passed : ¬ c → Frames (next ⟨⟩) s post) :
    Frames (if c then throw e >>= next else next ⟨⟩) s post := by
  split
  · exact frames_throw tidy e
  · exact passed ‹_›

theorem frames_ask (tidy : s.Tidy) (question : Session LogicSort Handle → Except Error α) :
    Frames (ask question) s fun a s' => question s.session = .ok a ∧ s' = s := by
  cases h : question s.session with
  | ok a =>
    have asked : ask question s = .ok a s := by rw [ask, h]
    exact (leads_ok asked).mpr ⟨.refl tidy, rfl, rfl⟩
  | error e =>
    have asked : ask question s = .error e s := by rw [ask, h]
    exact (leads_error asked).mpr ⟨.refl tidy, trivial⟩

end Rules

theorem Tidy.congr (tidy : s.Tidy) {session : Session LogicSort Handle}
    (symbols : session.symbols = s.session.symbols) (sorts : session.sorts = s.session.sorts) :
    Tidy ⟨s.engine, session⟩ := by
  refine ⟨?_, ?_, ?_⟩
  · rw [sorts]
    exact tidy.sorts
  · rw [symbols]
    exact tidy.symbols
  · rw [sorts]
    exact tidy.nodes

theorem frames_update (tidy : s.Tidy)
    (change : Session LogicSort Handle → α × Session LogicSort Handle)
    (symbols : (change s.session).2.symbols = s.session.symbols)
    (sorts : (change s.session).2.sorts = s.session.sorts)
    (assumptions : (change s.session).2.assumptions = s.session.assumptions) :
    Frames (update change) s fun a s' => a = (change s.session).1 ∧
      s' = ⟨s.engine, (change s.session).2⟩ :=
  ⟨⟨rfl, rfl, rfl, rfl, assumptions, tidy.congr symbols sorts⟩, rfl, rfl⟩

theorem Stays.of_adds {P : Node → LogicSort → Prop} {e : Enumerator} (tidy : s.Tidy)
    (adds : Enumerator.Adds P s.engine e)
    (remakes : ∀ node sort, P node sort → Remakes s.session.sorts node sort) :
    Stays s ⟨e, s.session⟩ := by
  refine ⟨adds.scopes, adds.model, adds.core, adds.faulty, rfl, tidy.sorts, ?_,
    fun t node sort found => ?_⟩
  · rw [adds.symbols]
    exact tidy.symbols
  · cases adds.nodes t node sort found with
    | inl found => exact tidy.nodes t node sort found
    | inr added => exact remakes node sort added

theorem leads_onEngine {R : Enumerator → Enumerator → Prop}
    {Q : Solver Enumerator LogicSort Handle → Solver Enumerator LogicSort Handle → Prop}
    {act : Action Enumerator α} {post : α → Enumerator → Prop}
    (led : Leads R (fun _ => True) act s.engine post)
    (lift : ∀ e, R s.engine e → Q s ⟨e, s.session⟩) :
    Leads Q (fun _ => True) (onEngine act) s fun a s' =>
      post a s'.engine ∧ s'.session = s.session := by
  cases h : act s.engine with
  | ok a e =>
    have run : onEngine act s = .ok a ⟨e, s.session⟩ := onEngine_ok h s.session
    exact (leads_ok run).mpr ⟨lift e (led.answer h).1, (led.answer h).2, rfl⟩
  | error x e =>
    have run : onEngine act s = .error x ⟨e, s.session⟩ := onEngine_error h s.session
    exact (leads_error run).mpr ⟨lift e (led.failure h).1, trivial⟩

theorem frames_onEngine {P : Node → LogicSort → Prop} {act : Action Enumerator α} (tidy : s.Tidy)
    (builds : Enumerator.Builds P act)
    (remakes : ∀ node sort, P node sort → Remakes s.session.sorts node sort) :
    Frames (onEngine act) s fun _ s' => s'.session = s.session :=
  (leads_onEngine (builds s.engine) fun _ adds => .of_adds tidy adds remakes).mono
    fun _ _ _ h => h.2

theorem frames_plain {act : Action Enumerator α} (tidy : s.Tidy)
    (builds : Enumerator.Builds (fun node _ => node.Plain) act) :
    Frames (onEngine act) s fun _ s' => s'.session = s.session :=
  frames_onEngine tidy builds fun _ _ plain => .inl plain

section Sorts

theorem Remakes.mono {sorts sorts' : Std.HashMap LogicSort LogicSort} {node : Node}
    (remakes : Remakes sorts node sort) (more : ∀ sort, sort ∈ sorts → sort ∈ sorts') :
    Remakes sorts' node sort :=
  remakes.imp_right fun ⟨used, normal⟩ => ⟨more sort used, normal⟩

theorem Tidy.useSort (tidy : s.Tidy) (sort : LogicSort) {session : Session LogicSort Handle}
    (symbols : session.symbols = s.session.symbols)
    (sorts : session.sorts = s.session.sorts.insert sort sort) : Tidy ⟨s.engine, session⟩ := by
  refine ⟨fun sort' made found => ?_, ?_, fun t node sort' found => ?_⟩
  · rw [sorts, Std.HashMap.getElem?_insert] at found
    split at found
    · rename_i same
      cases found
      exact eq_of_beq same
    · exact tidy.sorts sort' made found
  · rw [symbols]
    exact tidy.symbols
  · refine (tidy.nodes t node sort' found).mono fun sort'' used => ?_
    rw [sorts]
    exact Std.HashMap.mem_insert.mpr (.inr used)

theorem onEngine_made {act : Action Enumerator LogicSort} (made : ∀ e, act e = .ok sort e)
    (s : Solver Enumerator LogicSort Handle) : onEngine act s = .ok sort s :=
  onEngine_ok (made s.engine) s.session

theorem frames_firstUse (tidy : s.Tidy) {act : Action Enumerator LogicSort}
    (made : ∀ e, act e = .ok sort e) :
    Frames (do
      let made ← onEngine act
      record fun s => { s with sorts := s.sorts.insert sort made }
      return made) s fun made s' => made = sort ∧ sort ∈ s'.session.sorts := by
  have run : (onEngine act >>= fun made => do
      record fun s => { s with sorts := s.sorts.insert sort made }
      return made : Action (Solver Enumerator LogicSort Handle) LogicSort) s =
        .ok sort ⟨s.engine, { s.session with sorts := s.session.sorts.insert sort sort }⟩ := by
    rw [bind_ok (onEngine_made made s)]
    rfl
  exact (leads_ok run).mpr
    ⟨⟨rfl, rfl, rfl, rfl, rfl, tidy.useSort sort rfl rfl⟩, rfl, Std.HashMap.mem_insert_self⟩

mutual
theorem frames_nativeSort (sort : LogicSort) {s : Solver Enumerator LogicSort Handle}
    (tidy : s.Tidy) :
    Frames (nativeSort sort) s fun made s' => made = sort ∧ sort ∈ s'.session.sorts := by
  rw [nativeSort]
  refine leads_get ?_
  split
  · rename_i known found
    refine frames_pure tidy ⟨tidy.sorts sort known found, ?_⟩
    rw [← Std.HashMap.isSome_getElem?_iff_mem, found]
    rfl
  · cases sort with
    | bool | int | real => exact frames_firstUse tidy fun _ => rfl
    | bitVec w => exact frames_firstUse tidy fun _ => rfl
    | array index element =>
      refine (frames_nativeSort index tidy).bind ?_
      rintro _ s₁ tidy₁ ⟨rfl, -⟩
      refine (frames_nativeSort element tidy₁).bind ?_
      rintro _ s₂ tidy₂ ⟨rfl, -⟩
      exact frames_firstUse tidy₂ fun _ => rfl
    | function domain range =>
      refine (frames_nativeSorts domain tidy).bind ?_
      rintro _ s₁ tidy₁ rfl
      refine (frames_nativeSort range tidy₁).bind ?_
      rintro _ s₂ tidy₂ ⟨rfl, -⟩
      exact frames_firstUse tidy₂ fun _ => rfl
    | uninterpreted | datatype | param | unresolved => exact frames_throw tidy _
theorem frames_nativeSorts (sorts : List LogicSort) {s : Solver Enumerator LogicSort Handle}
    (tidy : s.Tidy) : Frames (nativeSorts sorts) s fun made _ => made = sorts := by
  cases sorts with
  | nil =>
    rw [nativeSorts]
    exact frames_pure tidy rfl
  | cons sort rest =>
    rw [nativeSorts]
    refine (frames_nativeSort sort tidy).bind ?_
    rintro _ s₁ tidy₁ ⟨rfl, -⟩
    refine (frames_nativeSorts rest tidy₁).bind ?_
    rintro _ s₂ tidy₂ rfl
    exact frames_pure tidy₂ rfl
end

theorem frames_withNative (tidy : s.Tidy) (sort : LogicSort) :
    Frames (withNative sort) s fun _ _ => True := by
  have made : Frames (discard (nativeSort sort)) s fun _ _ => True :=
    (frames_nativeSort sort tidy).map
  exact made.bind fun _ _ tidy' _ => frames_pure tidy' trivial

theorem frames_makeSort (tidy : s.Tidy) (kind : SortKind) :
    Frames (makeSort kind) s fun _ _ => True := by
  unfold makeSort
  split
  · exact frames_withNative tidy _
  · exact frames_withNative tidy _
  · exact frames_withNative tidy _
  · exact frames_throw tidy _

theorem frames_makeBitVecSort (tidy : s.Tidy) (width : UInt64) :
    Frames (makeBitVecSort width) s fun _ _ => True := by
  unfold makeBitVecSort
  split
  · exact frames_throw tidy _
  · exact frames_withNative tidy _

theorem frames_makeFunctionSort (tidy : s.Tidy) (domain : List LogicSort) (range : LogicSort) :
    Frames (makeFunctionSort domain range) s fun _ _ => True := by
  unfold makeFunctionSort
  split
  · exact frames_throw tidy _
  · exact frames_withNative tidy _

theorem frames_declare (tidy : s.Tidy) (name : String) {act : Action Enumerator LogicSort}
    (made : ∀ e, act e = .ok sort e) : Frames (declare name sort act) s fun _ _ => True := by
  refine leads_get (frames_guard tidy fun _ => ?_)
  have asks : Frames (onEngine act) s fun a s' => a = sort ∧ s' = s :=
    (leads_ok (onEngine_made made s)).mpr ⟨.refl tidy, rfl, rfl⟩
  refine asks.bind ?_
  rintro _ _ _ ⟨rfl, rfl⟩
  exact ⟨⟨rfl, rfl, rfl, rfl, rfl, tidy.useSort _ rfl rfl⟩, trivial⟩

theorem frames_makeUninterpretedSort (tidy : s.Tidy) (name : String) (arity : UInt64) :
    Frames (makeUninterpretedSort name arity) s fun _ _ => True :=
  frames_declare tidy name fun _ => rfl

theorem frames_makeDatatypeSort (tidy : s.Tidy) (decl : DatatypeDecl) :
    Frames (makeDatatypeSort decl) s fun _ _ => True := by
  unfold makeDatatypeSort
  split
  · exact frames_throw tidy _
  · exact frames_declare tidy _ fun _ => rfl

end Sorts

section Terms

theorem frames_intern (tidy : s.Tidy) (op : Op) (sort : LogicSort) (kind : TermKind)
    (children : List Term) (native : Handle) :
    Frames (update (Session.intern op sort kind children native)) s fun _ _ => True :=
  (frames_update tidy _ (Session.symbols_intern _ _ _ _ _ _) (Session.sorts_intern _ _ _ _ _ _)
    (Session.assumptions_intern _ _ _ _ _ _)).mono fun _ _ _ _ => trivial

theorem frames_native (tidy : s.Tidy) (t : Term) :
    Frames (native t) s fun n s' => s.session.native t = .ok n ∧ s' = s :=
  frames_ask tidy (·.native t)

theorem frames_natives (tidy : s.Tidy) (ts : List Term) :
    Frames (natives ts) s fun ns s' =>
      List.Forall₂ (fun t n => s.session.native t = .ok n) ts ns ∧ s' = s := by
  induction ts with
  | nil => exact frames_pure tidy ⟨.nil, rfl⟩
  | cons t ts ih =>
    rw [natives, List.mapM_cons]
    refine (frames_native tidy t).bind ?_
    rintro n _ _ ⟨first, rfl⟩
    refine Frames.bind ih ?_
    rintro ns _ _ ⟨rest, rfl⟩
    exact frames_pure tidy ⟨.cons first rest, rfl⟩

theorem frames_makeValue (tidy : s.Tidy) (l : Literal) (sort : LogicSort) :
    Frames (makeValue l sort) s fun _ _ => True := by
  unfold makeValue
  refine frames_guard tidy fun _ => ?_
  refine (frames_ofExcept tidy (l.normalize sort)).bind ?_
  rintro l' _ _ ⟨normal, rfl⟩
  refine (frames_nativeSort sort tidy).bind ?_
  rintro _ s₁ tidy₁ ⟨rfl, used⟩
  refine (frames_onEngine tidy₁ (Enumerator.builds_addValue ⟨rfl, rfl⟩)
    fun node sort' (added : node = .value l' ∧ sort' = _) => ?_).bind ?_
  · obtain ⟨rfl, rfl⟩ := added
    refine .inr ⟨used, fun l'' same => ?_⟩
    cases same
    exact Literal.normalize_normalize normal
  · exact fun _ _ tidy₂ _ => frames_intern tidy₂ _ _ _ _ _

theorem frames_makeInt (tidy : s.Tidy) (i : Int64) (sort : LogicSort) :
    Frames (makeInt i sort) s fun _ _ => True := by
  unfold makeInt
  split
  · exact frames_makeValue tidy _ _
  · exact frames_makeValue tidy _ _
  · exact frames_makeValue tidy _ _
  · exact frames_throw tidy _

theorem frames_parseValue (tidy : s.Tidy) (repr : String) (sort : LogicSort) (base : Nat) :
    Frames (parseValue repr sort base) s fun _ _ => True := by
  refine (frames_ofExcept tidy (Literal.parse repr sort base)).bind ?_
  rintro l _ _ ⟨-, rfl⟩
  exact frames_makeValue tidy l sort

theorem frames_makeConstArray (tidy : s.Tidy) (fill : Term) (sort : LogicSort) :
    Frames (makeConstArray fill sort) s fun _ _ => True := by
  refine (frames_ofExcept tidy sort.expectArray).bind ?_
  rintro ⟨index, element⟩ _ _ ⟨-, rfl⟩
  refine (frames_ofExcept tidy (element.expectSame fill.sort)).bind ?_
  rintro _ _ _ ⟨-, rfl⟩
  refine (frames_native tidy fill).bind ?_
  rintro n _ _ ⟨-, rfl⟩
  refine (frames_nativeSort sort tidy).bind ?_
  rintro _ s₁ tidy₁ ⟨rfl, used⟩
  refine (frames_onEngine tidy₁ (Enumerator.builds_makeConstArray n _)
    fun node sort' added => ?_).bind
    fun _ _ tidy₂ _ => frames_intern tidy₂ _ _ _ _ _
  obtain ⟨rfl, rfl⟩ := added
  exact .inr ⟨used, fun _ same => by cases same⟩

theorem frames_derive (tidy : s.Tidy) (op : Op) (args : List LogicSort) :
    Frames (derive op args) s fun _ _ => True := by
  cases h : SortArbiter.derive op args s.session.arbiter with
  | ok derived arbiter =>
    have run : derive op args s = .ok derived ⟨s.engine, { s.session with arbiter }⟩ := by
      rw [derive, h]
    exact (leads_ok run).mpr ⟨⟨rfl, rfl, rfl, rfl, rfl, tidy.congr rfl rfl⟩, trivial⟩
  | error e arbiter =>
    have run : derive op args s = .error e ⟨s.engine, { s.session with arbiter }⟩ := by
      rw [derive, h]
    exact (leads_error run).mpr ⟨⟨rfl, rfl, rfl, rfl, rfl, tidy.congr rfl rfl⟩, trivial⟩

theorem frames_reconcile (tidy : s.Tidy) (op : Op) (derived : Option LogicSort)
    (reported : LogicSort) : Frames (reconcile op derived reported) s fun _ _ => True := by
  refine (frames_update tidy _ ?_ ?_ ?_).mono fun _ _ _ _ => trivial
  · split <;> rfl
  · split <;> rfl
  · split <;> rfl

theorem frames_makeTerm (tidy : s.Tidy) (op : Op) (args : List Term) :
    Frames (makeTerm op args) s fun _ _ => True := by
  refine (frames_natives tidy args).bind ?_
  rintro ns _ _ ⟨-, rfl⟩
  refine (frames_derive tidy op _).bind fun derived _ tidy _ => ?_
  refine (frames_plain tidy (Enumerator.builds_makeTerm op ns)).bind fun n _ tidy _ => ?_
  refine (frames_plain tidy (Enumerator.builds_sortOf n)).bind fun reported _ tidy _ => ?_
  refine (frames_reconcile tidy op derived reported).bind fun sort _ tidy _ => ?_
  exact frames_intern tidy _ _ _ _ _

theorem Stays.symbol {name : String} {t : Term} {n : Handle} {e : Enumerator}
    {session : Session LogicSort Handle} (stays : Stays s ⟨e, session⟩) :
    Stays s ⟨{ e with symbols := e.symbols.insert name n },
      { session with symbols := session.symbols.insert name t }⟩ := by
  refine ⟨stays.scopes, stays.model, stays.core, stays.faulty, stays.assumptions, stays.tidy.sorts,
    fun other known => ?_, stays.tidy.nodes⟩
  cases Std.HashMap.mem_insert.mp known with
  | inl same => exact Std.HashMap.mem_insert.mpr (.inl same)
  | inr known => exact Std.HashMap.mem_insert.mpr (.inr (stays.tidy.symbols other known))

theorem frames_makeSymbol (tidy : s.Tidy) (name : String) (sort : LogicSort) :
    Frames (makeSymbol name sort) s fun _ _ => True := by
  refine leads_get (frames_guard tidy fun _ => ?_)
  refine (frames_nativeSort sort tidy).bind fun made s₁ tidy₁ _ => ?_
  cases Enumerator.makeSymbol_cases name made s₁.engine with
  | inl refused =>
    have run : onEngine (Engine.makeSymbol name made) s₁ = .error (.duplicate .symbol name) s₁ :=
      onEngine_error refused s₁.session
    exact (leads_error (bind_error run)).mpr ⟨.refl tidy₁, trivial⟩
  | inr made' =>
    obtain ⟨n, e, adds, accepted⟩ := made'
    have run : onEngine (Engine.makeSymbol name made) s₁ =
        .ok n ⟨{ e with symbols := e.symbols.insert name n }, s₁.session⟩ :=
      onEngine_ok accepted s₁.session
    have stays : Stays s₁ ⟨e, (s₁.session.intern .null sort (.symbol name) [] n).2⟩ :=
      (Stays.of_adds tidy₁ adds fun _ _ plain => .inl plain).trans
        ⟨rfl, rfl, rfl, rfl, Session.assumptions_intern _ _ _ _ _ _,
          (Stays.of_adds tidy₁ adds fun _ _ plain => .inl plain).tidy.congr
            (Session.symbols_intern _ _ _ _ _ _) (Session.sorts_intern _ _ _ _ _ _)⟩
    rw [Frames, Leads, bind_ok run]
    exact ⟨stays.symbol, trivial⟩

end Terms

section Values

theorem frames_wrapValue (tidy : s.Tidy) (n : Handle) (sort : LogicSort) :
    Frames (wrapValue n sort) s fun _ _ => True :=
  leads_get (frames_intern tidy _ _ _ _ _)

theorem frames_wrapBase (tidy : s.Tidy) (base : Option Handle) (element : LogicSort) :
    Frames (wrapBase base element) s fun _ _ => True := by
  cases base with
  | none => exact frames_pure tidy trivial
  | some b =>
    refine (frames_plain tidy (Enumerator.builds_sortOf b)).bind fun sort _ tidy _ => ?_
    refine frames_guard tidy fun _ => ?_
    exact (frames_wrapValue tidy b element).bind fun _ _ tidy _ => frames_pure tidy trivial

theorem frames_wrapCells (index element : LogicSort) (cells : List (Handle × Handle))
    {s : Solver Enumerator LogicSort Handle} (tidy : s.Tidy) :
    Frames (cells.mapM fun (i, x) => do
      let i ← wrapValue i index
      return (i, ← wrapValue x element)) s fun _ _ => True := by
  induction cells generalizing s with
  | nil => exact frames_pure tidy trivial
  | cons cell cells ih =>
    have first : Frames (do
        let i ← wrapValue cell.1 index
        return (i, ← wrapValue cell.2 element)) s fun _ _ => True :=
      (frames_wrapValue tidy cell.1 index).bind fun _ _ tidy _ =>
        (frames_wrapValue tidy cell.2 element).bind fun _ _ tidy _ => frames_pure tidy trivial
    rw [List.mapM_cons]
    exact first.bind fun _ _ tidy _ => (ih tidy).bind fun _ _ tidy _ => frames_pure tidy trivial

theorem frames_getArrayValues (tidy : s.Tidy) (t : Term) :
    Frames (getArrayValues t) s fun _ _ => True := by
  refine (frames_ofExcept tidy t.sort.expectArray).bind ?_
  rintro ⟨index, element⟩ _ _ ⟨-, rfl⟩
  refine (frames_native tidy t).bind ?_
  rintro n _ _ ⟨-, rfl⟩
  refine (frames_plain tidy (Enumerator.builds_getArrayValues n)).bind fun raw _ tidy _ => ?_
  refine (frames_wrapBase tidy raw.base element).bind fun base _ tidy _ => ?_
  exact (frames_wrapCells index element raw.cells tidy).bind fun _ _ tidy _ =>
    frames_pure tidy trivial

theorem frames_storeAll (cells : List (Term × Term)) (array : Term)
    {s : Solver Enumerator LogicSort Handle} (tidy : s.Tidy) :
    Frames (cells.foldlM (fun array (i, x) => makeTerm PrimOp.store [array, i, x]) array) s
      fun _ _ => True := by
  induction cells generalizing array s with
  | nil => exact frames_pure tidy trivial
  | cons cell cells ih =>
    rw [List.foldlM_cons]
    exact (frames_makeTerm tidy _ _).bind fun array' _ tidy _ => ih array' tidy

theorem frames_getArray (tidy : s.Tidy) (t : Term) : Frames (getArray t) s fun _ _ => True := by
  refine (frames_getArrayValues tidy t).bind fun m s₁ tidy _ => ?_
  split
  · exact leads_get (frames_throw tidy _)
  · exact (frames_makeConstArray tidy _ t.sort).bind fun start _ tidy _ =>
      frames_storeAll m.cells start tidy

theorem frames_getValue (tidy : s.Tidy) (t : Term) : Frames (getValue t) s fun _ _ => True := by
  unfold getValue
  split
  · exact frames_getArray tidy t
  · refine (frames_native tidy t).bind ?_
    rintro n _ _ ⟨-, rfl⟩
    exact (frames_plain tidy (Enumerator.builds_getValue n)).bind fun v _ tidy _ =>
      frames_wrapValue tidy v t.sort

theorem frames_getUnsatCore (tidy : s.Tidy) :
    Frames (getUnsatCore : Action (Solver Enumerator LogicSort Handle) (List Term)) s
      fun _ _ => True := by
  refine (frames_plain tidy Enumerator.builds_getUnsatCore).bind fun core _ tidy _ => ?_
  exact leads_get ((frames_ask tidy _).mono fun _ _ _ _ => trivial)

end Values

section Walks

/-- What a rewriter has to do for its walks to leave assertions and model alone. -/
structure Steady (r : Rewriter (Solver Enumerator LogicSort Handle)) : Prop where
  visit : ∀ s t news, s.Tidy → Frames (r.visit t news) s fun _ _ => True
  rebuild : ∀ s op news, s.Tidy → Frames (r.rebuild op news) s fun _ _ => True

theorem Steady.walkWith {r : Rewriter (Solver Enumerator LogicSort Handle)} (steady : Steady r)
    (tidy : s.Tidy) (w : Walker) (t : Term) : Frames (Solver.walkWith r w t) s fun _ _ => True := by
  refine leads_iff_finalState.mpr (walkWith_keeps (I := Stays s) ?_ ?_ w t (.refl tidy))
  · exact fun t news s' stays =>
      stays.trans (leads_iff_finalState.mp (steady.visit s' t news stays.tidy))
  · exact fun op news s' stays =>
      stays.trans (leads_iff_finalState.mp (steady.rebuild s' op news stays.tidy))

theorem steady_identity : Steady (.identity makeTerm) where
  visit _ _ _ tidy := frames_pure tidy trivial
  rebuild _ op news tidy := frames_makeTerm tidy op news

theorem frames_substituteAll (w : Walker) (ts : List Term)
    {s : Solver Enumerator LogicSort Handle} (tidy : s.Tidy) :
    Frames (substituteAll w ts) s fun _ _ => True := by
  induction ts generalizing w s with
  | nil => exact frames_pure tidy trivial
  | cons t ts ih =>
    rw [substituteAll]
    exact (steady_identity.walkWith tidy w t).bind fun found _ tidy _ =>
      (ih found.1 tidy).bind fun _ _ tidy _ => frames_pure tidy trivial

theorem frames_substituteTerms (tidy : s.Tidy) (ts : List Term) (map : TermMap) :
    Frames (substituteTerms ts map) s fun _ _ => True := by
  refine (frames_ofExcept tidy (Substitution.walker map)).bind ?_
  rintro w _ _ ⟨-, rfl⟩
  exact frames_substituteAll w ts tidy

theorem frames_substitute (tidy : s.Tidy) (t : Term) (map : TermMap) :
    Frames (substitute t map) s fun _ _ => True := by
  refine (frames_ofExcept tidy (Substitution.walker map)).bind ?_
  rintro w _ _ ⟨-, rfl⟩
  exact (steady_identity.walkWith tidy w t).bind fun _ _ tidy _ => frames_pure tidy trivial

mutual
theorem frames_declareSorts (sort : LogicSort) {s : Solver Enumerator LogicSort Handle}
    (tidy : s.Tidy) : Frames (declareSorts sort) s fun _ _ => True := by
  cases sort with
  | uninterpreted name arity =>
    rw [declareSorts]
    refine leads_get ?_
    split
    · exact (frames_makeUninterpretedSort tidy name arity).bind
        fun _ _ tidy _ => frames_pure tidy trivial
    · exact frames_pure tidy trivial
  | datatype name =>
    rw [declareSorts]
    refine leads_get ?_
    split
    · exact frames_throw tidy _
    · exact frames_pure tidy trivial
  | array index element =>
    rw [declareSorts]
    exact (frames_declareSorts element tidy).bind fun _ _ tidy _ => frames_declareSorts index tidy
  | function domain range =>
    rw [declareSorts]
    exact (frames_declareSorts range tidy).bind fun _ _ tidy _ => frames_declareAll domain tidy
  | bool | int | real | bitVec | param | unresolved =>
    rw [declareSorts]
    exact frames_pure tidy trivial
theorem frames_declareAll (sorts : List LogicSort) {s : Solver Enumerator LogicSort Handle}
    (tidy : s.Tidy) : Frames (declareAll sorts) s fun _ _ => True := by
  cases sorts with
  | nil =>
    rw [declareAll]
    exact frames_pure tidy trivial
  | cons sort rest =>
    rw [declareAll]
    exact (frames_declareAll rest tidy).bind fun _ _ tidy _ => frames_declareSorts sort tidy
end

theorem frames_matchSymbol (tidy : s.Tidy) (name : String) (sort : LogicSort) :
    Frames (matchSymbol name sort) s fun _ _ => True := by
  refine leads_get ?_
  split
  · refine (frames_ofExcept tidy _).bind ?_
    rintro _ _ _ ⟨-, rfl⟩
    exact frames_pure tidy trivial
  · exact (frames_declareSorts sort tidy).bind fun _ _ tidy _ => frames_makeSymbol tidy name sort

theorem frames_translate (tidy : s.Tidy) (t : Term) (children : List Term) :
    Frames (translate t children) s fun _ _ => True := by
  unfold translate
  split
  · exact frames_matchSymbol tidy _ _
  · exact frames_makeValue tidy _ _
  · exact frames_makeConstArray tidy _ _
  · exact frames_throw tidy _
  · exact frames_makeTerm tidy _ _

theorem steady_translator : Steady translator where
  visit _ t news tidy := (frames_translate tidy t news).map
  rebuild _ op news tidy := frames_makeTerm tidy op news

theorem frames_transfer (tidy : s.Tidy) (t : Term) : Frames (transfer t) s fun _ _ => True :=
  (steady_translator.walkWith tidy _ t).bind fun _ _ tidy _ => frames_pure tidy trivial

end Walks

section Requests

theorem frames_command (tidy : s.Tidy) {c : Command LogicSort Term}
    (reads : (Request.command c).Reads) :
    Frames (Engine.perform c) s fun _ _ => True := by
  have options : ∀ (act : Action Enumerator Unit),
    Enumerator.Builds (fun node _ => node.Plain) act →
      Frames (do onEngine act; return (.done : Answer LogicSort Term)) s fun _ _ =>
        True := fun act builds =>
    (frames_plain tidy builds).bind fun _ _ tidy _ => frames_pure tidy trivial
  cases c with
  | name | capabilities | literal => exact ⟨.refl tidy, trivial⟩
  | setOption option value => exact options _ (Enumerator.builds_setOption option value)
  | setLogic logic => exact options _ (Enumerator.builds_setOption "logic" logic)
  | makeSort kind => exact (frames_makeSort tidy kind).map
  | makeBitVecSort width => exact (frames_makeBitVecSort tidy width).map
  | makeArraySort index element => exact (frames_withNative tidy _).map
  | makeFunctionSort domain range => exact (frames_makeFunctionSort tidy domain range).map
  | makeUninterpretedSort name arity => exact (frames_makeUninterpretedSort tidy name arity).map
  | makeDatatypeSort decl => exact (frames_makeDatatypeSort tidy decl).map
  | makeValue l sort => exact (frames_makeValue tidy l sort).map
  | makeConstArray fill sort => exact (frames_makeConstArray tidy fill sort).map
  | makeSymbol name sort => exact (frames_makeSymbol tidy name sort).map
  | makeTerm op args => exact (frames_makeTerm tidy op args).map
  | sortOf t | opOf t | children t => exact ⟨.refl tidy, trivial⟩
  | getValue t => exact (frames_getValue tidy t).map
  | getArrayValues t => exact (frames_getArrayValues tidy t).map
  | getUnsatCore => exact (frames_getUnsatCore tidy).map
  | assertFormula | checkSat | checkSatAssuming | checkSatInterruptible | push | pop | reset
  | resetAssertions => exact reads.elim

/-- A request that makes terms or reads values leaves assertions and model alone, however it
ends. -/
theorem frames_perform (tidy : s.Tidy) {q : Request} (reads : q.Reads) :
    Frames q.perform s fun _ _ => True := by
  cases q with
  | command c => exact frames_command tidy reads
  | makeBool b => exact (frames_makeValue tidy _ _).map
  | makeInt i sort => exact (frames_makeInt tidy i sort).map
  | parseValue repr sort base => exact (frames_parseValue tidy repr sort base).map
  | getSymbol name => exact (frames_ask tidy (·.symbol name)).map
  | substitute t map => exact (frames_substitute tidy t map).map
  | substituteTerms ts map => exact (frames_substituteTerms tidy ts map).map
  | transfer t => exact (frames_transfer tidy t).map

end Requests

end Solver

end FormulaGraph

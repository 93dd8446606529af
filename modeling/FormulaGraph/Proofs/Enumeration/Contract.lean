import FormulaGraph.Enumeration.Enumerator
import FormulaGraph.Proofs.Engine.Contract
import FormulaGraph.Proofs.Enumeration.Search

/-!
The contract that the enumerating engine honours: its terms are nodes made just as they were asked
for, each a node of its own, and what it reports as a value is one of the sort that was asked
about.
-/

namespace FormulaGraph.Enumerator

open FormulaGraph.Action

/-- The nodes have sorts that fit, and so have the values of a model. -/
structure Sound (e : Enumerator) : Prop where
  sorted : e.store.Sorted
  model : ∀ env, e.model = some env → e.store.Admits env

structure Later (e e' : Enumerator) : Prop where
  store : e.store.Extends e'.store
  aliasing : e'.aliasing = e.aliasing

/-- The node that is made for a blueprint. -/
inductive Built : Blueprint Handle → Node → Prop
  | symbol (sort : LogicSort) (name : String) : Built ⟨.null, sort, .symbol name, []⟩ (.symbol name)
  | value (sort : LogicSort) (l : Literal) : Built ⟨.null, sort, .value l, []⟩ (.value l)
  | constArray (sort : LogicSort) (fill : Handle) :
      Built ⟨.null, sort, .constArray, [fill]⟩ (.constArray fill)
  | application (op : Op) (sort : LogicSort) (args : List Handle) :
      Built ⟨op, sort, .application, args⟩ (.application op args)

theorem Built.of_value {op : Op} {sort : LogicSort} {l : Literal} {args : List Handle} {node : Node}
    (built : Built ⟨op, sort, .value l, args⟩ node) : node = .value l := by
  cases built
  rfl

theorem Built.of_symbol {op : Op} {sort : LogicSort} {name : String}
    {args : List Handle} {node : Node}
    (built : Built ⟨op, sort, .symbol name, args⟩ node) : node = .symbol name := by
  cases built
  rfl

theorem Built.kind_symbol {op : Op} {sort : LogicSort} {kind : TermKind} {name : String}
    {args : List Handle} (built : Built ⟨op, sort, kind, args⟩ (.symbol name)) :
    kind = .symbol name := by
  cases built
  rfl

theorem Built.of_constArray {op : Op} {sort : LogicSort} {args : List Handle} {node : Node}
    (built : Built ⟨op, sort, .constArray, args⟩ node) :
    ∃ fill, args = [fill] ∧ node = .constArray fill := by
  cases built
  exact ⟨_, rfl, rfl⟩

theorem Built.of_application {op : Op} {sort : LogicSort} {args : List Handle} {node : Node}
    (built : Built ⟨op, sort, .application, args⟩ node) : node = .application op args := by
  cases built
  rfl

theorem Built.operands {op : Op} {sort : LogicSort} {kind : TermKind} {args : List Handle}
    {node : Node} (built : Built ⟨op, sort, kind, args⟩ node) : node.operands = args := by
  cases built <;> rfl

def contract : Contract Enumerator LogicSort Handle where
  Valid := Sound
  Grows := Later
  Fails := Error.Plain
  Denotes sort made := made = sort
  Names e n b := ∃ node, e.store.find? n = some (node, b.sort) ∧ Built b node
  Apart m n := m ≠ n
  Aliases e a := e.aliasing = a

variable {α β : Type} {e e' e'' : Enumerator} {n m t : Handle} {sort index element : LogicSort}
  {l : Literal} {x : Datum} {post : α → Enumerator → Prop}

theorem Later.refl (e : Enumerator) : Later e e := ⟨fun _ _ h => h, rfl⟩

theorem Later.trans (first : Later e e') (second : Later e' e'') : Later e e'' :=
  ⟨fun t entry h => second.store t entry (first.store t entry h),
    second.aliasing.trans first.aliasing⟩

/-- How an operation of the engine ends. -/
abbrev Ends (act : Action Enumerator α) (e : Enumerator) (post : α → Enumerator → Prop) : Prop :=
  Leads contract.Steps contract.Fails act e post

theorem Ends.bind {act : Action Enumerator α} {next : α → Action Enumerator β}
    {goal : β → Enumerator → Prop} (first : Ends act e post)
    (rest : ∀ a e', contract.Steps e e' → post a e' → Ends (next a) e' goal) :
    Ends (act >>= next) e goal :=
  Leads.bind (fun h h' => ⟨h'.1, h.2.trans h'.2⟩) first rest

theorem ends_pure (sound : e.Sound) {a : α} (holds : post a e) : Ends (pure a) e post :=
  leads_pure ⟨sound, .refl e⟩ holds

theorem ends_throw (sound : e.Sound) {x : Error} (plain : x.Plain) :
    Ends (throw x : Action Enumerator α) e post :=
  leads_throw ⟨sound, .refl e⟩ plain

theorem ends_ofExcept (sound : e.Sound) {r : Except Error α} (plain : Plainly r) :
    Ends (Action.ofExcept r) e fun a e' => r = .ok a ∧ e = e' :=
  leads_ofExcept ⟨sound, .refl e⟩ (fun _ h => ⟨h, rfl⟩) fun x h => (plain x h).plain

theorem ends_get {next : Enumerator → Action Enumerator α} (ends : Ends (next e) e post) :
    Ends (get >>= next) e post :=
  ends

theorem ends_modify {f : Enumerator → Enumerator} (sound : (f e).Sound)
    (later : Later e (f e)) : Ends (modify f) e fun _ e' => e' = f e :=
  ⟨⟨sound, later⟩, rfl⟩

theorem fresh_of_le (outside : e.store.size ≤ n.index) : contract.Fresh e n := by
  rintro m b ⟨node, found, _⟩ same
  have bound := NodeStore.index_lt_of_find? found
  rw [same] at bound
  omega

theorem names_later {b : Blueprint Handle} (later : Later e e') (names : contract.Names e n b) :
    contract.Names e' n b := by
  obtain ⟨node, found, built⟩ := names
  exact ⟨node, later.store n _ found, built⟩

theorem fresh_earlier (later : Later e e') (fresh : contract.Fresh e' n) : contract.Fresh e n :=
  fun m b names => fresh m b (names_later later names)

theorem addNode_made (sound : e.Sound) (node : Node) (sort : LogicSort)
    (known : ∀ c ∈ node.operands, c.index < e.store.size) (fits : e.store.Fits node sort) :
    contract.Steps e (e.addNode node sort known).2 ∧
      (e.addNode node sort known).2.store.find? (e.addNode node sort known).1 = some (node, sort) ∧
      contract.Fresh e (e.addNode node sort known).1 := by
  have extension := NodeStore.extends_push e.store node sort known
  have index := NodeStore.index_push e.store node sort known
  refine ⟨⟨⟨sound.sorted.push known fits, fun env found => ?_⟩, extension, rfl⟩, ?_, ?_⟩
  · exact (sound.model env found).extend extension
  · show (e.store.push node sort known).2.find? (e.store.push node sort known).1 = _
    rw [NodeStore.find?_push, if_pos index]
  · exact fresh_of_le (Nat.le_of_eq index.symm)

theorem ends_addValue (sound : e.Sound) (fits : l.fits sort = true) :
    Ends (addValue l sort) e (contract.Made e ⟨.null, sort, .value l, []⟩) := by
  obtain ⟨steps, found, fresh⟩ := addNode_made sound (.value l) sort (by simp [Node.operands]) fits
  exact ⟨steps, ⟨_, found, .value sort l⟩, fresh⟩

/-- What is read off a value is its literal, whether or not truth values pass as bits. -/
theorem reading_eq (fits : l.fits sort = true) (found : e.store.find? n = some (.value l, sort)) :
    Engine.reading e.aliasing e n sort = l := by
  unfold Engine.reading
  have given : Engine.literal e n = literal e n := rfl
  rw [given, literal, found]
  cases l with
  | bool b =>
    cases sort with
    | bool => cases e.aliasing <;> cases b <;> rfl
    | _ => cases fits
  | bitVec w bits =>
    cases sort with
    | bool => cases fits
    | _ => rfl
  | int | real | other => cases sort <;> rfl

theorem ends_addDatum (sound : e.Sound) (holds : sort.Holds x) :
    Ends (addDatum sort x) e fun n e' =>
      contract.Value e.aliasing sort n e' ∧ contract.Fresh e n ∧ ∃ b, contract.Names e' n b := by
  have value : ∀ l : Literal, l.fits sort = true →
      Ends (addValue l sort) e fun n e' =>
        contract.Value e.aliasing sort n e' ∧ contract.Fresh e n ∧ ∃ b, contract.Names e' n b := by
    intro l fits
    refine (ends_addValue sound fits).mono ?_
    rintro n e' steps ⟨names, fresh⟩
    refine ⟨fun e'' later => ?_, fresh, _, names⟩
    obtain ⟨node, found, built⟩ := names
    cases built
    have found' := later.store n _ found
    have same : e.aliasing = e''.aliasing := (steps.2.trans later).aliasing.symm
    rw [same, reading_eq fits found']
    exact ⟨_, found', .value sort l⟩
  cases x with
  | bool b =>
    cases sort with
    | bool => exact value _ rfl
    | _ => cases holds
  | bitVec v bits =>
    cases sort with
    | bitVec w =>
      obtain ⟨rfl, _⟩ := holds
      exact value _ (by simp [Literal.fits, Literal.ofBits])
    | _ => cases holds
  | array cells => exact ends_throw sound trivial

theorem ends_makeConstArray (sound : e.Sound) {node : Node}
    (found : e.store.find? n = some (node, element)) :
    Ends (makeConstArray n (.array index element)) e
      (contract.Made e ⟨.null, .array index element, .constArray, [n]⟩) := by
  have bound := NodeStore.index_lt_of_find? found
  obtain ⟨steps, added, fresh⟩ := addNode_made sound (.constArray n) (.array index element)
    (by simpa [Node.operands] using bound) ⟨index, element, node, rfl, found⟩
  have run : makeConstArray n (.array index element) e =
      .ok (e.addNode (.constArray n) (.array index element)
        (by simpa [Node.operands] using bound)).1
        (e.addNode (.constArray n) (.array index element)
          (by simpa [Node.operands] using bound)).2 := by
    rw [makeConstArray, dif_pos bound]
  exact (leads_ok run).mpr ⟨steps, ⟨_, added, .constArray _ n⟩, fresh⟩

theorem ends_makeSymbol (sound : e.Sound) (name : String) (sort : LogicSort) :
    Ends (makeSymbol name sort) e (contract.Made e ⟨.null, sort, .symbol name, []⟩) := by
  by_cases taken : e.symbols.contains name = true
  · have run : makeSymbol name sort e = .error (.duplicate .symbol name) e := by
      rw [makeSymbol, if_pos taken]
    exact (leads_error run).mpr ⟨⟨sound, .refl e⟩, trivial⟩
  · have run : makeSymbol name sort e =
        .ok (e.addNode (.symbol name) sort (by simp [Node.operands])).1
          { (e.addNode (.symbol name) sort (by simp [Node.operands])).2 with
            symbols :=
              (e.addNode (.symbol name) sort (by simp [Node.operands])).2.symbols.insert name
                (e.addNode (.symbol name) sort (by simp [Node.operands])).1 } := by
      rw [makeSymbol, if_neg taken]
    obtain ⟨steps, added, fresh⟩ := addNode_made sound (.symbol name) sort
      (by simp [Node.operands]) trivial
    exact (leads_ok run).mpr ⟨⟨⟨steps.1.sorted, steps.1.model⟩, ⟨steps.2.store, steps.2.aliasing⟩⟩,
      ⟨_, added, .symbol sort name⟩, fresh⟩

theorem plainly_applicationSort (op : Op) (sorts : List LogicSort) :
    Plainly (applicationSort op sorts) := by
  refine .bind (op.plainly_resultSort sorts) fun found => ?_
  split
  · exact .pure _
  · exact .error trivial

theorem applicationSort_eq_ok_iff {op : Op} {sorts : List LogicSort} :
    applicationSort op sorts = .ok sort ↔ op.resultSort sorts = .ok (some sort) := by
  unfold applicationSort
  cases result : op.resultSort sorts with
  | error x => exact ⟨nofun, nofun⟩
  | ok found =>
    cases found with
    | none => exact ⟨nofun, nofun⟩
    | some s =>
      constructor
      · intro h
        cases h
        rfl
      · intro h
        cases h
        rfl

theorem mapM_find {args : List Handle} {sorts : List LogicSort}
    (operands : List.Forall₂ (fun a s => ∃ node, e.store.find? a = some (node, s)) args sorts) :
    ∃ found, args.mapM e.store.find = .ok found ∧ found.map Prod.snd = sorts := by
  induction operands with
  | nil => exact ⟨[], rfl, rfl⟩
  | @cons a s args sorts first _ ih =>
    obtain ⟨node, stored⟩ := first
    obtain ⟨found, mapped, same⟩ := ih
    have looked : e.store.find a = .ok (node, s) := by rw [NodeStore.find, stored]
    refine ⟨(node, s) :: found, ?_, by rw [List.map_cons, same]⟩
    rw [List.mapM_cons, looked, mapped]
    rfl

theorem index_lt_of_operands {args : List Handle} {sorts : List LogicSort}
    (operands : List.Forall₂ (fun a s => ∃ node, e.store.find? a = some (node, s)) args sorts) :
    ∀ a ∈ args, a.index < e.store.size := by
  induction operands with
  | nil => exact fun a ha => absurd ha List.not_mem_nil
  | cons first _ ih =>
    intro a ha
    cases List.mem_cons.mp ha with
    | inl same =>
      obtain ⟨node, stored⟩ := first
      exact same ▸ NodeStore.index_lt_of_find? stored
    | inr ha => exact ih a ha

theorem ends_makeTerm (sound : e.Sound) (op : Op) {args : List Handle} {sorts : List LogicSort}
    (operands : List.Forall₂ (fun a s => ∃ node, e.store.find? a = some (node, s)) args sorts) :
    Ends (makeTerm op args) e fun n e' =>
      ∀ sort, op.Gives sorts sort → contract.Made e ⟨op, sort, .application, args⟩ n e' := by
  have bound := index_lt_of_operands operands
  obtain ⟨found, mapped, same⟩ := mapM_find operands
  cases result : applicationSort op sorts with
  | error x =>
    have run : makeTerm op args e = .error x e := by
      rw [makeTerm, dif_pos bound, mapped]
      simp only [Except.bind, same, result]
    exact (leads_error run).mpr
      ⟨⟨sound, .refl e⟩, (plainly_applicationSort op sorts x result).plain⟩
  | ok sort =>
    have known : ∀ c ∈ (Node.application op args).operands, c.index < e.store.size := by
      simpa [Node.operands] using bound
    have run : makeTerm op args e = .ok (e.addNode (.application op args) sort known).1
        (e.addNode (.application op args) sort known).2 := by
      rw [makeTerm, dif_pos bound, mapped]
      simp only [Except.bind, same, result]
    have derived := applicationSort_eq_ok_iff.mp result
    obtain ⟨steps, added, fresh⟩ := addNode_made sound _ sort known ⟨sorts, operands, derived⟩
    refine (leads_ok run).mpr ⟨steps, fun sort' gives => ?_⟩
    have sort_eq : sort' = sort := by
      cases gives with
      | inl given => rw [derived] at given; cases given; rfl
      | inr none => rw [derived] at none; cases none
    rw [sort_eq]
    exact ⟨⟨_, added, .application op sort args⟩, fresh⟩

theorem lookUp_of_found {node : Node} (found : e.store.find? n = some (node, sort)) :
    lookUp n e = .ok (node, sort) e := by
  show Action.ofExcept (e.store.find n) e = _
  rw [NodeStore.find, found]
  rfl

theorem sortOf_of_found {node : Node} (found : e.store.find? n = some (node, sort)) :
    ∃ reported, sortOf n e = .ok reported e ∧ reported.isArray = sort.isArray := by
  rw [sortOf, Action.bind_ok (lookUp_of_found found)]
  refine ⟨_, rfl, ?_⟩
  cases sort <;> cases e.aliasing <;> rfl

theorem ends_lookUp (sound : e.Sound) (t : Handle) :
    Ends (lookUp t) e fun entry e' => e.store.find? t = some entry ∧ e = e' := by
  refine ends_get ((ends_ofExcept sound (e.store.plainly_find t)).mono ?_)
  rintro entry e' _ ⟨found, same⟩
  exact ⟨NodeStore.find_ok found, same⟩

theorem ends_sortOf (sound : e.Sound) (t : Handle) : Ends (sortOf t) e fun _ _ => True := by
  refine (ends_lookUp sound t).bind ?_
  rintro entry _ _ ⟨_, same⟩
  subst same
  exact ends_get (ends_pure sound trivial)

theorem ends_assertFormula (sound : e.Sound) (t : Handle) :
    Ends (assertFormula t) e fun _ _ => True := by
  have looked : Ends (discard (lookUp t)) e fun _ e' => e = e' := by
    refine (ends_lookUp sound t).bind ?_
    rintro entry _ _ ⟨_, same⟩
    subst same
    exact ends_pure sound rfl
  refine looked.bind fun _ _ _ same => ?_
  subst same
  exact (ends_modify (f := fun e => { e with scopes := e.scopes.assert t })
      ⟨sound.sorted, sound.model⟩ ⟨fun _ _ h => h, rfl⟩).mono fun _ _ _ _ => trivial

theorem Sound.forget (sound : e.Sound) : e.forget.Sound := ⟨sound.sorted, nofun⟩

theorem ends_check (sound : e.Sound) (extra : List Handle) (token : CancelToken) :
    Ends (check extra token) e fun _ e' => e'.store = e.store := by
  refine (ends_modify sound.forget ⟨fun _ _ h => h, rfl⟩).bind fun _ e₁ steps forgotten => ?_
  subst forgotten
  have sound := sound.forget
  refine ends_get ?_
  split
  · exact ends_pure sound rfl
  · refine (ends_ofExcept sound (Search.plainly_run _ _ _)).bind ?_
    rintro finding _ _ ⟨searched, same⟩
    subst same
    cases finding with
    | model env =>
      have modelled : { e.forget with model := some env : Enumerator }.Sound :=
        ⟨sound.sorted, fun env' given => by cases given; exact Search.admits_of_run searched⟩
      refine Ends.bind (e := e.forget) (ends_modify modelled ⟨fun _ _ h => h, rfl⟩) ?_
      intro _ e₂ steps same
      subst same
      exact ends_pure steps.1 rfl
    | noModel => exact ends_pure sound rfl
    | cutShort => exact ends_pure sound rfl

theorem plainly_isUnsat (e : Enumerator) (extra : List Handle) : Plainly (e.isUnsat extra) := by
  refine .bind (Search.plainly_run _ _ _) fun finding => ?_
  split
  · exact .pure _
  · exact .pure _
  · exact .pure _

theorem ends_checkSatAssuming (sound : e.Sound) (assumptions : List Handle) :
    Ends (checkSatAssuming assumptions) e fun _ _ => True := by
  refine (ends_check sound assumptions .idle).bind fun verdict e₁ steps _ => ?_
  have sound := steps.1
  dsimp only
  split
  · refine ends_get ?_
    refine (ends_ofExcept sound (Search.plainly_shrink e₁.plainly_isUnsat [] assumptions)).bind ?_
    rintro core _ _ ⟨_, same⟩
    subst same
    refine (ends_modify (f := fun e => { e with core }) ⟨sound.sorted, sound.model⟩
      ⟨fun _ _ h => h, rfl⟩).bind fun _ _ steps _ => ?_
    exact ends_pure steps.1 trivial
  · exact ends_pure sound trivial

theorem valueInModel_of_found {node : Node} {env : Assignment} (model : e.model = some env)
    (found : e.store.find? n = some (node, sort)) :
    valueInModel n e = ((·, sort) <$> Action.ofExcept (e.store.eval env n)) e := by
  rw [valueInModel, Action.bind_ok
    (show (get : Action Enumerator Enumerator) e = .ok e e from rfl), model]
  show (Action.ofExcept (e.store.eval env n) >>= _) e = _
  cases e.store.eval env n with
  | error x => rfl
  | ok x =>
    have evaluated : (Action.ofExcept (.ok x) : Action Enumerator Datum) e = .ok x e := rfl
    rw [Action.bind_ok evaluated, Action.bind_ok (lookUp_of_found found)]
    rfl

theorem ends_valueInModel (sound : e.Sound) {node : Node}
    (found : e.store.find? t = some (node, sort)) :
    Ends (valueInModel t) e fun p e' => sort.Holds p.1 ∧ p.2 = sort ∧ e = e' := by
  refine ends_get ?_
  split
  · exact ends_throw sound trivial
  · rename_i env given
    refine (ends_ofExcept sound (e.store.plainly_eval env t)).bind ?_
    rintro x _ _ ⟨value, same⟩
    subst same
    refine (ends_lookUp sound t).bind ?_
    rintro entry _ _ ⟨looked, same⟩
    subst same
    cases found.symm.trans looked
    have holds := NodeStore.holds_eval sound.sorted (sound.model env given) found value
    exact ends_pure sound ⟨holds, rfl, rfl⟩

theorem ends_getValue (sound : e.Sound) {node : Node}
    (found : e.store.find? t = some (node, sort)) :
    Ends (getValue t) e fun n e' =>
      contract.Value e.aliasing sort n e' ∧ contract.Fresh e n := by
  refine (ends_valueInModel sound found).bind ?_
  rintro ⟨x, sort'⟩ _ _ ⟨holds, same, state⟩
  subst same state
  exact (ends_addDatum sound holds).mono fun _ _ _ h => ⟨h.1, h.2.1⟩

/-- The terms that were made for cells of an array model: values, new, and each a term of its
own. -/
structure CellsMade (e : Enumerator) (index element : LogicSort) (cells : List (Handle × Handle))
    (e' : Enumerator) : Prop where
  values : ∀ p ∈ cells,
    contract.Value e.aliasing index p.1 e' ∧ contract.Value e.aliasing element p.2 e'
  fresh : ∀ n ∈ cells.flatMap (fun (i, x) => [i, x]), contract.Fresh e n
  apart : (cells.flatMap fun (i, x) => [i, x]).Pairwise (· ≠ ·)

theorem value_later {aliasing : Bool} (value : contract.Value aliasing sort n e)
    (later : Later e e') : contract.Value aliasing sort n e' :=
  fun e'' later' => value e'' (later.trans later')

theorem ends_addCells {width : UInt64} {base : Datum} {cells : List Datum} {e : Enumerator}
    (sound : e.Sound) (i : Nat) (holds : ∀ x ∈ cells, element.Holds x) :
    Ends (addCells (.bitVec width) element width base i cells) e
      (CellsMade e (.bitVec width) element) := by
  induction cells generalizing e i with
  | nil =>
    rw [addCells]
    refine ends_pure sound ⟨?_, ?_, .nil⟩
    · exact fun p hp => absurd hp List.not_mem_nil
    · exact fun n hn => absurd hn List.not_mem_nil
  | cons x xs ih =>
    have rest : ∀ y ∈ xs, element.Holds y := fun y hy => holds y (List.mem_cons_of_mem _ hy)
    rw [addCells]
    split
    · exact ih sound (i + 1) rest
    · refine (ends_addDatum sound (LogicSort.holds_ofBits width _)).bind ?_
      rintro position e₁ steps₁ ⟨positionValue, positionFresh, b, positionNames⟩
      refine (ends_addDatum steps₁.1 (holds x List.mem_cons_self)).bind ?_
      rintro cell e₂ steps₂ ⟨cellValue, cellFresh, c, cellNames⟩
      refine (ih steps₂.1 (i + 1) rest).bind fun made e₃ steps₃ cellsMade => ?_
      have later := steps₁.2.trans steps₂.2
      have aliasing₁ : e₁.aliasing = e.aliasing := steps₁.2.aliasing
      have aliasing₂ : e₂.aliasing = e.aliasing := later.aliasing
      refine ends_pure steps₃.1 ⟨?_, ?_, ?_⟩
      · intro p hp
        cases List.mem_cons.mp hp with
        | inl same =>
          subst same
          exact ⟨value_later positionValue (steps₂.2.trans steps₃.2),
            aliasing₁ ▸ value_later cellValue steps₃.2⟩
        | inr hp => exact aliasing₂ ▸ cellsMade.values p hp
      · intro n hn
        rw [List.flatMap_cons, List.mem_append] at hn
        cases hn with
        | inl hn =>
          cases List.mem_cons.mp hn with
          | inl same => exact same ▸ positionFresh
          | inr hn => exact List.mem_singleton.mp hn ▸ fresh_earlier steps₁.2 cellFresh
        | inr hn => exact fresh_earlier later (cellsMade.fresh n hn)
      · rw [List.flatMap_cons]
        refine .cons ?_ (.cons ?_ cellsMade.apart)
        · intro n hn
          cases List.mem_cons.mp hn with
          | inl same => exact same ▸ cellFresh position b positionNames
          | inr hn => exact cellsMade.fresh n hn position b (names_later steps₂.2 positionNames)
        · exact fun n hn => cellsMade.fresh n hn cell c cellNames

theorem ends_getArrayValues (sound : e.Sound) {node : Node}
    (found : e.store.find? t = some (node, .array index element)) :
    Ends (getArrayValues t) e (contract.ModelMade e.aliasing index element e) := by
  refine (ends_valueInModel sound found).bind ?_
  rintro ⟨x, sort⟩ _ _ ⟨holds, same, state⟩
  subst same state
  refine (ends_ofExcept sound (LogicSort.plainly_expectArray _)).bind ?_
  rintro _ _ _ ⟨arrays, state⟩
  subst state
  cases arrays
  refine (ends_ofExcept sound index.plainly_expectBitVec).bind ?_
  rintro width _ _ ⟨indexed, state⟩
  subst state
  obtain rfl := LogicSort.expectBitVec_ok indexed
  refine (ends_ofExcept sound x.plainly_asCells).bind ?_
  rintro cells _ _ ⟨listed, state⟩
  subst state
  obtain ⟨_, _, _, rfl, _, cellsHold⟩ := LogicSort.eq_array_of_holds holds
  cases listed
  cases cells with
  | nil => exact ends_throw sound trivial
  | cons first rest =>
    refine (ends_addDatum sound (cellsHold first List.mem_cons_self)).bind ?_
    rintro base e₁ steps₁ ⟨baseValue, baseFresh, b, baseNames⟩
    refine (ends_addCells steps₁.1 1 fun y hy => cellsHold y (List.mem_cons_of_mem _ hy)).bind ?_
    intro cells e₂ steps₂ made
    have aliasing : e₁.aliasing = e.aliasing := steps₁.2.aliasing
    have fresh : ∀ n ∈ cells.flatMap fun (i, x) => [i, x], contract.Fresh e n :=
      fun n hn => fresh_earlier steps₁.2 (made.fresh n hn)
    refine ends_get (ends_pure steps₂.1 ?_)
    split
    · exact ⟨nofun, aliasing ▸ made.values, fresh, made.apart⟩
    · refine ⟨?_, aliasing ▸ made.values, ?_, ?_⟩
      · intro n hn
        cases hn
        exact value_later baseValue steps₂.2
      · intro n hn
        cases List.mem_cons.mp hn with
        | inl same => exact same ▸ baseFresh
        | inr hn => exact fresh n hn
      · exact .cons (fun n hn => made.fresh n hn base b baseNames) made.apart

theorem ends_getUnsatCore (sound : e.Sound) : Ends getUnsatCore e fun _ _ => True := by
  refine ends_get ?_
  split
  · have fits : (Literal.bool false).fits .bool = true := rfl
    refine (ends_addValue sound fits).bind fun _ _ steps _ => ?_
    exact ends_pure steps.1 trivial
  · exact ends_pure sound trivial

theorem ends_pop (sound : e.Sound) (levels : UInt64) : Ends (pop levels) e fun _ _ => True := by
  cases popped : e.scopes.pop? levels.toNat with
  | some scopes =>
    have run : pop levels e = .ok () { e with scopes } := by rw [pop, popped]
    exact (leads_ok run).mpr ⟨⟨⟨sound.sorted, sound.model⟩, ⟨fun _ _ h => h, rfl⟩⟩, trivial⟩
  | none =>
    have run : pop levels e = .error (.usage (.tooFewScopes levels)) e := by rw [pop, popped]
    exact (leads_error run).mpr ⟨⟨sound, .refl e⟩, trivial⟩

/-- An engine of which nothing has been asked yet. -/
structure Fresh (e : Enumerator) : Prop where
  store : e.store = .empty
  model : e.model = none

theorem Fresh.sound (fresh : e.Fresh) : e.Sound := by
  refine ⟨?_, ?_⟩
  · rw [fresh.store]
    exact NodeStore.sorted_empty
  · rw [fresh.model]
    exact nofun

theorem fresh_new (name : String) : (new name).Fresh := ⟨rfl, rfl⟩

theorem contract_honoured : contract.Honoured Fresh where
  refl := .refl
  trans _ _ _ := .trans
  names _ _ _ _ := names_later
  aliases _ _ _ later known := later.aliasing.trans known
  symm _ _ := Ne.symm
  starts _ fresh := ⟨fresh.sound, rfl⟩
  fails _ plain := plain
  takeNotices e sound := ⟨sound, .refl e⟩
  setOption option value e sound :=
    (ends_modify (f := fun e => { e with options := e.options.insert option value })
      ⟨sound.sorted, sound.model⟩ ⟨fun _ _ h => h, rfl⟩).mono fun _ _ _ _ => trivial
  setLogic logic e sound :=
    (ends_modify (f := fun e => { e with options := e.options.insert "logic" logic })
      ⟨sound.sorted, sound.model⟩ ⟨fun _ _ h => h, rfl⟩).mono fun _ _ _ _ => trivial
  sortOf t e sound := ends_sortOf sound t
  assertFormula t e sound := ends_assertFormula sound t
  checkSat e sound := (ends_check sound [] .idle).mono fun _ _ _ _ => trivial
  checkSatAssuming ts e sound := ends_checkSatAssuming sound ts
  checkSatInterruptible token e sound := (ends_check sound [] token).mono fun _ _ _ _ => trivial
  getUnsatCore e sound := ends_getUnsatCore sound
  push levels e sound :=
    (ends_modify (f := fun e => { e with scopes := e.scopes.push levels.toNat })
      ⟨sound.sorted, sound.model⟩ ⟨fun _ _ h => h, rfl⟩).mono fun _ _ _ _ => trivial
  pop levels e sound := ends_pop sound levels
  resetAssertions e sound :=
    (ends_modify (f := resetAssertions) ⟨sound.sorted, nofun⟩ ⟨fun _ _ h => h, rfl⟩).mono
      fun _ _ _ _ => trivial
  reset e sound := ⟨⟨NodeStore.sorted_empty, nofun⟩, fun _ known => known⟩
  makeSort e sort kind sound := by
    obtain rfl | rfl | rfl := kind
    · exact ends_pure sound rfl
    · exact ends_pure sound rfl
    · exact ends_pure sound rfl
  makeBitVecSort e w sound := ends_pure sound rfl
  makeArraySort e index element i x indexed filled sound := by
    cases indexed
    cases filled
    exact ends_pure sound rfl
  makeFunctionSort e domain range ds r domains ranged sound := by
    cases ranged
    have same : domain = ds := List.forall₂_eq_eq_eq ▸ domains.imp fun _ _ h => h.symm
    subst same
    exact ends_pure sound rfl
  makeUninterpretedSort e name arity sound := ends_pure sound rfl
  makeDatatypeSort e decl sound := ends_pure sound rfl
  makeValue e l sort made same fits sound := by
    cases same
    exact ends_addValue sound fits
  makeConstArray e fill b index made names same sound := by
    cases same
    obtain ⟨node, found, _⟩ := names
    exact ends_makeConstArray sound found
  makeSymbol e name sort made same sound := by
    cases same
    exact ends_makeSymbol sound name sort
  makeTerm e op ns sorts operands sound := by
    refine ends_makeTerm sound op (operands.imp ?_)
    rintro n sort ⟨b, ⟨node, found, _⟩, same⟩
    exact ⟨node, same ▸ found⟩
  getValue e n b a names same sound := by
    obtain ⟨node, found, _⟩ := names
    cases same
    exact ends_getValue sound found
  getArrayValues e n b index element a names sort same sound := by
    obtain ⟨node, found, _⟩ := names
    cases same
    exact ends_getArrayValues sound (sort ▸ found)

end FormulaGraph.Enumerator

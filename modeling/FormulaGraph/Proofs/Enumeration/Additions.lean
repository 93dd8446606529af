import FormulaGraph.Enumeration.Enumerator
import FormulaGraph.Proofs.Action
import FormulaGraph.Proofs.Enumeration.Eval

/-!
What the enumerating engine leaves alone: making terms and reading values adds nodes and nothing
else, and a check changes what is known of a model and a core and nothing else.
-/

namespace FormulaGraph

/-- The node is no constant array, and its literal, if it has one, is a truth value or a
bit-vector. -/
def Node.Plain : Node → Prop
  | .symbol _ | .application _ _ | .value (.bool _) | .value (.bitVec _ _) => True
  | .value _ | .constArray _ => False

namespace Enumerator

open FormulaGraph.Action

variable {α β : Type} {P : Node → LogicSort → Prop} {e e' e'' : Enumerator}
    {act : Action Enumerator α}
  {next : α → Action Enumerator β}

/-- The second state is the first with some more nodes, which are as `P` says. -/
structure Adds (P : Node → LogicSort → Prop) (e e' : Enumerator) : Prop where
  scopes : e'.scopes = e.scopes
  model : e'.model = e.model
  core : e'.core = e.core
  faulty : e'.faulty = e.faulty
  symbols : e'.symbols = e.symbols
  nodes : ∀ t node sort, e'.store.find? t = some (node, sort) →
    e.store.find? t = some (node, sort) ∨ P node sort

theorem Adds.refl (e : Enumerator) : Adds P e e := ⟨rfl, rfl, rfl, rfl, rfl, fun _ _ _ => .inl⟩

theorem Adds.trans (first : Adds P e e') (second : Adds P e' e'') : Adds P e e'' where
  scopes := second.scopes.trans first.scopes
  model := second.model.trans first.model
  core := second.core.trans first.core
  faulty := second.faulty.trans first.faulty
  symbols := second.symbols.trans first.symbols
  nodes t node sort found := by
    cases second.nodes t node sort found with
    | inl found => exact first.nodes t node sort found
    | inr added => exact .inr added

/-- However the action ends, it has only added nodes of this kind. -/
def Builds (P : Node → LogicSort → Prop) (act : Action Enumerator α) : Prop :=
  ∀ e, Leads (Adds P) (fun _ => True) act e fun _ _ => True

theorem Builds.bind (first : Builds P act) (rest : ∀ a, Builds P (next a)) :
    Builds P (act >>= next) :=
  fun e => Leads.bind .trans (first e) fun a e' _ _ => rest a e'

theorem Builds.get {next : Enumerator → Action Enumerator α} (rest : ∀ e, Builds P (next e)) :
    Builds P (get >>= next) :=
  fun e => rest e e

theorem builds_pure (a : α) : Builds P (pure a) := fun e => leads_pure (.refl e) trivial

theorem builds_throw (x : Error) : Builds P (throw x : Action Enumerator α) :=
  fun e => leads_throw (.refl e) trivial

theorem builds_ofExcept (r : Except Error α) : Builds P (Action.ofExcept r) :=
  fun e => leads_ofExcept (.refl e) (fun _ _ => trivial) fun _ _ => trivial

theorem adds_addNode {node : Node} {sort : LogicSort}
    (known : ∀ c ∈ node.operands, c.index < e.store.size) (adds : P node sort) :
    Adds P e (e.addNode node sort known).2 := by
  refine ⟨rfl, rfl, rfl, rfl, rfl, fun t node' sort' found => ?_⟩
  rw [show (e.addNode node sort known).2.store = (e.store.push node sort known).2 from rfl,
    NodeStore.find?_push] at found
  split at found
  · cases found
    exact .inr adds
  · exact .inl found

theorem builds_addValue {l : Literal} {sort : LogicSort} (adds : P (.value l) sort) :
    Builds P (addValue l sort) :=
  fun _ => ⟨adds_addNode (by simp [Node.operands]) adds, trivial⟩

theorem builds_addDatum (sort : LogicSort) (x : Datum) :
    Builds (fun node _ => node.Plain) (addDatum sort x) := by
  cases x with
  | bool | bitVec => exact builds_addValue trivial
  | array => exact builds_throw _

theorem builds_makeConstArray (fill : Handle) (sort : LogicSort) :
    Builds (fun node s => node = .constArray fill ∧ s = sort) (makeConstArray fill sort) := by
  intro e
  by_cases bound : fill.index < e.store.size
  · have known : ∀ c ∈ (Node.constArray fill).operands, c.index < e.store.size := by
      simpa [Node.operands] using bound
    have run : makeConstArray fill sort e = .ok (e.addNode (.constArray fill) sort known).1
        (e.addNode (.constArray fill) sort known).2 := by
      rw [makeConstArray, dif_pos bound]
    exact (leads_ok run).mpr ⟨adds_addNode known ⟨rfl, rfl⟩, trivial⟩
  · have run : makeConstArray fill sort e = .error (.usage (.unknownHandle fill.index)) e := by
      rw [makeConstArray, dif_neg bound]
    exact (leads_error run).mpr ⟨.refl e, trivial⟩

theorem makeSymbol_cases (name : String) (sort : LogicSort) (e : Enumerator) :
    makeSymbol name sort e = .error (.duplicate .symbol name) e ∨
      ∃ n e', Adds (fun node _ => node.Plain) e e' ∧
        makeSymbol name sort e = .ok n { e' with symbols := e'.symbols.insert name n } := by
  by_cases taken : e.symbols.contains name = true
  · exact .inl (by rw [makeSymbol, if_pos taken])
  · have known : ∀ c ∈ (Node.symbol name).operands, c.index < e.store.size := by
      simp [Node.operands]
    refine .inr ⟨(e.addNode (.symbol name) sort known).1, (e.addNode (.symbol name) sort known).2,
      adds_addNode known trivial, ?_⟩
    rw [makeSymbol, if_neg taken]

theorem builds_makeTerm (op : Op) (args : List Handle) :
    Builds (fun node _ => node.Plain) (makeTerm op args) := by
  intro e
  by_cases bound : ∀ a ∈ args, a.index < e.store.size
  · have known : ∀ c ∈ (Node.application op args).operands, c.index < e.store.size := by
      simpa [Node.operands] using bound
    cases result : (args.mapM e.store.find).bind fun found =>
        applicationSort op (found.map Prod.snd) with
    | ok sort =>
      have run : makeTerm op args e = .ok (e.addNode (.application op args) sort known).1
          (e.addNode (.application op args) sort known).2 := by
        rw [makeTerm, dif_pos bound, result]
      exact (leads_ok run).mpr ⟨adds_addNode known trivial, trivial⟩
    | error x =>
      have run : makeTerm op args e = .error x e := by rw [makeTerm, dif_pos bound, result]
      exact (leads_error run).mpr ⟨.refl e, trivial⟩
  · have run : ∃ x, makeTerm op args e = .error x e := ⟨_, by rw [makeTerm, dif_neg bound]⟩
    obtain ⟨x, run⟩ := run
    exact (leads_error run).mpr ⟨.refl e, trivial⟩

theorem builds_lookUp (t : Handle) : Builds P (lookUp t) := .get fun _ => builds_ofExcept _

theorem builds_sortOf (t : Handle) : Builds P (sortOf t) :=
  .bind (builds_lookUp t) fun _ => .get fun _ => builds_pure _

theorem builds_valueInModel (t : Handle) : Builds P (valueInModel t) := by
  refine .get fun e => ?_
  split
  · exact builds_throw _
  · exact .bind (builds_ofExcept _) fun _ => .bind (builds_lookUp t) fun _ => builds_pure _

theorem builds_getValue (t : Handle) : Builds (fun node _ => node.Plain) (getValue t) :=
  .bind (builds_valueInModel t) fun _ => builds_addDatum _ _

theorem builds_addCells (index element : LogicSort) (width : UInt64) (base : Datum) (i : Nat)
    (cells : List Datum) :
    Builds (fun node _ => node.Plain) (addCells index element width base i cells) := by
  induction cells generalizing i with
  | nil => exact builds_pure _
  | cons x xs ih =>
    rw [addCells]
    split
    · exact ih (i + 1)
    · exact .bind (builds_addDatum _ _) fun _ => .bind (builds_addDatum _ _) fun _ =>
        .bind (ih (i + 1)) fun _ => builds_pure _

theorem builds_getArrayValues (t : Handle) :
    Builds (fun node _ => node.Plain) (getArrayValues t) := by
  refine .bind (builds_valueInModel t) fun _ => .bind (builds_ofExcept _) fun _ =>
    .bind (builds_ofExcept _) fun _ => .bind (builds_ofExcept _) fun cells => ?_
  cases cells with
  | nil => exact builds_throw _
  | cons first rest =>
    exact .bind (builds_addDatum _ _) fun _ => .bind (builds_addCells _ _ _ _ _ _) fun _ =>
      .get fun _ => builds_pure _

theorem builds_getUnsatCore : Builds (fun node _ => node.Plain) getUnsatCore := by
  refine .get fun e => ?_
  split
  · exact .bind (builds_addValue trivial) fun _ => builds_pure _
  · exact builds_pure _

theorem builds_setOption (option value : String) : Builds P (setOption option value) :=
  fun _ => ⟨⟨rfl, rfl, rfl, rfl, rfl, fun _ _ _ => .inl⟩, trivial⟩

end Enumerator

end FormulaGraph

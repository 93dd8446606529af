import FormulaGraph.Proofs.Enumeration.Datum

/-!
Well-sorted stores, and that evaluation in them keeps to sorts: the value of a node, if it has one
under well-sorted values of the symbols, is an element of the node's sort.
-/

namespace FormulaGraph

namespace NodeStore

variable {store : NodeStore} {env : Assignment} {t : Handle} {node : Node} {sort : LogicSort}
  {x : Datum}

/-- What the sort of a node has to do with its operands. -/
def Fits (store : NodeStore) : Node → LogicSort → Prop
  | .symbol _, _ => True
  | .value l, sort => l.fits sort = true
  | .constArray fill, sort =>
    ∃ index element node, sort = .array index element ∧ store.find? fill = some (node, element)
  | .application op args, sort =>
    ∃ sorts, List.Forall₂ (fun a s => ∃ node, store.find? a = some (node, s)) args sorts ∧
      op.resultSort sorts = .ok (some sort)

/-- Every node has a sort that fits. -/
def Sorted (store : NodeStore) : Prop :=
  ∀ (t : Handle) (node : Node) (sort : LogicSort), store.find? t = some (node, sort) →
    store.Fits node sort

theorem find?_eq_none_of_le (h : store.size ≤ t.index) : store.find? t = none :=
  Array.getElem?_eq_none h

theorem index_lt_of_find? {entry : Node × LogicSort} (found : store.find? t = some entry) :
    t.index < store.size := by
  by_cases h : t.index < store.size
  · exact h
  · rw [find?_eq_none_of_le (by omega)] at found
    cases found

theorem operand_lt (found : store.find? t = some (node, sort)) {c : Handle}
    (hc : c ∈ node.operands) : c.index < t.index := by
  have bound : t.index < store.nodes.size := index_lt_of_find? found
  have there : store.nodes[t.index] = (node, sort) := by
    rw [find?, Array.getElem?_eq_getElem bound] at found
    exact Option.some.inj found
  apply store.operands_lt t.index bound c
  rwa [there]

/-- The value of a node, from those of its operands. -/
def evalNode (store : NodeStore) (env : Assignment) (t : Handle) (sort : LogicSort) :
    Node → Except Error Datum
  | .symbol _ =>
    match env t with
    | some x => .ok x
    | none => sort.decode 0
  | .value (.bool b) => .ok (.bool b)
  | .value (.bitVec w bits) => .ok (Datum.ofBits w bits)
  | .value other => .error (.unsupported (.literalNotEvaluated other))
  | .constArray fill => do
    let n ← cellCount sort
    return .array (List.replicate n (← store.eval env fill))
  | .application op args => do
    let values ← args.mapM (store.eval env)
    Datum.apply op values sort

theorem eval_of_find? (found : store.find? t = some (node, sort)) :
    store.eval env t = store.evalNode env t sort node := by
  have bound : t.index < store.nodes.size := index_lt_of_find? found
  have there : store.nodes[t.index] = (node, sort) := by
    rw [find?, Array.getElem?_eq_getElem bound] at found
    exact Option.some.inj found
  rw [eval, dif_pos bound]
  split
  all_goals
    rename_i stored
    cases there.symm.trans stored
  · rfl
  · rfl
  · rfl
  · rename_i other notBool notBits
    cases other with
    | bool b => exact absurd rfl (notBool b)
    | bitVec w bits => exact absurd rfl (notBits w bits)
    | int | real | other => rfl
  · rfl
  · rename_i op args
    have each : args.attach.mapM (fun a => store.eval env a.1) = args.mapM (store.eval env) := by
      rw [List.mapM_subtype fun _ _ => rfl, List.unattach_attach]
    show (args.attach.mapM (fun a => store.eval env a.1) >>= _) = _
    rw [each]
    rfl

/-- Values of symbols that are elements of their sorts. -/
def Admits (store : NodeStore) (env : Assignment) : Prop :=
  ∀ (t : Handle) (x : Datum), env t = some x →
    ∃ node sort, store.find? t = some (node, sort) ∧ sort.Holds x

theorem admits_none (store : NodeStore) : store.Admits fun _ => none := by
  intro t x given
  cases given

/-- The value of a node is an element of the sort of the node. -/
theorem holds_eval (sorted : store.Sorted) (admits : store.Admits env)
    (found : store.find? t = some (node, sort)) (value : store.eval env t = .ok x) :
    sort.Holds x := by
  induction h : t.index using Nat.strongRecOn generalizing t node sort x with
  | ind n ih =>
    subst h
    rw [eval_of_find? found] at value
    have fits := sorted t node sort found
    cases node with
    | symbol name =>
      rw [evalNode] at value
      split at value
      · rename_i y given
        cases value
        obtain ⟨node', sort', found', holds⟩ := admits t _ given
        cases found.symm.trans found'
        exact holds
      · exact LogicSort.holds_decode sort value
    | value l =>
      cases l with
      | bool b =>
        cases value
        cases sort with
        | bool => exact LogicSort.holds_bool b
        | _ => cases fits
      | bitVec w bits =>
        cases value
        cases sort with
        | bitVec v =>
          have same : w = v := by simpa [Fits, Literal.fits] using fits
          exact same ▸ LogicSort.holds_ofBits w bits
        | _ => cases fits
      | int | real | other => cases value
    | constArray fill =>
      obtain ⟨index, element, inner, rfl, foundFill⟩ := fits
      obtain ⟨n, count, value⟩ := ok_of_bind value
      obtain ⟨y, filled, value⟩ := ok_of_bind value
      cases value
      obtain ⟨w, rfl, -, rfl⟩ := LogicSort.positions_ok count
      have before := operand_lt found (c := fill) (by simp [Node.operands])
      have holds := ih fill.index before foundFill filled rfl
      refine LogicSort.holds_array List.length_replicate fun z hz => ?_
      rw [List.eq_of_mem_replicate hz]
      exact holds
    | application op args =>
      obtain ⟨sorts, operands, result⟩ := fits
      obtain ⟨values, evaluated, value⟩ := ok_of_bind value
      have before : ∀ a ∈ args, a.index < t.index := fun a ha => operand_lt found ha
      refine Datum.holds_apply ?_ result value
      refine forall₂_join operands (forall₂_of_mapM evaluated) ?_
      rintro a ha s y ⟨inner, foundArg⟩ evaluatedArg
      exact ih a.index (before a ha) foundArg evaluatedArg rfl

theorem plainly_cellCount (sort : LogicSort) : Plainly (cellCount sort) := by
  unfold cellCount
  split
  · exact .ok 1
  · exact LogicSort.plainly_positions _

theorem plainly_eval (store : NodeStore) (env : Assignment) (t : Handle) :
    Plainly (store.eval env t) := by
  induction h : t.index using Nat.strongRecOn generalizing t with
  | ind n ih =>
    subst h
    cases found : store.find? t with
    | none =>
      have outside : ¬ t.index < store.nodes.size :=
        Array.getElem?_eq_none_iff.mp found |> Nat.not_lt.mpr
      rw [eval, dif_neg outside]
      exact .error trivial
    | some entry =>
      obtain ⟨node, sort⟩ := entry
      rw [eval_of_find? found]
      cases node with
      | symbol name =>
        rw [evalNode]
        split
        · exact .ok _
        · exact LogicSort.plainly_decode sort 0
      | value l =>
        cases l with
        | bool | bitVec => exact .ok _
        | int | real | other => exact .error trivial
      | constArray fill =>
        have before := operand_lt found (c := fill) (by simp [Node.operands])
        exact .bind (plainly_cellCount sort) fun _ => .bind (ih fill.index before fill rfl)
          fun _ => .pure _
      | application op args =>
        refine .bind (.mapM fun a ha => ?_) fun _ => Datum.plainly_apply op _ sort
        exact ih a.index (operand_lt found ha) a rfl

/-- The nodes of the first store are nodes of the second. -/
def Extends (store store' : NodeStore) : Prop :=
  ∀ (t : Handle) (entry : Node × LogicSort), store.find? t = some entry →
    store'.find? t = some entry

theorem find?_push (store : NodeStore) (node : Node) (sort : LogicSort)
    (known : ∀ c ∈ node.operands, c.index < store.size) (t : Handle) :
    (store.push node sort known).2.find? t =
      if t.index = store.size then some (node, sort) else store.find? t := by
  obtain ⟨nodes, operands⟩ := store
  exact Array.getElem?_push

theorem index_push (store : NodeStore) (node : Node) (sort : LogicSort)
    (known : ∀ c ∈ node.operands, c.index < store.size) :
    (store.push node sort known).1.index = store.size := by
  obtain ⟨nodes, operands⟩ := store
  rfl

theorem extends_push (store : NodeStore) (node : Node) (sort : LogicSort)
    (known : ∀ c ∈ node.operands, c.index < store.size) :
    Extends store (store.push node sort known).2 := by
  intro t entry found
  have bound := index_lt_of_find? found
  rw [find?_push, if_neg (by omega)]
  exact found

theorem Fits.extend {store' : NodeStore} (fits : store.Fits node sort)
    (extension : Extends store store') : store'.Fits node sort := by
  cases node with
  | symbol name => trivial
  | value l => exact fits
  | constArray fill =>
    obtain ⟨index, element, inner, same, found⟩ := fits
    exact ⟨index, element, inner, same, extension _ _ found⟩
  | application op args =>
    obtain ⟨sorts, operands, result⟩ := fits
    refine ⟨sorts, operands.imp ?_, result⟩
    rintro a s ⟨inner, found⟩
    exact ⟨inner, extension _ _ found⟩

theorem sorted_empty : empty.Sorted := fun _ _ _ found => absurd found nofun

theorem Sorted.push (sorted : store.Sorted) (known : ∀ c ∈ node.operands, c.index < store.size)
    (fits : store.Fits node sort) : (store.push node sort known).2.Sorted := by
  intro t node' sort' found
  have extension := extends_push store node sort known
  rw [find?_push] at found
  split at found
  · cases found
    exact fits.extend extension
  · exact (sorted t node' sort' found).extend extension

theorem Admits.extend {store' : NodeStore} (admits : store.Admits env)
    (extension : Extends store store') : store'.Admits env := by
  intro t x given
  obtain ⟨node, sort, found, holds⟩ := admits t x given
  exact ⟨node, sort, extension _ _ found, holds⟩

end NodeStore

end FormulaGraph

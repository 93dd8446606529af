import FormulaGraph.Proofs.Enumeration.Eval

/-!
The symbols that a node depends on. The value of a node is determined by those of the symbols below
it, and a sweep from the end of the store finds just the symbols below the marked nodes.
-/

namespace FormulaGraph.NodeStore

variable {store : NodeStore} {env env' : Assignment} {t u c : Handle} {node : Node}
  {sort : LogicSort} {name : String}

/-- The node `u` goes into the node `t`, or is that node. -/
inductive Below (store : NodeStore) (u : Handle) : Handle → Prop
  | here : Below store u u
  | operand {t c : Handle} {node : Node} {sort : LogicSort}
      (found : store.find? t = some (node, sort)) (hc : c ∈ node.operands)
      (below : Below store u c) : Below store u t

def IsSymbol (store : NodeStore) (u : Handle) : Prop :=
  ∃ name sort, store.find? u = some (.symbol name, sort)

/-- The symbols below the node have the same values under both assignments. -/
def Agree (store : NodeStore) (env env' : Assignment) (t : Handle) : Prop :=
  ∀ u : Handle, store.Below u t → store.IsSymbol u → store.eval env u = store.eval env' u

theorem Agree.operand (agree : store.Agree env env' t) (found : store.find? t = some (node, sort))
    (hc : c ∈ node.operands) : store.Agree env env' c :=
  fun u below symbol => agree u (.operand found hc below) symbol

/-- The value of a node is determined by the values of the symbols below it. -/
theorem eval_congr (agree : store.Agree env env' t) : store.eval env t = store.eval env' t := by
  induction h : t.index using Nat.strongRecOn generalizing t with
  | ind n ih =>
    subst h
    cases found : store.find? t with
    | none =>
      have outside : ¬ t.index < store.nodes.size := fun bound => by
        rw [find?, Array.getElem?_eq_getElem bound] at found
        cases found
      rw [eval, dif_neg outside, eval, dif_neg outside]
    | some entry =>
      obtain ⟨node, sort⟩ := entry
      have operands : ∀ c ∈ node.operands, store.eval env c = store.eval env' c := fun c hc =>
        ih c.index (operand_lt found hc) (agree.operand found hc) rfl
      cases node with
      | symbol name => exact agree t .here ⟨name, sort, found⟩
      | value l =>
        rw [eval_of_find? found, eval_of_find? found]
        cases l <;> rfl
      | constArray fill =>
        rw [eval_of_find? found, eval_of_find? found, evalNode, evalNode,
          operands fill List.mem_cons_self]
      | application op args =>
        have values :
          args.mapM (store.eval env) = args.mapM (store.eval env') := mapM_congr operands
        rw [eval_of_find? found, eval_of_find? found, evalNode, evalNode, values]

theorem find?_operand (found : store.find? t = some (node, sort)) (hc : c ∈ node.operands) :
    ∃ node sort, store.find? c = some (node, sort) := by
  have bound := Nat.lt_trans (operand_lt found hc) (index_lt_of_find? found)
  exact ⟨_, _, Array.getElem?_eq_getElem bound⟩

theorem eval_extends {store' : NodeStore} (extension : Extends store store')
    (found : store.find? t = some (node, sort)) : store'.eval env t = store.eval env t := by
  induction h : t.index using Nat.strongRecOn generalizing t node sort with
  | ind n ih =>
    subst h
    have operands : ∀ c ∈ node.operands, store'.eval env c = store.eval env c := by
      intro c hc
      obtain ⟨inner, s, found'⟩ := find?_operand found hc
      exact ih c.index (operand_lt found hc) found' rfl
    rw [eval_of_find? found, eval_of_find? (extension _ _ found)]
    cases node with
    | symbol name => rfl
    | value l => cases l <;> rfl
    | constArray fill => rw [evalNode, evalNode, operands fill List.mem_cons_self]
    | application op args =>
      have values : args.mapM (store'.eval env) = args.mapM (store.eval env) := mapM_congr operands
      rw [evalNode, evalNode, values]

theorem below_iff (found : store.find? t = some (node, sort)) :
    store.Below u t ↔ u = t ∨ ∃ c ∈ node.operands, store.Below u c := by
  constructor
  · intro below
    cases below with
    | here => exact .inl rfl
    | operand found' hc below =>
      cases found.symm.trans found'
      exact .inr ⟨_, hc, below⟩
  · rintro (rfl | ⟨c, hc, below⟩)
    · exact .here
    · exact .operand found hc below

theorem eq_of_below (outside : store.find? t = none) (below : store.Below u t) : u = t := by
  cases below with
  | here => rfl
  | operand found => cases outside.symm.trans found

section Sweep

/-- The node lies below a marked node at a position below `n`. -/
def Reached (store : NodeStore) (n : Nat) (marked : Std.HashSet Handle) (u : Handle) : Prop :=
  ∃ t ∈ marked, t.index < n ∧ store.Below u t

variable {marked : Std.HashSet Handle} {found : List Handle} {n : Nat}

theorem sweep_unmarked (h : marked.contains ⟨n⟩ = false) :
    store.sweep (n + 1) marked found = store.sweep n marked found := by
  rw [sweep, h, if_neg Bool.false_ne_true]

theorem sweep_absent (absent : store.find? ⟨n⟩ = none) :
    store.sweep (n + 1) marked found = store.sweep n marked found := by
  rw [sweep, absent]
  split <;> rfl

theorem sweep_symbol (h : marked.contains ⟨n⟩ = true)
    (symbol : store.find? ⟨n⟩ = some (.symbol name, sort)) :
    store.sweep (n + 1) marked found = store.sweep n marked (⟨n⟩ :: found) := by
  rw [sweep, if_pos h, symbol]

theorem sweep_node (h : marked.contains ⟨n⟩ = true) (entry : store.find? ⟨n⟩ = some (node, sort))
    (other : ∀ name, node ≠ .symbol name) :
    store.sweep (n + 1) marked found =
      store.sweep n (marked.insertMany node.operands) found := by
  rw [sweep, if_pos h, entry]
  cases node with
  | symbol name => exact absurd rfl (other name)
  | value | constArray | application => rfl

theorem reached_succ : store.Reached (n + 1) marked u ↔
    ⟨n⟩ ∈ marked ∧ store.Below u ⟨n⟩ ∨ store.Reached n marked u := by
  constructor
  · rintro ⟨⟨i⟩, ht, bound, below⟩
    obtain rfl | smaller := Nat.lt_succ_iff_lt_or_eq.mp bound |>.symm
    · exact .inl ⟨ht, below⟩
    · exact .inr ⟨⟨i⟩, ht, smaller, below⟩
  · rintro (⟨ht, below⟩ | ⟨t, ht, bound, below⟩)
    · exact ⟨⟨n⟩, ht, Nat.lt_succ_self n, below⟩
    · exact ⟨t, ht, Nat.lt_succ_of_lt bound, below⟩

theorem reached_insertMany {cs : List Handle} (bounded : ∀ c ∈ cs, c.index < n) :
    store.Reached n (marked.insertMany cs) u ↔
      (∃ c ∈ cs, store.Below u c) ∨ store.Reached n marked u := by
  simp only [Reached, Std.HashSet.mem_insertMany_list]
  constructor
  · rintro ⟨t, ht | ht, bound, below⟩
    · exact .inr ⟨t, ht, bound, below⟩
    · exact .inl ⟨t, by simpa using ht, below⟩
  · rintro (⟨c, hc, below⟩ | ⟨t, ht, bound, below⟩)
    · exact ⟨c, .inr (by simpa using hc), bounded c hc, below⟩
    · exact ⟨t, .inl ht, bound, below⟩

theorem mem_sweep_node
    (ih : ∀ {marked : Std.HashSet Handle} {found : List Handle}, u ∈ store.sweep n marked found ↔
      u ∈ found ∨ store.Reached n marked u ∧ store.IsSymbol u)
    (marks : ⟨n⟩ ∈ marked) (entry : store.find? ⟨n⟩ = some (node, sort))
    (other : ∀ name, node ≠ .symbol name) :
    u ∈ store.sweep (n + 1) marked found ↔
      u ∈ found ∨ (⟨n⟩ ∈ marked ∧ store.Below u ⟨n⟩ ∨ store.Reached n marked u) ∧
        store.IsSymbol u := by
  have symbol : store.IsSymbol u → u ≠ ⟨n⟩ := by
    rintro ⟨name, sort, symbol⟩ rfl
    rw [entry] at symbol
    cases symbol
    exact other name rfl
  have bounded : ∀ c ∈ node.operands, c.index < n := fun c hc => operand_lt entry hc
  rw [sweep_node (Std.HashSet.contains_iff_mem.mpr marks) entry other, ih,
    reached_insertMany bounded, below_iff entry]
  generalize (∃ c ∈ node.operands, store.Below u c) = within
  tauto

/-- A sweep finds the symbols below the marked nodes, and nothing else. -/
theorem mem_sweep : u ∈ store.sweep n marked found ↔
    u ∈ found ∨ store.Reached n marked u ∧ store.IsSymbol u := by
  induction n generalizing marked found with
  | zero => simp [sweep, Reached]
  | succ n ih =>
    rw [reached_succ]
    cases h : marked.contains ⟨n⟩ with
    | false =>
      rw [sweep_unmarked h, ih]
      simp [← Std.HashSet.contains_iff_mem, h]
    | true =>
      have marks := Std.HashSet.contains_iff_mem.mp h
      match entry : store.find? ⟨n⟩ with
      | none =>
        rw [sweep_absent entry, ih]
        have other : store.IsSymbol u → ¬ store.Below u ⟨n⟩ := by
          rintro ⟨name, sort, symbol⟩ below
          rw [eq_of_below entry below, entry] at symbol
          cases symbol
        tauto
      | some (.symbol name, sort) =>
        have itself : store.Below u ⟨n⟩ ↔ u = ⟨n⟩ := by simp [below_iff entry, Node.operands]
        have symbol : u = ⟨n⟩ → store.IsSymbol u := fun same => ⟨name, sort, same ▸ entry⟩
        rw [sweep_symbol h entry, ih, List.mem_cons, itself]
        tauto
      | some (.value l, sort) => exact mem_sweep_node ih marks entry (fun _ => nofun)
      | some (.constArray fill, sort) => exact mem_sweep_node ih marks entry (fun _ => nofun)
      | some (.application op args, sort) => exact mem_sweep_node ih marks entry (fun _ => nofun)

/-- The sweep goes through the store from its end, so it finds symbols in order. -/
theorem pairwise_sweep (ordered : found.Pairwise fun a b => a.index < b.index)
    (above : ∀ a ∈ found, n ≤ a.index) :
    (store.sweep n marked found).Pairwise fun a b => a.index < b.index := by
  induction n generalizing marked found with
  | zero => exact ordered
  | succ n ih =>
    have above' : ∀ a ∈ found, n ≤ a.index := fun a ha => Nat.le_of_succ_le (above a ha)
    rw [sweep]
    split
    · split
      · refine ih (.cons (fun a ha => above a ha) ordered) fun a ha => ?_
        cases List.mem_cons.mp ha with
        | inl same => exact Nat.le_of_eq (congrArg Handle.index same).symm
        | inr ha => exact above' a ha
      · exact ih ordered above'
      · exact ih ordered above'
    · exact ih ordered above'

end Sweep

/-- What is found for some roots are the symbols below them, each once. -/
theorem symbolsOf_ok {roots ts : List Handle} (h : store.symbolsOf roots = .ok ts) :
    (∀ u, u ∈ ts ↔ (∃ t ∈ roots, store.Below u t) ∧ store.IsSymbol u) ∧
    ts.Pairwise fun a b => a.index < b.index := by
  unfold symbolsOf at h
  split at h
  · cases h
  · rename_i known
    have bounded : ∀ t ∈ roots, t.index < store.size := fun t ht => by
      have within := List.find?_eq_none.mp known t (List.mem_reverse.mpr ht)
      simpa using within
    cases h
    refine ⟨fun u => ?_, pairwise_sweep .nil fun a ha => absurd ha List.not_mem_nil⟩
    rw [mem_sweep]
    have reached : store.Reached store.size (Std.HashSet.ofList roots) u ↔
        ∃ t ∈ roots, store.Below u t := by
      constructor
      · rintro ⟨t, ht, -, below⟩
        exact ⟨t, by simpa using ht, below⟩
      · rintro ⟨t, ht, below⟩
        exact ⟨t, by simpa using ht, bounded t ht, below⟩
    simp [reached]

theorem nodup_symbolsOf {roots ts : List Handle} (h : store.symbolsOf roots = .ok ts) : ts.Nodup :=
  (symbolsOf_ok h).2.imp fun less same => Nat.ne_of_lt less (congrArg Handle.index same)

end FormulaGraph.NodeStore

import FormulaGraph.Proofs.Enumeration.Search
import FormulaGraph.Proofs.Enumeration.Symbols
import Mathlib.Algebra.BigOperators.Group.Finset.Basic
import Mathlib.Data.List.Nodup

/-!
The symbols of a query by a walk over its nodes: nodes wait on a stack, a node is marked when it is
visited, and at the end the symbols that were met are sorted. The walk ends after as many rounds as
there are roots and operands, and it finds what the sweep finds.
-/

namespace FormulaGraph

def Node.isSymbol : Node → Bool
  | symbol _ => true
  | _ => false

/-- A walk on its way: which nodes were visited, the symbols among them, and the nodes that wait,
the next one first. -/
structure Collecting where
  visited : Array Bool
  found : List Handle
  waiting : List Handle

/-- The mark of the node is set. -/
def Collecting.Visited (c : Collecting) (t : Handle) : Prop := c.visited[t.index]? = some true

instance (c : Collecting) (t : Handle) : Decidable (c.Visited t) :=
    inferInstanceAs (Decidable (_ = _))

namespace NodeStore

/-- Nothing was visited, and the roots wait, the last one to be next. -/
def toCollect (store : NodeStore) (roots : List Handle) : Collecting :=
  ⟨Array.replicate store.size false, [], roots.reverse⟩

/-- A visit to a node. Where one was before, there is nothing to do; otherwise a symbol is taken
down, and operands wait, the last one to be next. -/
def visit (store : NodeStore) (c : Collecting) (t : Handle) : Except Error Collecting := do
  let (node, _) ← store.find t
  if c.Visited t then return c
  return ⟨c.visited.setIfInBounds t.index true, if node.isSymbol then c.found ++ [t] else c.found,
    node.operands.reverse ++ c.waiting⟩

/-- The walk, for at most so many rounds. -/
def collectWithin (store : NodeStore) : Nat → Collecting → Option (Except Error (List Handle))
  | 0, _ => none
  | _ + 1, ⟨_, found, []⟩ => some (.ok (found.mergeSort fun a b => a.index ≤ b.index))
  | rounds + 1, ⟨visited, found, t :: waiting⟩ =>
    match store.visit ⟨visited, found, waiting⟩ t with
    | .ok c => store.collectWithin rounds c
    | .error e => some (.error e)

variable {store : NodeStore} {roots : List Handle} {c c' : Collecting} {t u : Handle} {rounds : Nat}

/-- A walk that has come this far from these roots. -/
structure Collects (store : NodeStore) (roots : List Handle) (c : Collecting) : Prop where
  sized : c.visited.size = store.size
  below : ∀ u : Handle, c.Visited u ∨ u ∈ c.waiting → ∃ r ∈ roots, store.Below u r
  rooted : ∀ r ∈ roots, c.Visited r ∨ r ∈ c.waiting
  closed : ∀ t node sort, c.Visited t → store.find? t = some (node, sort) →
    ∀ u ∈ node.operands, c.Visited u ∨ u ∈ c.waiting
  listed : ∀ u, u ∈ c.found ↔ c.Visited u ∧ store.IsSymbol u
  single : c.found.Nodup
  /-- The first of the unknown nodes that wait is the last one among the roots: operands are
  known. -/
  unknown : (c.waiting.find? fun t => store.size ≤ t.index) = roots.reverse.find? fun t =>
    store.size ≤ t.index

theorem Below.trans {a b : Handle} (lower : store.Below a b) (upper : store.Below b t) :
    store.Below a t := by
  induction upper with
  | here => exact lower
  | operand found hc _ ih => exact .operand found hc ih

theorem collects_toCollect (store : NodeStore) (roots : List Handle) :
    store.Collects roots (store.toCollect roots) := by
  have unvisited : ∀ u, ¬ (store.toCollect roots).Visited u := fun u visited => by
    simp [Collecting.Visited, toCollect, Array.getElem?_replicate] at visited
  refine ⟨Array.size_replicate, fun u hu => ?_, fun r hr =>
    .inr (List.mem_reverse.mpr hr), ?_, fun u => ?_, .nil, rfl⟩
  · exact ⟨u, List.mem_reverse.mp (hu.resolve_left (unvisited u)), .here⟩
  · exact fun t _ _ visited => absurd visited (unvisited t)
  · exact iff_of_false List.not_mem_nil fun visited => unvisited u visited.1

theorem isSymbol_iff {node : Node} {sort : LogicSort} (found : store.find? t = some (node, sort)) :
    store.IsSymbol t ↔ node.isSymbol = true := by
  rw [IsSymbol, found]
  cases node <;> simp [Node.isSymbol]

theorem visit_eq {node : Node} {sort : LogicSort} (found : store.find? t = some (node, sort)) :
    store.visit c t = .ok (if c.Visited t then c else
      ⟨c.visited.setIfInBounds t.index true, if node.isSymbol then c.found ++ [t] else c.found,
        node.operands.reverse ++ c.waiting⟩) := by
  rw [visit, find, found]
  show (if _ then _ else _) = _
  split <;> rfl

theorem visited_mark_iff {found waiting : List Handle} (bound : t.index < c.visited.size) :
    Collecting.Visited ⟨c.visited.setIfInBounds t.index true, found, waiting⟩ u ↔
      u = t ∨ c.Visited u := by
  rw [Collecting.Visited, Array.getElem?_setIfInBounds]
  by_cases same : t.index = u.index
  · have same' : u = t := congrArg Handle.mk same.symm
    simp [same', bound]
  · have other : u ≠ t := fun h => same (congrArg Handle.index h).symm
    rw [if_neg same]
    simp [other, Collecting.Visited]

theorem mem_taken_down_iff {node : Node} {found : List Handle} :
    u ∈ (if node.isSymbol then found ++ [t] else found) ↔ u ∈ found ∨ u = t ∧
      node.isSymbol = true := by
  split <;> simp_all

theorem find?_operands {node : Node} {sort : LogicSort}
    (entry : store.find? t = some (node, sort)) :
    node.operands.reverse.find? (fun t => store.size ≤ t.index) = none := by
  refine List.find?_eq_none.mpr fun u hu => ?_
  have smaller := (operand_lt entry (List.mem_reverse.mp hu)).trans (index_lt_of_find? entry)
  simpa using smaller

namespace Collects

variable {visited : Array Bool} {found waiting : List Handle} {node : Node} {sort : LogicSort}

theorem skip (collects : store.Collects roots ⟨visited, found, t :: waiting⟩)
    (entry : store.find? t = some (node, sort))
    (before : Collecting.Visited ⟨visited, found, waiting⟩ t) :
    store.Collects roots ⟨visited, found, waiting⟩ := by
  obtain ⟨sized, below, rooted, closed, listed, single, unknown⟩ := collects
  have drop : ∀ u, Collecting.Visited ⟨visited, found, waiting⟩ u ∨ u ∈ t :: waiting →
      Collecting.Visited ⟨visited, found, waiting⟩ u ∨ u ∈ waiting := by
    rintro u (there | waits)
    · exact .inl there
    · obtain rfl | waits := List.mem_cons.mp waits
      · exact .inl before
      · exact .inr waits
  refine ⟨sized, fun u hu => below u (hu.imp_right (List.mem_cons_of_mem t)), fun r hr =>
    drop r (rooted r hr),
    fun a node sort there entry u hu =>
      drop u (closed a node sort there entry u hu), listed, single, ?_⟩
  have known : ¬ store.size ≤ t.index := Nat.not_le.mpr (index_lt_of_find? entry)
  rwa [List.find?_cons_of_neg (by simpa using known)] at unknown

theorem mark (collects : store.Collects roots ⟨visited, found, t :: waiting⟩)
    (entry : store.find? t = some (node, sort))
    (fresh : ¬ Collecting.Visited ⟨visited, found, waiting⟩ t) :
    store.Collects roots
      ⟨visited.setIfInBounds t.index true, if node.isSymbol then found ++ [t] else found,
      node.operands.reverse ++ waiting⟩ := by
  obtain ⟨sized, below, rooted, closed, listed, single, unknown⟩ := collects
  have bound := index_lt_of_find? entry
  have marked {found' waiting'} (u : Handle) :
      Collecting.Visited ⟨visited.setIfInBounds t.index true, found', waiting'⟩ u ↔
        u = t ∨ Collecting.Visited ⟨visited, found, waiting⟩ u := visited_mark_iff (sized ▸ bound)
  have keep : ∀ u, Collecting.Visited ⟨visited, found, waiting⟩ u ∨ u ∈ t :: waiting →
      (u = t ∨ Collecting.Visited ⟨visited, found, waiting⟩ u) ∨
        u ∈ node.operands.reverse ++ waiting := by
    rintro u (there | waits)
    · exact .inl (.inr there)
    · obtain rfl | waits := List.mem_cons.mp waits
      · exact .inl (.inl rfl)
      · exact .inr (List.mem_append_right _ waits)
  have unlisted : t ∉ found := fun ht => fresh ((listed t).mp ht).1
  refine ⟨by rwa [Array.size_setIfInBounds], fun u hu => ?_, fun r hr =>
    ?_, fun a node' sort' there entry' u hu => ?_, fun u => ?_, ?_, ?_⟩
  · rw [marked] at hu
    obtain (rfl | there) | waits := hu
    · exact below u (.inr List.mem_cons_self)
    · exact below u (.inl there)
    · obtain operand | waits := List.mem_append.mp waits
      · obtain ⟨r, hr, above⟩ := below t (.inr List.mem_cons_self)
        exact ⟨r, hr, .trans (.operand entry (List.mem_reverse.mp operand) .here) above⟩
      · exact below u (.inr (List.mem_cons_of_mem t waits))
  · rw [marked]
    exact keep r (rooted r hr)
  · rw [marked] at there ⊢
    obtain rfl | there := there
    · cases entry.symm.trans entry'
      exact .inr (List.mem_append_left _ (List.mem_reverse.mpr hu))
    · exact keep u (closed a node' sort' there entry' u hu)
  · rw [marked, mem_taken_down_iff, listed, ← isSymbol_iff entry]
    constructor
    · rintro (⟨there, symbol⟩ | ⟨rfl, symbol⟩)
      · exact ⟨.inr there, symbol⟩
      · exact ⟨.inl rfl, symbol⟩
    · rintro ⟨rfl | there, symbol⟩
      · exact .inr ⟨rfl, symbol⟩
      · exact .inl ⟨there, symbol⟩
  · split
    · refine List.nodup_append.mpr ⟨single, List.nodup_singleton t, fun u hu v hv same => ?_⟩
      exact unlisted (List.mem_singleton.mp hv ▸ same ▸ hu)
    · exact single
  · have known : ¬ store.size ≤ t.index := Nat.not_le.mpr bound
    rw [List.find?_cons_of_neg (by simpa using known)] at unknown
    rw [List.find?_append, find?_operands entry]
    exact unknown

theorem visit (collects : store.Collects roots ⟨visited, found, t :: waiting⟩)
    (entry : store.find? t = some (node, sort)) :
    ∃ c, store.visit ⟨visited, found, waiting⟩ t = .ok c ∧ store.Collects roots c := by
  rw [visit_eq entry]
  refine ⟨_, rfl, ?_⟩
  split
  · exact collects.skip entry ‹_›
  · exact collects.mark entry ‹_›

/-- When nothing waits any more, the nodes below the roots were visited, and no others. -/
theorem visited_iff (collects : store.Collects roots ⟨visited, found, []⟩) :
    Collecting.Visited ⟨visited, found, []⟩ u ↔ ∃ r ∈ roots, store.Below u r := by
  have closed : ∀ r, Collecting.Visited ⟨visited, found, []⟩ r → store.Below u r →
      Collecting.Visited ⟨visited, found, []⟩ u := by
    intro r there below
    induction below with
    | here => exact there
    | operand entry hc _ ih =>
      exact ih ((collects.closed _ _ _ there entry _ hc).resolve_right List.not_mem_nil)
  constructor
  · exact fun there => collects.below u (.inl there)
  · rintro ⟨r, hr, below⟩
    exact closed r ((collects.rooted r hr).resolve_right List.not_mem_nil) below

/-- The symbols that were met are, in their order, those that the sweep finds. -/
theorem sorted_eq (collects : store.Collects roots ⟨visited, found, []⟩) :
    .ok (found.mergeSort fun a b => a.index ≤ b.index) = store.symbolsOf roots := by
  obtain ⟨us, listed⟩ : ∃ us, store.symbolsOf roots = .ok us :=
    ⟨_, by rw [symbolsOf, ← collects.unknown, List.find?_nil]⟩
  obtain ⟨below, ordered⟩ := symbolsOf_ok listed
  rw [listed]
  congr 1
  have same : (found.mergeSort fun a b => a.index ≤ b.index).Perm us := by
    have alike : found.Perm us ↔ ∀ u, u ∈ found ↔ u ∈ us :=
      List.perm_ext_iff_of_nodup collects.single (nodup_symbolsOf listed)
    refine (List.mergeSort_perm _ _).trans (alike.mpr fun u => ?_)
    rw [collects.listed, collects.visited_iff, below]
  have sorted : (found.mergeSort fun a b => a.index ≤ b.index).Pairwise fun a b =>
      decide (a.index ≤ b.index) = true :=
    List.pairwise_mergeSort (fun a b c => by simpa using Nat.le_trans)
      (fun a b => by simpa using Nat.le_total a.index b.index) found
  refine same.eq_of_pairwise (fun a b _ _ le ge => ?_) sorted
    (ordered.imp fun less => by simpa using less.le)
  exact congrArg Handle.mk (Nat.le_antisymm (by simpa using le) (by simpa using ge))

end Collects

section Rounds

/-- How many operands the node has. -/
def degree (store : NodeStore) (t : Handle) :
    Nat := ((store.find? t).map fun entry => entry.1.operands.length).getD 0

/-- How many operands the nodes have that were not visited. -/
def unvisited (store : NodeStore) (visited : Array Bool) : Nat :=
  ∑ i ∈ Finset.range store.size, if visited[i]? = some true then 0 else store.degree ⟨i⟩

/-- How many nodes can still come to be next. -/
def pending (store : NodeStore) (c : Collecting) :
    Nat := c.waiting.length + store.unvisited c.visited

/-- How many operands all nodes of the store have. -/
def operandCount (store : NodeStore) : Nat := ∑ i ∈ Finset.range store.size, store.degree ⟨i⟩

theorem pending_toCollect (store : NodeStore) (roots : List Handle) :
    store.pending (store.toCollect roots) = roots.length + store.operandCount := by
  simp [pending, unvisited, operandCount, toCollect, Array.getElem?_replicate]

theorem unvisited_mark {visited : Array Bool} (bound : t.index < store.size)
    (sized : visited.size = store.size) (fresh : ¬ visited[t.index]? = some true) :
    store.unvisited (visited.setIfInBounds t.index true) + store.degree t =
      store.unvisited visited := by
  have member : t.index ∈ Finset.range store.size := Finset.mem_range.mpr bound
  have itself : (visited.setIfInBounds t.index true)[t.index]? = some true := by simp [sized, bound]
  have others : ∀ i ∈ (Finset.range store.size).erase t.index,
      (if (visited.setIfInBounds t.index true)[i]? = some true then 0 else store.degree ⟨i⟩) =
        if visited[i]? = some true then 0 else store.degree ⟨i⟩ := fun i hi => by
    rw [Array.getElem?_setIfInBounds_ne (Finset.ne_of_mem_erase hi).symm]
  rw [unvisited, unvisited, ← Finset.add_sum_erase _ _ member, ← Finset.add_sum_erase _ _ member,
    Finset.sum_congr rfl others, if_pos itself, if_neg fresh, Nat.zero_add, Nat.add_comm]

/-- A round takes one node from those that can still come to be next. -/
theorem pending_visit {visited : Array Bool} {found waiting : List Handle}
    (collects : store.Collects roots ⟨visited, found, t :: waiting⟩)
    (done : store.visit ⟨visited, found, waiting⟩ t = .ok c) :
    store.pending c + 1 = store.pending ⟨visited, found, t :: waiting⟩ := by
  obtain ⟨⟨node, sort⟩, entry, -⟩ := ok_of_bind done
  have entry := find_ok entry
  rw [visit_eq entry] at done
  cases done
  split
  · simp only [pending, List.length_cons]
    omega
  · rename_i fresh
    have sized : visited.size = store.size := collects.sized
    have marks := unvisited_mark (index_lt_of_find? entry) sized fresh
    have operands : store.degree t = node.operands.length := by rw [degree, entry]; rfl
    simp only [pending, List.length_append, List.length_reverse, List.length_cons]
    omega

theorem symbolsOf_of_unknown
    (unknown : (roots.reverse.find? fun t => store.size ≤ t.index) = some t) :
    store.symbolsOf roots = .error (.usage (.unknownHandle t.index)) := by
  rw [symbolsOf, unknown]

/-- The walk comes to an end, and it finds what the sweep finds, or fails where it fails. -/
theorem collectWithin_eq (collects : store.Collects roots c) (enough : store.pending c < rounds) :
    store.collectWithin rounds c = some (store.symbolsOf roots) := by
  induction rounds generalizing c with
  | zero => exact absurd enough (Nat.not_lt_zero _)
  | succ rounds ih =>
    obtain ⟨visited, found, waiting⟩ := c
    cases waiting with
    | nil => rw [collectWithin, collects.sorted_eq]
    | cons t waiting =>
      rw [collectWithin]
      cases entry : store.find? t with
      | none =>
        have outside : store.size ≤ t.index := Array.getElem?_eq_none_iff.mp entry
        have first : roots.reverse.find? (fun t => store.size ≤ t.index) = some t := by
          rw [← collects.unknown, List.find?_cons_of_pos (by simpa using outside)]
        rw [symbolsOf_of_unknown first, visit, find, entry]
        rfl
      | some entry' =>
        obtain ⟨c, done, collects'⟩ := collects.visit entry
        have fewer := pending_visit collects done
        rw [done]
        exact ih collects' (by omega)

theorem collectWithin_eq_symbolsOf (store : NodeStore) (roots : List Handle) {rounds : Nat}
    (enough : roots.length + store.operandCount < rounds) :
    store.collectWithin rounds (store.toCollect roots) = some (store.symbolsOf roots) :=
  collectWithin_eq (store.collects_toCollect roots) (by rwa [pending_toCollect])

end Rounds

end NodeStore

end FormulaGraph

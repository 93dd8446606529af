import FormulaGraph.Proofs.Enumeration.Totality
import FormulaGraph.Proofs.Solver.Assertions
import Mathlib.Algebra.Order.BigOperators.Group.List
import Mathlib.Algebra.Order.Group.Nat
import Mathlib.Data.List.Nodup
import Mathlib.Data.List.Perm.Subperm

/-!
What is within reach of enumeration: formulas made of operators, sorts and literals that the
enumerating engine can evaluate, whose symbols take few enough bits. A search for a model of such
formulas comes to an end.
-/

namespace FormulaGraph

/-- The engine can count the values of the sort, and an array of the sort takes no more bits than a
search may. -/
def LogicSort.IsEnumerable (sort : LogicSort) : Prop :=
  ∃ bits, sort.searchBits = .ok bits ∧ (sort.isArray = true → bits ≤ Search.maxBits)

theorem LogicSort.isEnumerable_bool : LogicSort.bool.IsEnumerable := ⟨1, rfl, nofun⟩

theorem LogicSort.isEnumerable_bitVec (w : UInt64) : (LogicSort.bitVec w).IsEnumerable :=
  ⟨w.toNat, rfl, nofun⟩

/-- The engine can evaluate the node: it can enumerate the sort, it knows the operator, which does
not have to shift a word by its width or more, and a literal has a portable form. -/
structure Term.Evaluable (a : Term) : Prop where
  sort : a.sort.IsEnumerable
  operator : a.kind = .application →
    a.op.prim.isEvaluated = true ∧ a.op.shiftsFit (a.children.map Term.sort) = true
  literal : ∀ text, a.kind ≠ .value (.other text)

theorem Term.evaluable_symbol {a : Term} {name : String} (sort : a.sort.IsEnumerable)
    (kind : a.kind = .symbol name) : a.Evaluable :=
  ⟨sort, fun application => (nomatch kind.symm.trans application), fun _ value =>
    nomatch kind.symm.trans value⟩

theorem Term.evaluable_value {a : Term} {l : Literal} (sort : a.sort.IsEnumerable)
    (kind : a.kind = .value l) (portable : ∀ text, l ≠ .other text) : a.Evaluable :=
  ⟨sort, fun application => (nomatch kind.symm.trans application), fun text value =>
    portable text (TermKind.value.inj (kind.symm.trans value))⟩

theorem Term.evaluable_application {a : Term} (sort : a.sort.IsEnumerable)
    (kind : a.kind = .application) (known : a.op.prim.isEvaluated = true)
    (fits : a.op.shiftsFit (a.children.map Term.sort) = true) : a.Evaluable :=
  ⟨sort, fun _ => ⟨known, fits⟩, fun _ value => nomatch kind.symm.trans value⟩

theorem Term.Evaluable.of_shape {a b : Term} (evaluable : b.Evaluable) (same : a.shape = b.shape) :
    a.Evaluable := by
  obtain ⟨op, sort, kind, children⟩ := Term.shape_eq_iff.mp same
  refine ⟨sort ▸ evaluable.sort, fun application => ?_, kind ▸ evaluable.literal⟩
  rw [op, Term.sorts_of_shapes children]
  exact evaluable.operator (kind.symm.trans application)

/-- How many bits a search takes for a sort. -/
def LogicSort.bits (sort : LogicSort) : Nat := sort.searchBits.toOption.getD 0

/-- The engine can evaluate whatever occurs in the terms, and the symbols take no more bits than a
search may. -/
structure Enumerable (ts : List Term) : Prop where
  nodes : ∀ t ∈ ts, ∀ a : Term, a.OccursIn t → a.Evaluable
  few : ∃ symbols : List (String × LogicSort),
    (∀ t ∈ ts, ∀ (a : Term) (name : String), a.OccursIn t → a.kind = .symbol name →
      (name, a.sort) ∈ symbols) ∧ (symbols.map fun symbol => symbol.2.bits).sum ≤ Search.maxBits

namespace Enumerable

variable {ts us : List Term}

theorem of_shape {t u : Term} (enumerable : Enumerable [t]) (same : u.shape = t.shape) :
    Enumerable [u] := by
  obtain ⟨nodes, symbols, all, few⟩ := enumerable
  refine ⟨List.forall_mem_singleton.mpr fun a occurs => ?_, symbols, ?_, few⟩
  · obtain ⟨b, occurs', same⟩ := occurs.of_shape same
    exact (nodes t List.mem_cons_self b occurs').of_shape same
  · refine List.forall_mem_singleton.mpr fun a name occurs kind => ?_
    obtain ⟨b, occurs', same⟩ := occurs.of_shape same
    obtain ⟨-, sort, kind', -⟩ := Term.shape_eq_iff.mp same
    exact sort ▸ all t List.mem_cons_self b name occurs' (kind'.symm.trans kind)

theorem of_closed (us : List Term) (listed : ∀ t ∈ ts, t ∈ us)
    (closed : ∀ a ∈ us, ∀ c ∈ a.children, c ∈ us)
    (nodes : ∀ a ∈ us, a.Evaluable) (symbols : List (String × LogicSort))
    (all : ∀ a ∈ us, ∀ name, a.kind = .symbol name → (name, a.sort) ∈ symbols)
    (few : (symbols.map fun symbol => symbol.2.bits).sum ≤ Search.maxBits) : Enumerable ts := by
  have within : ∀ t ∈ us, ∀ a : Term, a.OccursIn t → a ∈ us := fun t ht a occurs => by
    induction occurs with
    | here => exact ht
    | inChild child _ ih => exact ih (closed _ ht _ child)
  exact ⟨fun t ht a occurs => nodes a (within t (listed t ht) a occurs), symbols,
    fun t ht a name occurs => all a (within t (listed t ht) a occurs) name, few⟩

theorem of_negation {x t : Term} {name : String}
    (symbol : x.sort = .bool ∧ x.kind = .symbol name ∧ x.children = [])
    (negation : t.op = PrimOp.not ∧ t.sort = .bool ∧ t.kind = .application ∧ t.children = [x])
    (listed : ∀ u ∈ ts, u ∈ [x, t]) : Enumerable ts := by
  obtain ⟨sort, kind, leaf⟩ := symbol
  obtain ⟨op, sort', kind', children⟩ := negation
  have nodes : ∀ a ∈ [x, t], a.Evaluable := by
    simp only [List.forall_mem_cons]
    refine ⟨Term.evaluable_symbol (sort ▸ LogicSort.isEnumerable_bool) kind, ?_, nofun⟩
    exact Term.evaluable_application (sort' ▸ LogicSort.isEnumerable_bool) kind'
      (by rw [op]; rfl) (by rw [op]; rfl)
  refine .of_closed [x, t] listed (by simp [leaf, children]) nodes [(name, .bool)] ?_
    (by decide : 1 ≤ Search.maxBits)
  simp [kind, kind', sort]

theorem narrow {t a : Term} {name : String} {bits : Nat} (enumerable : Enumerable ts) (ht : t ∈ ts)
    (occurs : a.OccursIn t) (kind : a.kind = .symbol name)
    (counted : a.sort.searchBits = .ok bits) :
    bits ≤ 128 := by
  obtain ⟨symbols, all, few⟩ := enumerable.few
  have part := List.le_sum_of_mem
    (List.mem_map_of_mem (f := fun symbol => symbol.2.bits) (all t ht a name occurs kind))
  rw [LogicSort.bits, counted] at part
  exact Search.narrow_of_few (part.trans few)

end Enumerable

namespace Solver

open FormulaGraph.Action

variable {s : Solver Enumerator LogicSort Handle} {t : Term} {ts : List Term}
    {n v : Handle} {ns : List Handle}
  {node : Node} {sort : LogicSort} {token : CancelToken}

/-- What the engine makes of a term is made of what it makes of the nodes of the term. -/
theorem Coherent.of_below (coherent : s.Coherent Enumerator.contract) (ht : s.session.Has t)
    (recorded : s.session.natives[t]? = some n) (below : s.engine.store.Below v n) :
    ∃ a : Term, a.OccursIn t ∧ s.session.natives[a]? = some v := by
  induction t generalizing n with
  | node t ih =>
    obtain ⟨n', ns, node, recorded', renders, found, built⟩ := coherent.node ht
    cases recorded.symm.trans recorded'
    obtain rfl | ⟨c, hc, lower⟩ := (NodeStore.below_iff found).mp below
    · exact ⟨t, .here, recorded⟩
    · rw [built.operands] at hc
      obtain ⟨k, hk, recorded''⟩ := exists_of_forall₂ renders hc
      obtain ⟨a, occurs, native⟩ :=
        ih k hk (coherent.canonical.children t ht k hk).1 recorded'' lower
      exact ⟨a, .inChild hk occurs, native⟩

section Search

variable (coherent : s.Coherent Enumerator.contract) (enumerable : Enumerable ts)
  (each : ∀ n ∈ ns, ∃ t ∈ ts, (s.session.Has t ∧ t.sort = .bool) ∧ s.session.natives[t]? = some n)

include coherent each

theorem origin_of_below (hn : n ∈ ns) (below : s.engine.store.Below v n)
    (found : s.engine.store.find? v = some (node, sort)) :
    ∃ t ∈ ts, ∃ (a : Term) (ms : List Handle), a.OccursIn t ∧ s.session.Has a ∧
      s.session.natives[a]? = some v ∧ s.session.Renders a.children ms ∧ sort = a.sort ∧
        Enumerator.Built ⟨a.op, a.sort, a.kind, ms⟩ node := by
  obtain ⟨t, ht, ⟨has, -⟩, recorded⟩ := each n hn
  obtain ⟨a, occurs, native⟩ := coherent.of_below has recorded below
  have ha := coherent.canonical.has_of_occursIn has occurs
  obtain ⟨v', ms, node', native', renders, found', built⟩ := coherent.node ha
  cases native.symm.trans native'
  cases found.symm.trans found'
  exact ⟨t, ht, a, ms, occurs, ha, native, renders, rfl, built⟩

include enumerable

theorem evaluates_of_below (hn : n ∈ ns) (below : s.engine.store.Below v n)
    (found : s.engine.store.find? v = some (node, sort)) : s.engine.store.Evaluates sort node := by
  obtain ⟨t, ht, a, ms, occurs, ha, -, renders, rfl, built⟩ :=
    origin_of_below coherent each hn below found
  obtain ⟨⟨bits, counted, -⟩, operator, literal⟩ := enumerable.nodes t ht a occurs
  have fits := coherent.mirrored.valid.sorted v node a.sort found
  cases kind : a.kind with
  | symbol name =>
    rw [kind] at built
    obtain rfl := built.of_symbol
    exact ⟨bits, enumerable.narrow ht occurs kind counted, counted⟩
  | value l =>
    rw [kind] at built
    obtain rfl := built.of_value
    exact NodeStore.evaluates_of_fits fits counted fun text same =>
      literal text (kind.trans (congrArg _ same))
  | constArray =>
    rw [kind] at built
    obtain ⟨fill, -, rfl⟩ := built.of_constArray
    exact ⟨bits, counted⟩
  | application =>
    rw [kind] at built
    obtain rfl := built.of_application
    obtain ⟨known, fit⟩ := operator kind
    refine ⟨known, fun sorts typed => ?_⟩
    rw [coherent.sorts_of_operands ha renders typed]
    exact fit

/-- The symbols of the formulas take no more bits than a search may: different symbols of a session
have different names. -/
theorem bits_le {us : List Handle} (listed : s.engine.store.symbolsOf ns = .ok us) :
    (us.map s.engine.store.bitsOf).sum ≤ Search.maxBits := by
  obtain ⟨members, ordered⟩ := NodeStore.symbolsOf_ok listed
  obtain ⟨symbols, all, few⟩ := enumerable.few
  have origin : ∀ v ∈ us, ∃ symbol ∈ symbols, s.engine.store.bitsOf v = symbol.2.bits ∧
      ∃ a, s.session.symbols[symbol.1]? = some a ∧ s.session.natives[a]? = some v := by
    intro v hv
    obtain ⟨⟨n, hn, below⟩, name, sort, found⟩ := (members v).mp hv
    obtain ⟨t, ht, a, ms, occurs, ha, native, -, rfl, built⟩ :=
      origin_of_below coherent each hn below found
    have kind := built.kind_symbol
    refine ⟨_, all t ht a name occurs kind, ?_, a,
      (coherent.canonical.symbols name a).mpr ⟨ha, kind⟩, native⟩
    rw [NodeStore.bitsOf, found]
    rfl
  choose! source sources bits term named natives using origin
  have injective : ∀ v ∈ us, ∀ w ∈ us, source v = source w → v = w := by
    intro v hv w hw same
    have symbol := named v hv
    rw [same, named w hw] at symbol
    have native := natives v hv
    rw [← Option.some.inj symbol, natives w hw] at native
    exact (Option.some.inj native).symm
  have once : (us.map source).Nodup := by
    refine List.Nodup.map_on injective (ordered.imp fun {v w} before same => ?_)
    rw [same] at before
    exact Nat.lt_irrefl _ before
  obtain ⟨parts, same, within⟩ :=
    once.subperm (List.forall_mem_map.mpr sources : ∀ b ∈ _, b ∈ symbols)
  calc
    (us.map s.engine.store.bitsOf).sum = ((us.map source).map fun symbol => symbol.2.bits).sum := by
      rw [List.map_map]
      exact congrArg List.sum (List.map_congr_left bits)
    _ = (parts.map fun symbol => symbol.2.bits).sum := (same.map _).sum_eq.symm
    _ ≤ (symbols.map fun symbol => symbol.2.bits).sum :=
      (within.map _).sum_le_sum fun _ _ => Nat.zero_le _
    _ ≤ Search.maxBits := few

/-- A search for a model of formulas within reach comes to an end. -/
theorem search_succeeds (token : CancelToken) :
    ∃ finding, Search.run s.engine.store ns token = .ok finding := by
  have evaluated : ∀ n ∈ ns, ∀ v node sort, s.engine.store.Below v n →
      s.engine.store.find? v = some (node, sort) → s.engine.store.Evaluates sort node :=
    fun n hn _ _ _ => evaluates_of_below coherent enumerable each hn
  have truths : ∀ n ∈ ns, ∃ node, s.engine.store.find? n = some (node, .bool) := by
    intro n hn
    obtain ⟨t, ht, ⟨has, truth⟩, recorded⟩ := each n hn
    obtain ⟨n', ms, node, recorded', -, found, -⟩ := coherent.node has
    cases recorded.symm.trans recorded'
    exact ⟨node, truth ▸ found⟩
  refine Search.run_succeeds (fun n hn => ?_) ?_ (fun us => bits_le coherent enumerable each)
    fun env admits n hn => ?_
  · obtain ⟨node, found⟩ := truths n hn
    exact NodeStore.index_lt_of_find? found
  · rintro v name sort ⟨n, hn, below⟩ symbol
    obtain ⟨bits, -, counted⟩ := evaluated n hn v _ _ below symbol
    exact ⟨bits, counted⟩
  · obtain ⟨node, found⟩ := truths n hn
    exact NodeStore.eval_bool_succeeds coherent.mirrored.valid.sorted admits found (evaluated n hn)

end Search

end Solver

end FormulaGraph

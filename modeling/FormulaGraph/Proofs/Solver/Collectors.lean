import FormulaGraph.Proofs.Enumeration.Collection
import FormulaGraph.Proofs.Enumeration.Growth
import FormulaGraph.Proofs.Solver.Occurrences
import FormulaGraph.Proofs.Solver.Valuation

/-!
The symbols of terms and the symbols of what the engine makes of them. Two walks collect them, one
over the shared terms of a session and one over the nodes of the engine; they come to the same
symbols, and those are all that a value depends on.
-/

namespace FormulaGraph

theorem Enumerator.Built.isSymbol_iff {op : Op} {sort : LogicSort} {kind : TermKind}
    {args : List Handle} {node : Node} (built : Enumerator.Built ⟨op, sort, kind, args⟩ node) :
    node.isSymbol = true ↔ ∃ name, kind = .symbol name := by
  cases built <;> simp [Node.isSymbol]

namespace Solver

variable {s : Solver Enumerator LogicSort Handle} {issued ts : List Term}
    {t u a : Term} {n m v : Handle}
  {ns us : List Handle}

theorem Coherent.below_of_occursIn (coherent : s.Coherent Enumerator.contract)
    (hu : s.session.Has u) (occurs : a.OccursIn u) (recorded : s.session.natives[u]? = some n)
    (recorded' : s.session.natives[a]? = some m) :
    s.engine.store.Below m n := by
  induction occurs generalizing n with
  | here =>
    cases recorded.symm.trans recorded'
    exact .here
  | @inChild u c child _ ih =>
    obtain ⟨n', ns, node, recorded'', renders, found, built⟩ := coherent.node hu
    cases recorded.symm.trans recorded''
    obtain ⟨k, hk, known⟩ := exists_of_forall₂ renders.flip child
    exact .operand found (built.operands ▸ hk)
      (ih (coherent.canonical.children u hu c child).1 known)

theorem Coherent.isSymbol_iff (coherent : s.Coherent Enumerator.contract) (ha : s.session.Has a)
    (recorded : s.session.natives[a]? = some m) :
    s.engine.store.IsSymbol m ↔ a.isSymbol = true := by
  obtain ⟨m', ns, node, recorded', -, found, built⟩ := coherent.node ha
  cases recorded.symm.trans recorded'
  rw [NodeStore.isSymbol_iff found, built.isSymbol_iff, Term.isSymbol_iff]

/-- The symbols below what the engine makes of terms are what it makes of the symbols of the
terms. -/
theorem Coherent.symbols_iff (coherent : s.Coherent Enumerator.contract)
    (known : ∀ t ∈ ts, s.session.Has t) (renders : s.session.Renders ts ns) :
    (∃ n ∈ ns, s.engine.store.Below v n) ∧ s.engine.store.IsSymbol v ↔
      ∃ t ∈ ts, ∃ x ∈ t.freeSymbols, s.session.natives[x]? = some v := by
  have interned := coherent.canonical.toInterned
  have identified := interned.allIdentified
  constructor
  · rintro ⟨⟨n, hn, below⟩, symbol⟩
    obtain ⟨t, ht, recorded⟩ := exists_of_forall₂ renders hn
    obtain ⟨x, occurs, native⟩ := coherent.of_below (known t ht) recorded below
    have symbol' := (coherent.isSymbol_iff (identified.below (known t ht) occurs) native).mp symbol
    exact ⟨t, ht, x, (interned.mem_freeSymbols (known t ht)).mpr ⟨occurs, symbol'⟩, native⟩
  · rintro ⟨t, ht, x, hx, native⟩
    obtain ⟨occurs, symbol⟩ := (interned.mem_freeSymbols (known t ht)).mp hx
    obtain ⟨n, hn, recorded⟩ := exists_of_forall₂ renders.flip ht
    exact ⟨⟨n, hn, coherent.below_of_occursIn (known t ht) occurs recorded native⟩,
      (coherent.isSymbol_iff (identified.below (known t ht) occurs) native).mpr symbol⟩

/-- Terms have the same values under assignments that agree on the symbols below what the engine
makes of them. -/
theorem Coherent.valueUnder_congr (coherent : s.Coherent Enumerator.contract)
    (known : ∀ t ∈ ts, s.session.Has t)
    (renders : s.session.Renders ts ns) (listed : s.engine.store.symbolsOf ns = .ok us)
    {env env' : Assignment}
    (agree : ∀ v ∈ us, env v = env' v) : ∀ t ∈ ts, s.valueUnder env t = s.valueUnder env' t := by
  intro t ht
  obtain ⟨n, hn, recorded⟩ := exists_of_forall₂ renders.flip ht
  have number := coherent.canonical.numbered t (known t ht)
  rw [valueUnder_eq number recorded, valueUnder_eq number recorded]
  refine NodeStore.eval_congr fun v below symbol => ?_
  obtain ⟨name, sort, found⟩ := symbol
  have same :=
    agree v (((NodeStore.symbolsOf_ok listed).1 v).mpr ⟨⟨n, hn, below⟩, name, sort, found⟩)
  rw [NodeStore.eval_of_find? found, NodeStore.eval_of_find? found, NodeStore.evalNode,
    NodeStore.evalNode, same]

/-- The two collectors agree, and what they collect is enough. Both walks come to an end, on all
terms and on all nodes. In every state that is reached from an engine without nodes, and for all
terms of the session, the symbols of a term are listed once each, and they are the symbols that
occur in it, below constant arrays too; the engine's collector gives, in order and once each, just
what the engine makes of the symbols of the terms; and under assignments that agree on these the
terms have the same values. -/
theorem collectors_agree (run : Run Enumerator.Fresh s issued) (known : ∀ t ∈ ts, s.session.Has t) :
    (∀ (t : Term) (rounds : Nat), t.size < rounds →
      Term.gatherWithin Term.isSymbol rounds {} [] [t] = some t.freeSymbols) ∧
    (∀ (store : NodeStore) (roots : List Handle) (rounds : Nat),
      roots.length + store.operandCount < rounds →
      store.collectWithin rounds (store.toCollect roots) = some (store.symbolsOf roots)) ∧
    (∀ t ∈ ts, t.freeSymbols.Nodup ∧ ∀ x, x ∈ t.freeSymbols ↔ x.OccursIn t ∧ x.isSymbol = true) ∧
    ∃ ns us, natives ts s = .ok ns s ∧ s.engine.store.symbolsOf ns = .ok us ∧
      us.Pairwise (fun a b => a.index < b.index) ∧
      (∀ v, v ∈ us ↔ ∃ t ∈ ts, ∃ x ∈ t.freeSymbols, s.session.natives[x]? = some v) ∧
      ∀ env env' : Assignment, (∀ v ∈ us, env v = env' v) →
        ∀ t ∈ ts, s.valueUnder env t = s.valueUnder env' t := by
  have coherent := (run.coherent Enumerator.contract_honoured).1
  refine ⟨fun t rounds enough =>
    Term.gatherWithin_eq {} [] [t] (by simpa [Term.sizes] using enough),
    fun store roots rounds => store.collectWithin_eq_symbolsOf roots,
    fun t ht => Term.freeSymbols_spec coherent.canonical.toInterned.allIdentified (known t ht), ?_⟩
  obtain ⟨ns, renders⟩ := coherent.renders known
  have placed : ∀ n ∈ ns, n.index < s.engine.store.size := fun n hn => by
    obtain ⟨t, ht, recorded⟩ := exists_of_forall₂ renders hn
    obtain ⟨n', _, _, recorded', -, found, -⟩ := coherent.node (known t ht)
    cases recorded.symm.trans recorded'
    exact NodeStore.index_lt_of_find? found
  obtain ⟨us, listed⟩ := NodeStore.symbolsOf_succeeds_iff.mpr placed
  obtain ⟨below, ordered⟩ := NodeStore.symbolsOf_ok listed
  exact ⟨ns, us, natives_ok coherent known renders, listed, ordered,
    fun v => (below v).trans (coherent.symbols_iff known renders),
    fun env env' agree => coherent.valueUnder_congr known renders listed agree⟩

/-- Of two symbols and a constant array over the first of them: all that is collected for the array
and for the symbol is the symbol. -/
theorem collectors_agree_constArray :
    ∃ (s : Solver Enumerator LogicSort Handle) (x y a : Term) (v : Handle),
    Run Enumerator.Fresh s [x, y, a] ∧ a.kind = .constArray ∧ a.children = [x] ∧ y ≠ x ∧
      s.session.natives[x]? = some v ∧ ∃ ns, natives [a, x, a] s = .ok ns s ∧
        s.engine.store.symbolsOf ns = .ok [v] ∧
        ∀ env env' : Assignment, env v = env' v → s.valueUnder env a = s.valueUnder env' a := by
  obtain ⟨s, x, y, a, run, ⟨-, -, kind⟩, ⟨hx, ha, children⟩, -, other, symbols, -, symbols'⟩ :=
    run_replacing
  have known : ∀ t ∈ [a, x, a], s.session.Has t := by simp [hx, ha]
  obtain ⟨v, native⟩ := (run.coherent Enumerator.contract_honoured).1.native hx
  obtain ⟨-, -, -, ns, us, asked, listed, ordered, members, enough⟩ := collectors_agree run known
  have only : us = [v] := by
    have nodup := NodeStore.nodup_symbolsOf listed
    refine List.perm_singleton.mp
      ((List.perm_ext_iff_of_nodup nodup (List.nodup_singleton v)).mpr fun w => ?_)
    simp [members, symbols, symbols', native, eq_comm]
  subst only
  refine ⟨s, x, y, a, v, run, kind, children, other, native, ns, asked, listed,
    fun env env' same => ?_⟩
  exact enough env env' (by simpa using same) a List.mem_cons_self

end Solver

end FormulaGraph

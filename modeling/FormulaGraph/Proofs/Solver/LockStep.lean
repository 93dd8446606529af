import FormulaGraph.Proofs.Solver.OverEnumerator

/-!
The graph of terms stays in step with the enumerating engine: each canonical term has a node of its
own, which was made just as the term was.
-/

namespace FormulaGraph.Solver

variable {s s' : Solver Enumerator LogicSort Handle} {t u : Term} {n : Handle} {issued : List Term}

theorem Coherent.node (coherent : s.Coherent Enumerator.contract) (ht : s.session.Has t) :
    ∃ n ns node, s.session.natives[t]? = some n ∧ s.session.Renders t.children ns ∧
      s.engine.store.find? n = some (node, t.sort) ∧
      Enumerator.Built ⟨t.op, t.sort, t.kind, ns⟩ node := by
  obtain ⟨n, recorded⟩ := coherent.native ht
  obtain ⟨ns, renders, node, found, built⟩ := coherent.mirrored.names t n ht recorded
  exact ⟨n, ns, node, recorded, renders, found, built⟩

theorem Coherent.eq_of_native (coherent : s.Coherent Enumerator.contract) (ht : s.session.Has t)
    (hu : s.session.Has u) (recorded : s.session.natives[t]? = some n)
    (recorded' : s.session.natives[u]? = some n) : t = u := by
  by_contra other
  exact coherent.mirrored.apart t u n n ht hu other recorded recorded' rfl

/-- In every state that is reached from an engine without nodes, the engine's terms are recorded for
just the canonical terms; the node of a canonical term was made as the term was, from the nodes of
its children; no two terms share one; and a symbol is what is known by its name. So no request,
whatever it is about, ever finds that an engine's term is missing. -/
theorem natives_in_step (run : Run Enumerator.Fresh s issued) :
    (∀ t : Term, s.session.natives.contains t = true ↔ ∃ u : Term, s.session.Has u ∧ u.id = t.id) ∧
    (∀ t : Term, s.session.Has t → t.session = s.session.number ∧
      ∃ n ns node, s.session.natives[t]? = some n ∧ s.session.Renders t.children ns ∧
        s.engine.store.find? n = some (node, t.sort) ∧
        Enumerator.Built ⟨t.op, t.sort, t.kind, ns⟩ node) ∧
    (∀ (t u : Term) (n : Handle), s.session.Has t → s.session.Has u →
      s.session.natives[t]? = some n → s.session.natives[u]? = some n → t = u) ∧
    (∀ (name : String) (t : Term),
      s.session.symbols[name]? = some t ↔ s.session.Has t ∧ t.kind = .symbol name) ∧
    ∀ (q : Request) (e : Error) (s' : Solver Enumerator LogicSort Handle),
      (∀ t ∈ q.terms, s.Available issued t) → q.perform s = .error e s' →
        ∀ t : Term, e ≠ .internal (.noEngineTerm t) := by
  obtain ⟨coherent, known⟩ := run.coherent Enumerator.contract_honoured
  have canonical := coherent.canonical
  refine ⟨canonical.natives, ?_, ?_, canonical.symbols, ?_⟩
  · intro t ht
    exact ⟨canonical.numbered t ht, coherent.node ht⟩
  · intro t u n ht hu
    exact coherent.eq_of_native ht hu
  · intro q e s' available failed t same
    have plain : e.Plain := (request_failed Enumerator.contract_honoured coherent
      (fun t ht => (available t ht).genuine known) failed).2
    rw [same] at plain
    exact plain

/-- The node of a truth value, on an engine that reports truth values as one-bit vectors. -/
theorem natives_in_step_aliasing :
    ∃ (s : Solver Enumerator LogicSort Handle) (t f : Term) (n : Handle),
      Run Enumerator.Fresh s [t, f] ∧ s.session.natives[t]? = some n ∧
        s.engine.store.find? n = some (.value (.bool true), .bool) := by
  have fresh : (Enumerator.new "m").withAliasing.Fresh := ⟨rfl, rfl⟩
  obtain ⟨s, t, f, run, -, ⟨ht, -⟩, ⟨sort, kind⟩, -⟩ :=
    run_truth_values Enumerator.Fresh fresh fresh
  obtain ⟨-, n, ns, node, recorded, -, found, built⟩ := (natives_in_step run).2.1 t ht
  rw [sort] at found
  rw [kind] at built
  obtain rfl := built.of_value
  exact ⟨s, t, f, n, run, recorded, found⟩

end FormulaGraph.Solver

import FormulaGraph.Proofs.Rewrite.Steady
import FormulaGraph.Proofs.Solver.Continuation
import FormulaGraph.Proofs.Solver.Replacement

/-!
Rewriting keeps sorts. A walk on a solver, whose hook may do anything with the solver but end its
session, maps every node to a node of its sort if the hook does and the cache did before, and never
fails to rebuild a node.
-/

namespace FormulaGraph

open FormulaGraph.Action

/-- Does the action, and leaves what is beside its state alone. -/
def Action.beside {σ V α : Type} (act : Action σ α) : Action (V × σ) α := fun (v, s) =>
  match act s with
  | .ok a s => .ok a (v, s)
  | .error e s => .error e (v, s)

namespace Rewriter

variable {σ : Type} {r : Rewriter σ} {t : Term} {news : List Term} {cache : TermMap} {s : σ}

/-- The rewriter whose failures to rebuild a node are handed on. -/
def rescued (r : Rewriter σ) (rescue : Error → Action σ Term) : Rewriter σ :=
  { r with
    rebuild := fun op children s =>
      match r.rebuild op children s with
      | .ok u s => .ok u s
      | .error e s => rescue e s }

theorem finish_rescued (rescue : Error → Action σ Term)
    (rebuilt : ∀ s', r.visit t news s = .ok .resume s' → (news == t.children || t.isValue) = false →
      Succeeds (r.rebuild t.op news) s' fun _ _ => True) :
    (r.rescued rescue).finish t news (cache, s) = r.finish t news (cache, s) := by
  have asked : (r.rescued rescue).visit t news s = r.visit t news s := rfl
  unfold finish
  cases visited : r.visit t news s with
  | error e s' =>
    rw [bind_error (perform_error visited cache),
      bind_error (perform_error (asked.trans visited) cache)]
  | ok step s' =>
    rw [bind_ok (perform_ok visited cache), bind_ok (perform_ok (asked.trans visited) cache)]
    cases step with
    | abort | keep | replace u => rfl
    | resume =>
      dsimp only
      cases stays : news == t.children || t.isValue with
      | true => rfl
      | false =>
        obtain ⟨u, s'', run, -⟩ := rebuilt s' visited stays
        have same : (r.rescued rescue).rebuild t.op news s' = .ok u s'' := by
          simp only [rescued, run]
        rw [if_neg Bool.false_ne_true, if_neg Bool.false_ne_true, bind_ok (perform_ok run cache),
          bind_ok (perform_ok same cache)]

end Rewriter

namespace Solver

open Rewriter

/-- The rewriter on a solver that asks a hook, which has a state of its own. -/
def hooked {V σ S T : Type} [BEq T] [Hashable T] [Engine σ S T]
    (hook : Term → List Term → Action (V × Solver σ S T) Step) : Rewriter (V × Solver σ S T) where
  iterable _ := true
  visit := hook
  rebuild op children := (makeTerm op children).beside

variable {V : Type} {hook : Term → List Term → Action (V × Solver Enumerator LogicSort Handle) Step}
  {s s' : Solver Enumerator LogicSort Handle} {t u root : Term} {ts news issued : List Term}
  {cache : TermMap} {v v' : V} {w w' : Walker} {e : Error}

/-- A hook can be asked this about a node: the solver is still in the session, and what the children
became are terms of it of the children's sorts. -/
structure Asked (start : Solver Enumerator LogicSort Handle) (t : Term) (news : List Term)
    (s : Solver Enumerator LogicSort Handle) : Prop where
  continues : Continues start s
  node : s.session.Has t
  known : ∀ u ∈ news, s.session.Has u
  sorts : news.map Term.sort = t.children.map Term.sort

/-- Whenever the hook is asked, it stays in the session, and replaces the node only by a term of the
session of the same sort. -/
structure SortKeeping (start : Solver Enumerator LogicSort Handle)
    (hook : Term → List Term → Action (V × Solver Enumerator LogicSort Handle) Step) : Prop where
  works : ∀ t news v s, Asked start t news s → Continues s ((hook t news).finalState (v, s)).2
  replaces : ∀ t news v s u after, Asked start t news s →
    hook t news (v, s) = .ok (.replace u) after → after.2.session.Has u ∧ u.sort = t.sort

theorem Ready.images (ready : Ready cache s) (known : ∀ t ∈ ts, s.session.Has t)
    (resolved : ∀ t ∈ ts, cache.contains t = true) :
    (∀ u ∈ ts.map fun t => cache.getD t t, s.session.Has u) ∧
      (ts.map fun t => cache.getD t t).map Term.sort = ts.map Term.sort := by
  have each : ∀ t ∈ ts, s.session.Has (cache.getD t t) ∧ (cache.getD t t).sort = t.sort := by
    intro t ht
    have found := resolved t ht
    rw [Std.HashMap.contains_eq_isSome_getElem?, Option.isSome_iff_exists] at found
    obtain ⟨u, found⟩ := found
    rw [Std.HashMap.getD_eq_getD_getElem?, found]
    exact ready.image (known t ht) found
  refine ⟨fun u hu => ?_, ?_⟩
  · obtain ⟨t, ht, rfl⟩ := List.mem_map.mp hu
    exact (each t ht).1
  · rw [List.map_map]
    exact List.map_congr_left fun t ht => (each t ht).2

/-- A node with changed children of the same sorts is rebuilt without failure, and keeps its
sort. -/
theorem Ready.rebuilds (ready : Ready cache s) (ht : s.session.Has t)
    (known : ∀ u ∈ news, s.session.Has u) (sorts : news.map Term.sort = t.children.map Term.sort)
    (changed : (news == t.children || t.isValue) = false) :
    Succeeds (makeTerm t.op news) s fun u s' => Continues s s' ∧ s'.session.Has u ∧
      u.sort = t.sort := by
  rw [Bool.or_eq_false_iff] at changed
  obtain ⟨differ, value⟩ := changed
  have children : t.children ≠ [] := by
    intro none
    rw [none, List.map_nil, List.map_eq_nil_iff] at sorts
    rw [none, sorts] at differ
    cases differ
  have derived := derived_of_has ready.coherent ht (ready.application ht children value)
  rw [← sorts] at derived
  obtain ⟨u, s', run, kept, has, -, sort, -⟩ := makeTerm_succeeds ready.coherent known derived
  have continues : Continues s s' :=
    .of_answer (q := .command (.makeTerm t.op news)) known (map_ok run) kept.extension.number
  exact ⟨u, s', run, continues, has, sort⟩

/-- What holds as long as the walk lasts: the solver is in the session that it was started in, and
the cache takes terms of the session to terms of their sorts. -/
def Sorted (start : Solver Enumerator LogicSort Handle) (cache : TermMap)
    (state : V × Solver Enumerator LogicSort Handle) : Prop :=
  Continues start state.2 ∧ state.2.Suits cache

/-- The hook has failed so, and left this state. -/
def Rejected (hook : Term → List Term → Action (V × Solver Enumerator LogicSort Handle) Step)
    (e : Error) (state : V × Solver Enumerator LogicSort Handle) : Prop :=
  ∃ t news before, hook t news before = .error e state

section Walks

variable {start : Solver Enumerator LogicSort Handle}

theorem Sorted.asked (coherent : start.Coherent Enumerator.contract)
    (sorted : Sorted start cache (v, s))
    (ht : start.session.Has t) (resolved : ∀ c ∈ t.children, cache.contains c = true) :
    Ready cache s ∧ Asked start t (t.children.map fun c => cache.getD c c) s := by
  obtain ⟨continues, suits⟩ := sorted
  obtain ⟨coherent', extension⟩ := continues.coherent Enumerator.contract_honoured coherent
  have ready : Ready cache s := ⟨coherent', suits⟩
  have node := extension.has t ht
  obtain ⟨known, sorts⟩ :=
    ready.images (fun c hc => (ready.interned.children t node c hc).1) resolved
  exact ⟨ready, continues, node, known, sorts⟩

theorem Sorted.after (keeping : SortKeeping start hook)
    (coherent : start.Coherent Enumerator.contract)
    (sorted : Sorted start cache (v, s)) (asked : Asked start t news s)
    {after : V × Solver Enumerator LogicSort Handle}
    (left : (hook t news).finalState (v, s) = after) :
    Sorted start cache after ∧ s.session.Extends after.2.session := by
  have works := keeping.works t news v s asked
  rw [left] at works
  obtain ⟨coherent', -⟩ := sorted.1.coherent Enumerator.contract_honoured coherent
  obtain ⟨-, extension⟩ := works.coherent Enumerator.contract_honoured coherent'
  exact ⟨⟨sorted.1.trans works, sorted.2.extend extension⟩, extension⟩

theorem Sorted.rebuilds (keeping : SortKeeping start hook)
    (coherent : start.Coherent Enumerator.contract)
    (sorted : Sorted start cache (v, s)) (asked : Asked start t news s)
    {after : V × Solver Enumerator LogicSort Handle}
    (resumed : hook t news (v, s) = .ok .resume after)
    (changed : (news == t.children || t.isValue) = false) :
    Succeeds (makeTerm t.op news) after.2 fun u s' =>
      Continues after.2 s' ∧ s'.session.Has u ∧ u.sort = t.sort := by
  have left : (hook t news).finalState (v, s) = after := finalState_ok resumed
  obtain ⟨⟨continues, suits⟩, extension⟩ := sorted.after keeping coherent asked left
  obtain ⟨coherent', -⟩ := continues.coherent Enumerator.contract_honoured coherent
  exact Ready.rebuilds ⟨coherent', suits⟩ (extension.has t asked.node)
    (fun u hu => extension.has u (asked.known u hu)) asked.sorts changed

/-- Every step of the walk keeps sorts, and fails only as the hook does. -/
theorem steady_hooked (keeping : SortKeeping start hook)
    (coherent : start.Coherent Enumerator.contract) :
    (hooked hook).Steady (Sorted start) (Rejected hook) start.session.Has where
  acyclic t ht := (coherent.canonical.ordered ht).acyclic
  down t ht c hc := (coherent.canonical.children t ht c hc).1
  finish cache state t sorted ht resolved := by
    obtain ⟨v, s⟩ := state
    obtain ⟨-, asked⟩ := sorted.asked coherent ht resolved
    generalize t.children.map (fun c => cache.getD c c) = news at asked ⊢
    rw [finish]
    cases visited : (hooked hook).visit t news (v, s) with
    | error e after =>
      have left : (hook t news).finalState (v, s) = after := finalState_error visited
      rw [bind_error (perform_error visited cache)]
      exact ⟨(sorted.after keeping coherent asked left).1, t, news, (v, s), visited⟩
    | ok step after =>
      have left : (hook t news).finalState (v, s) = after := finalState_ok visited
      obtain ⟨kept, extension⟩ := sorted.after keeping coherent asked left
      have node := extension.has t asked.node
      rw [bind_ok (perform_ok visited cache)]
      cases step with
      | abort => exact kept
      | keep => exact ⟨kept.1, kept.2.insert node node rfl⟩
      | replace u =>
        obtain ⟨has, sort⟩ := keeping.replaces t news v s u after asked visited
        exact ⟨kept.1, kept.2.insert node has sort.symm⟩
      | resume =>
        dsimp only
        cases changed : news == t.children || t.isValue with
        | true => exact ⟨kept.1, kept.2.insert node node rfl⟩
        | false =>
          obtain ⟨u, s', run, continues, has, sort⟩ :=
            sorted.rebuilds keeping coherent asked visited changed
          obtain ⟨coherent', -⟩ := kept.1.coherent Enumerator.contract_honoured coherent
          obtain ⟨-, extended⟩ := continues.coherent Enumerator.contract_honoured coherent'
          have rebuilt : (hooked hook).rebuild t.op news after = .ok u (after.1, s') := by
            simp only [hooked, beside, run]
          rw [if_neg Bool.false_ne_true, bind_ok (perform_ok rebuilt cache)]
          exact ⟨kept.1.trans continues,
            (kept.2.extend extended).insert (extended.has t node) has sort.symm⟩

end Walks

/-- Rewriting keeps sorts. However a visit ends, the walker takes terms of the session to terms of
the session of exactly their sorts, and so is what it answers; it fails only as the hook has failed,
and never in rebuilding a node: it does not matter what would be done about such a failure. -/
theorem rewriting_keeps_sorts (run : Run Enumerator.Fresh s issued) (keeping : SortKeeping s hook)
    (suits : s.Suits w.cache) (known : s.session.Has root) :
    (∀ u w' v' s', Walker.visit (hooked hook) root (w, v, s) = .ok u (w', v', s') →
      (s'.session.Has u ∧ u.sort = root.sort) ∧ s'.Suits w'.cache ∧ Continues s s') ∧
    (∀ e w' v' s', Walker.visit (hooked hook) root (w, v, s) = .error e (w', v', s') →
      (∃ t news before, hook t news before = .error e (v', s')) ∧
        s'.Suits w'.cache ∧ Continues s s') ∧
    ∀ rescue, Walker.visit ((hooked hook).rescued rescue) root (w, v, s) =
      Walker.visit (hooked hook) root (w, v, s) := by
  have coherent := (run.coherent Enumerator.contract_honoured).1
  have steady := steady_hooked keeping coherent
  have holds : Sorted s (if w.clears then {} else w.cache) (v, s) := by
    refine ⟨.rest, ?_⟩
    cases w.clears with
    | true => exact suits_empty s
    | false => exact suits
  have visited := Walker.visit_endsWithin steady rfl known holds
  refine ⟨?_, ?_, ?_⟩
  · intro u w' v' s' done
    rw [done] at visited
    obtain ⟨⟨continues, suits'⟩, image⟩ := visited
    obtain ⟨coherent', extension⟩ := continues.coherent Enumerator.contract_honoured coherent
    have node := extension.has root known
    refine ⟨?_, suits', continues⟩
    cases image with
    | inl found => exact Ready.image ⟨coherent', suits'⟩ node found
    | inr same =>
      rw [same]
      exact ⟨node, rfl⟩
  · intro e w' v' s' failed
    rw [failed] at visited
    exact ⟨visited.2, visited.1.2, visited.1.1⟩
  · intro rescue
    refine Walker.visit_congr steady rfl rfl ?_ known holds
    rintro cache ⟨v, s'⟩ t sorted ht resolved
    obtain ⟨-, asked⟩ := sorted.asked coherent ht resolved
    refine finish_rescued rescue fun after resumed changed => ?_
    obtain ⟨u, s'', run, -⟩ := sorted.rebuilds keeping coherent asked resumed changed
    exact ⟨u, (after.1, s''), by simp only [hooked, beside, run], trivial⟩

/-- The negation of a truth value that is replaced by the other one. -/
theorem rewriting_keeps_sorts_negation :
    ∃ (s : Solver Enumerator LogicSort Handle) (t f root : Term)
      (hook : Term → List Term → Action (Unit × Solver Enumerator LogicSort Handle) Step),
      Run Enumerator.Fresh s [t, f, root] ∧ SortKeeping s hook ∧ s.Suits {} ∧ s.session.Has root ∧
        root.children = [t] ∧ (∀ news v, (hook t news).outcome v = .ok (.replace f)) ∧
        ∃ u w' s', Walker.visit (hooked hook) root ({}, (), s) = .ok u (w', (), s') ∧
          s'.session.Has u ∧ u.sort = root.sort := by
  obtain ⟨s, t, f, run, coherent, ⟨ht, hf⟩, ⟨sort, -⟩, sort', -⟩ :=
    run_truth_values Enumerator.Fresh (Enumerator.fresh_new "m") (Enumerator.fresh_new "m")
  have derived : (PrimOp.not : Op).resultSort ([t].map Term.sort) = .ok (some .bool) := by
    rw [List.map_cons, sort]
    rfl
  obtain ⟨root, s', made, kept, hroot, -, -, -, children⟩ :=
    makeTerm_succeeds coherent (fun a ha => List.mem_singleton.mp ha ▸ ht) derived
  have longer := run.answer_term (.command (.makeTerm PrimOp.not [t]))
    (fun u hu a below _ => ⟨u, by rw [List.mem_singleton.mp hu]; exact List.mem_cons_self, below⟩)
      rfl made
    kept.extension.number
  let hook : Term → List Term → Action (Unit × Solver Enumerator LogicSort Handle) Step :=
    fun a _ => pure (if a == t then .replace f else .resume)
  have keeping : SortKeeping s' hook := by
    refine ⟨fun _ _ _ _ _ => .rest, fun a news v s'' u after asked done => ?_⟩
    obtain ⟨coherent', extension⟩ :=
      asked.continues.coherent Enumerator.contract_honoured kept.coherent
    cases same : a == t with
    | false => simp [hook, same, pure, EStateM.pure] at done
    | true =>
      simp only [hook, same, if_true, pure, EStateM.pure] at done
      cases done
      have eq := coherent'.canonical.identified a t asked.node
        (extension.has t (kept.extension.has t ht)) (Term.beq_iff.mp same)
      exact ⟨extension.has f (kept.extension.has f hf), by rw [eq, sort, sort']⟩
  obtain ⟨answered, failed, -⟩ := rewriting_keeps_sorts (v := ()) (w := {}) longer keeping
    (suits_empty s') hroot
  refine ⟨s', t, f, root, hook, longer, keeping, suits_empty s', hroot, children,
    fun news v => ?_, ?_⟩
  · simp [hook, Action.outcome, pure, EStateM.pure]
  · cases visited : Walker.visit (hooked hook) root ({}, (), s') with
    | ok u after => exact ⟨u, after.1, after.2.2, rfl, (answered u _ _ _ visited).1⟩
    | error e after =>
      obtain ⟨⟨a, news, before, refused⟩, -⟩ := failed e _ _ _ visited
      cases refused

end Solver

end FormulaGraph

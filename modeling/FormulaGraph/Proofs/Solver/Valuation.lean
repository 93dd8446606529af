import FormulaGraph.Proofs.Solver.Translation
import FormulaGraph.Proofs.Solver.Verdicts

/-!
Values do not depend on the session: values of the symbols of one session are carried over to the
symbols of the same names and sorts in another, and then a term has the value of its counterpart. So
a term is satisfiable wherever its counterpart is.
-/

namespace FormulaGraph

namespace Solver

variable {e d : Solver Enumerator LogicSort Handle} {t u : Term} {n m v : Handle} {env : Assignment}

section Carried

/-- The values that these values of the symbols of one session give to the symbols of another. -/
def carried (e d : Solver Enumerator LogicSort Handle) (env : Assignment) : Assignment := fun m =>
  match d.engine.store.find? m with
  | some (.symbol name, sort) =>
    match e.session.symbols[name]? with
    | some k => if k.sort = sort then e.session.natives[k]?.bind env else none
    | none => none
  | _ => none

theorem carried_symbol {name : String} {sort : LogicSort}
    (found : d.engine.store.find? m = some (.symbol name, sort))
    (known : e.session.symbols[name]? = some t) (same : t.sort = sort)
    (recorded : e.session.natives[t]? = some n) : carried e d env m = env n := by
  simp [carried, found, known, same, recorded]

variable (source : e.Coherent Enumerator.contract)

include source

theorem admits_carried (admits : e.engine.store.Admits env)
    (d : Solver Enumerator LogicSort Handle) :
    d.engine.store.Admits (carried e d env) := by
  intro m x given
  unfold carried at given
  split at given
  · rename_i name sort found
    split at given
    · rename_i k known
      split at given
      · rename_i same
        obtain ⟨hk, -⟩ := (source.canonical.symbols name k).mp known
        obtain ⟨n, ns, node, recorded, -, found', -⟩ := source.node hk
        rw [recorded, Option.bind_some] at given
        obtain ⟨node', sort', found'', holds⟩ := admits n x given
        cases found'.symm.trans found''
        exact ⟨_, sort, found, same ▸ holds⟩
      · cases given
    · cases given
  · cases given

variable (target : d.Coherent Enumerator.contract)

include target

/-- Under the values that are carried over, counterparts have the same value. -/
theorem eval_carried (ht : e.session.Has t) (hu : d.session.Has u) (shape : u.shape = t.shape)
    (recorded : e.session.natives[t]? = some n) (recorded' : d.session.natives[u]? = some m) :
    d.engine.store.eval (carried e d env) m = e.engine.store.eval env n := by
  induction t generalizing u n m with
  | node t ih =>
    obtain ⟨n', ns, node, native, renders, found, built⟩ := source.node ht
    obtain ⟨m', ms, node', native', renders', found', built'⟩ := target.node hu
    cases recorded.symm.trans native
    cases recorded'.symm.trans native'
    obtain ⟨op, sort, kind, shapes⟩ := Term.shape_eq_iff.mp shape
    have children := fun c hc => (source.canonical.children t ht c hc).1
    have children' := fun k hk => (target.canonical.children u hu k hk).1
    have mates : List.Forall₂ (fun c m => ∃ k : Term, d.session.Has k ∧ k.shape = c.shape ∧
        d.session.natives[k]? = some m) t.children ms := by
      refine forall₂_join (Term.forall₂_of_shapes shapes) renders' ?_
      exact fun k hk c m same recorded => ⟨k, children' k hk, same, recorded⟩
    have operands : List.Forall₂ (fun m n =>
        d.engine.store.eval (carried e d env) m = e.engine.store.eval env n) ms ns := by
      refine forall₂_join mates renders ?_
      rintro c hc m n ⟨k, hk, same, recorded'⟩ recorded
      exact ih c hc (children c hc) hk same recorded recorded'
    rw [NodeStore.eval_of_find? found, NodeStore.eval_of_find? found', sort]
    rw [sort, kind, op] at built'
    cases kind' : t.kind with
    | symbol name =>
      rw [kind'] at built built'
      obtain rfl := built.of_symbol
      obtain rfl := built'.of_symbol
      have known := (source.canonical.symbols name t).mpr ⟨ht, kind'⟩
      rw [NodeStore.evalNode, NodeStore.evalNode, carried_symbol found' known sort.symm recorded]
    | value l =>
      rw [kind'] at built built'
      obtain rfl := built.of_value
      obtain rfl := built'.of_value
      cases l <;> rfl
    | constArray =>
      rw [kind'] at built built'
      obtain ⟨fill, rfl, rfl⟩ := built.of_constArray
      obtain ⟨fill', rfl, rfl⟩ := built'.of_constArray
      obtain ⟨same, -⟩ := List.forall₂_cons.mp operands
      rw [NodeStore.evalNode, NodeStore.evalNode, same]
    | application =>
      rw [kind'] at built built'
      obtain rfl := built.of_application
      obtain rfl := built'.of_application
      rw [NodeStore.evalNode, NodeStore.evalNode, mapM_congr₂ operands]

theorem valueUnder_carried (ht : e.session.Has t) (hu : d.session.Has u)
    (shape : u.shape = t.shape) :
    d.valueUnder (carried e d env) u = e.valueUnder env t := by
  obtain ⟨n, recorded⟩ := source.native ht
  obtain ⟨m, recorded'⟩ := target.native hu
  rw [valueUnder_eq (source.canonical.numbered t ht) recorded,
    valueUnder_eq (target.canonical.numbered u hu) recorded',
    eval_carried source target ht hu shape recorded recorded']

end Carried

/-- Some well-sorted values of the symbols make the term true. -/
def Satisfiable (s : Solver Enumerator LogicSort Handle) (t : Term) : Prop :=
  ∃ env, s.engine.store.Admits env ∧ s.valueUnder env t = .ok (.bool true)

theorem Satisfiable.carry (satisfiable : e.Satisfiable t) (source : e.Coherent Enumerator.contract)
    (target : d.Coherent Enumerator.contract) (ht : e.session.Has t) (hu : d.session.Has u)
    (shape : u.shape = t.shape) : d.Satisfiable u := by
  obtain ⟨env, admits, holds⟩ := satisfiable
  exact ⟨carried e d env, admits_carried source admits d,
    (valueUnder_carried source target ht hu shape).trans holds⟩

end Solver

end FormulaGraph

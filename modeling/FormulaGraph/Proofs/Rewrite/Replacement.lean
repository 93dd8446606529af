import FormulaGraph.Proofs.Term.Shape
import FormulaGraph.Rewrite.Substitution

/-!
Simultaneous replacement by recursion on the tree, without a memory: what it builds on a solver, and
the shape that comes out of it. A replacement is never looked into.
-/

namespace FormulaGraph

namespace Term

mutual
/-- The shape of a term after the keys of a map were replaced in it by their values. -/
def replaced (m : TermMap) : Term → Shape
  | ⟨id, session, op, sort, kind, children⟩ =>
    match m[(⟨id, session, op, sort, kind, children⟩ : Term)]? with
    | some v => v.shape
    | none =>
      if (⟨id, session, op, sort, kind, children⟩ : Term).isValue then
        (⟨id, session, op, sort, kind, children⟩ : Term).shape
      else ⟨op, sort, kind, replacedAll m children⟩
def replacedAll (m : TermMap) : List Term → List Shape
  | [] => []
  | t :: ts => t.replaced m :: replacedAll m ts
end

/-- No key of the map occurs in the term. -/
def Untouched (m : TermMap) (t : Term) : Prop := ∀ a : Term, a.OccursIn t → m[a]? = none

variable {m : TermMap} {t v : Term}

theorem replacedAll_eq_map (m : TermMap) (ts : List Term) :
    replacedAll m ts = ts.map (replaced m) := by
  induction ts with
  | nil => rfl
  | cons t ts ih => rw [replacedAll, ih, List.map_cons]

theorem replaced_key (found : m[t]? = some v) : t.replaced m = v.shape := by
  cases t
  rw [replaced, found]

theorem replaced_value (absent : m[t]? = none) (value : t.isValue = true) :
    t.replaced m = t.shape := by
  cases t
  rw [replaced, absent]
  exact if_pos value

theorem replaced_node (absent : m[t]? = none) (value : t.isValue = false) :
    t.replaced m = ⟨t.op, t.sort, t.kind, t.children.map (replaced m)⟩ := by
  cases t
  rw [replaced, absent, replacedAll_eq_map]
  simp [value]

theorem replaced_of_children (absent : m[t]? = none)
    (children : ∀ c ∈ t.children, c.replaced m = c.shape) : t.replaced m = t.shape := by
  cases value : t.isValue with
  | true => exact replaced_value absent value
  | false => rw [replaced_node absent value, shape_eq, List.map_congr_left children]

theorem Untouched.replaced (untouched : t.Untouched m) : t.replaced m = t.shape := by
  induction t with
  | node t ih =>
    refine replaced_of_children (untouched t .here) fun c hc => ih c hc ?_
    exact fun a ha => untouched a (.inChild hc ha)

end Term

namespace Solver

variable {σ S T : Type} [BEq T] [Hashable T] [Engine σ S T]

mutual
/-- Builds a term anew with the keys of a map replaced in it by their values. -/
def replace (m : TermMap) : Term → Action (Solver σ S T) Term
  | ⟨id, session, op, sort, kind, children⟩ =>
    match m[(⟨id, session, op, sort, kind, children⟩ : Term)]? with
    | some v => return v
    | none => do
      if children.isEmpty || (⟨id, session, op, sort, kind, children⟩ : Term).isValue then
        return ⟨id, session, op, sort, kind, children⟩
      else makeTerm op (← replaceAll m children)
def replaceAll (m : TermMap) : List Term → Action (Solver σ S T) (List Term)
  | [] => return []
  | t :: ts => do
    let u ← replace m t
    return u :: (← replaceAll m ts)
end

theorem replaceAll_eq_mapM (m : TermMap) (ts : List Term) :
    (replaceAll m ts : Action (Solver σ S T) (List Term)) = ts.mapM (replace m) := by
  induction ts with
  | nil => rfl
  | cons t ts ih => rw [replaceAll, ih, List.mapM_cons]

variable {m : TermMap} {t v : Term}

theorem replace_key (found : m[t]? = some v) :
    (replace m t : Action (Solver σ S T) Term) = pure v := by
  cases t
  rw [replace, found]

theorem replace_leaf (absent : m[t]? = none) (leaf : t.children = [] ∨ t.isValue = true) :
    (replace m t : Action (Solver σ S T) Term) = pure t := by
  obtain ⟨id, session, op, sort, kind, children⟩ := t
  rw [replace, absent]
  refine if_pos ?_
  cases leaf with
  | inl none => rw [show children = [] from none, List.isEmpty_nil, Bool.true_or]
  | inr value => rw [value, Bool.or_true]

theorem replace_node (absent : m[t]? = none) (children : t.children ≠ [])
    (value : t.isValue = false) :
    (replace m t : Action (Solver σ S T) Term) = t.children.mapM (replace m) >>= makeTerm t.op := by
  obtain ⟨id, session, op, sort, kind, cs⟩ := t
  rw [replace, absent, replaceAll_eq_mapM]
  exact if_neg (by simpa [value] using children)

end Solver

end FormulaGraph

import FormulaGraph.Proofs.Term.Occurrence
import Mathlib.Data.List.Forall2

/-!
The shape of a term: the tree that is left of it without identifiers and sessions. Two terms have
one shape if operator, sort and kind agree, and the shapes of the children do, one by one and in
order.
-/

namespace FormulaGraph

structure Shape where
  op : Op
  sort : LogicSort
  kind : TermKind
  children : List Shape

namespace Term

mutual
def shape : Term → Shape
  | ⟨_, _, op, sort, kind, children⟩ => ⟨op, sort, kind, shapes children⟩
def shapes : List Term → List Shape
  | [] => []
  | t :: ts => t.shape :: shapes ts
end

theorem shapes_eq_map (ts : List Term) : shapes ts = ts.map shape := by
  induction ts with
  | nil => rfl
  | cons t ts ih => rw [shapes, ih, List.map_cons]

theorem shape_eq (t : Term) : t.shape = ⟨t.op, t.sort, t.kind, t.children.map shape⟩ := by
  cases t
  rw [shape, shapes_eq_map]

theorem shape_eq_iff {t u : Term} : t.shape = u.shape ↔
    t.op = u.op ∧ t.sort = u.sort ∧ t.kind = u.kind ∧
      t.children.map shape = u.children.map shape := by
  rw [shape_eq, shape_eq, Shape.mk.injEq]

theorem sorts_of_shapes {ts us : List Term} (same : ts.map shape = us.map shape) :
    ts.map sort = us.map sort := by
  have sorts : ∀ ts : List Term, ts.map sort = (ts.map shape).map Shape.sort := by
    simp [shape_eq]
  rw [sorts, same, ← sorts]

theorem forall₂_of_shapes {ts us : List Term} (same : us.map shape = ts.map shape) :
    List.Forall₂ (fun u t => u.shape = t.shape) us ts := by
  rw [← List.forall₂_eq_eq_eq, List.forall₂_map_left_iff, List.forall₂_map_right_iff] at same
  exact same

theorem OccursIn.of_shape {a t u : Term} (occurs : a.OccursIn u) (shape : u.shape = t.shape) :
    ∃ b : Term, b.OccursIn t ∧ a.shape = b.shape := by
  induction occurs generalizing t with
  | here => exact ⟨t, .here, shape⟩
  | inChild hc _ ih =>
    have shapes := (shape_eq_iff.mp shape).2.2.2
    obtain ⟨k, hk, same⟩ := List.mem_map.mp (shapes ▸ List.mem_map_of_mem hc)
    obtain ⟨b, occurs, shape'⟩ := ih same.symm
    exact ⟨b, .inChild hk occurs, shape'⟩

end Term

end FormulaGraph

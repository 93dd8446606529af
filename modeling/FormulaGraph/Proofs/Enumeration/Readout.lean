import FormulaGraph.Proofs.Enumeration.Additions
import FormulaGraph.Proofs.Enumeration.Contract

/-!
Reading a model off the enumerating engine. A truth value or a bit-vector is answered as a node with
its literal, an array as its first cell and the cells that differ from it, in the order of the
index.
-/

namespace FormulaGraph

/-- The elements of the sort have literals. -/
def LogicSort.IsScalar : LogicSort → Prop
  | .bool | .bitVec _ => True
  | _ => False

namespace Datum

/-- The literal of a truth value or a bit-vector. -/
def literal? : Datum → Option Literal
  | bool b => some (.bool b)
  | bitVec w bits => some (.ofBits w bits)
  | array _ => none

theorem fits_of_holds {sort : LogicSort} {x : Datum} {l : Literal} (told : x.literal? = some l)
    (holds : sort.Holds x) : l.fits sort = true := by
  cases x with
  | bool b =>
    cases told
    cases sort with
    | bool => rfl
    | _ => cases holds
  | bitVec v bits =>
    cases told
    cases sort with
    | bitVec w =>
      obtain ⟨rfl, -⟩ := holds
      simp [Literal.fits, Literal.ofBits]
    | _ => cases holds
  | array => cases told

/-- The cells that differ from a base, each with its position, counted from the first one. -/
def differences (base : Datum) : Nat → List Datum → List (Nat × Datum)
  | _, [] => []
  | i, x :: xs =>
    if x = base then differences base (i + 1) xs else (i, x) :: differences base (i + 1) xs

variable {base : Datum} {i : Nat} {xs : List Datum}

theorem bounds_of_difference {p : Nat × Datum} (hp : p ∈ differences base i xs) :
    i ≤ p.1 ∧ p.1 < i + xs.length ∧ p.2 ∈ xs := by
  induction xs generalizing i with
  | nil => exact absurd hp List.not_mem_nil
  | cons x xs ih =>
    have later : p ∈ differences base (i + 1) xs →
        i ≤ p.1 ∧ p.1 < i + (x :: xs).length ∧ p.2 ∈ x :: xs := fun hp => by
      obtain ⟨low, high, cell⟩ := ih hp
      refine ⟨Nat.le_of_succ_le low, ?_, List.mem_cons_of_mem _ cell⟩
      rw [List.length_cons]
      omega
    rw [differences] at hp
    split at hp
    · exact later hp
    · cases List.mem_cons.mp hp with
      | inl same => simp [same]
      | inr hp => exact later hp

theorem differences_increase (base : Datum) (i : Nat) (xs : List Datum) :
    ((differences base i xs).map Prod.fst).Pairwise (· < ·) := by
  induction xs generalizing i with
  | nil => exact .nil
  | cons x xs ih =>
    rw [differences]
    split
    · exact ih (i + 1)
    · refine .cons (List.forall_mem_map.mpr fun p hp => ?_) (ih (i + 1))
      exact (bounds_of_difference hp).1

/-- Overwriting the cells that differ turns an array that is constant into the one that was read. -/
theorem overwrite_differences (base : Datum) (before xs : List Datum) :
    (differences base before.length xs).foldl (fun cells p => cells.set p.1 p.2)
      (before ++ List.replicate xs.length base) = before ++ xs := by
  induction xs generalizing before with
  | nil => rfl
  | cons x xs ih =>
    have next := ih (before ++ [x])
    rw [List.length_append, List.length_singleton, List.append_assoc, List.append_assoc] at next
    rw [differences, List.length_cons, List.replicate_succ]
    split
    · rename_i same
      rw [← same]
      rw [← same] at next
      exact next
    · rw [List.foldl_cons, List.set_append_right _ _ (Nat.le_refl _),
        Nat.sub_self, List.set_cons_zero]
      exact next

end Datum

namespace Enumerator

open FormulaGraph.Action

variable {e e' : Enumerator} {sort index element : LogicSort} {x : Datum} {n : Handle} {node : Node}
  {env : Assignment}

/-- The node is the literal of this element of the sort. -/
def IsDatum (e : Enumerator) (sort : LogicSort) (x : Datum) (n : Handle) : Prop :=
  ∃ l, x.literal? = some l ∧ e.store.find? n = some (.value l, sort)

theorem IsDatum.later (isDatum : e.IsDatum sort x n) (later : Later e e') :
    e'.IsDatum sort x n := by
  obtain ⟨l, told, found⟩ := isDatum
  exact ⟨l, told, later.store n _ found⟩

theorem addDatum_reads (scalar : sort.IsScalar) (holds : sort.Holds x) (e : Enumerator) :
    Succeeds (addDatum sort x) e fun n e' => e'.IsDatum sort x n ∧ Later e e' := by
  have adds : ∀ l : Literal, x.literal? = some l →
      Succeeds (addValue l sort) e fun n e' => e'.IsDatum sort x n ∧ Later e e' := by
    intro l told
    have known : ∀ c ∈ (Node.value l).operands, c.index < e.store.size := by simp [Node.operands]
    refine ⟨_, _, rfl, ⟨l, told, ?_⟩, NodeStore.extends_push _ _ sort known, rfl⟩
    show (e.store.push _ sort known).2.find? (e.store.push _ sort known).1 = _
    rw [NodeStore.find?_push, if_pos (NodeStore.index_push _ _ _ known)]
  cases x with
  | bool | bitVec => exact adds _ rfl
  | array =>
    cases sort with
    | bool | bitVec => cases holds
    | _ => cases scalar

/-- The nodes of a position and of the cell there. -/
def IsCell (e : Enumerator) (index element : LogicSort) (width : UInt64) (d : Nat × Datum)
    (c : Handle × Handle) : Prop :=
  e.IsDatum index (.ofBits width (BitVec.ofNat 128 d.1)) c.1 ∧ e.IsDatum element d.2 c.2

theorem addCells_reads (width : UInt64) (base : Datum) {cells : List Datum}
    (scalar : element.IsScalar) (holds : ∀ x ∈ cells, element.Holds x) (i : Nat) (e : Enumerator) :
    Succeeds (addCells (.bitVec width) element width base i cells) e fun made e' =>
      List.Forall₂ (e'.IsCell (.bitVec width) element width) (Datum.differences base i cells) made ∧
        Later e e' := by
  induction cells generalizing e i with
  | nil =>
    rw [addCells]
    exact succeeds_pure ⟨.nil, .refl e⟩
  | cons x xs ih =>
    have rest : ∀ y ∈ xs, element.Holds y := fun y hy => holds y (List.mem_cons_of_mem _ hy)
    rw [addCells, Datum.differences]
    split
    · exact ih rest (i + 1) e
    · have bits : (LogicSort.bitVec width).IsScalar := trivial
      refine (addDatum_reads bits (LogicSort.holds_ofBits width _) e).bind ?_
      rintro position e₁ ⟨isPosition, later₁⟩
      refine (addDatum_reads scalar (holds x List.mem_cons_self) e₁).bind ?_
      rintro cell e₂ ⟨isCell, later₂⟩
      refine (ih rest (i + 1) e₂).bind ?_
      rintro made e₃ ⟨others, later₃⟩
      refine succeeds_pure
        ⟨.cons ⟨?_, isCell.later later₃⟩ others, (later₁.trans later₂).trans later₃⟩
      exact isPosition.later (later₂.trans later₃)

theorem valueInModel_ok {p : Datum × LogicSort} (model : e.model = some env)
    (found : e.store.find? n = some (node, sort)) (done : valueInModel n e = .ok p e') :
    e = e' ∧ p.2 = sort ∧ e.store.eval env n = .ok p.1 := by
  rw [valueInModel_of_found model found] at done
  cases valued : e.store.eval env n with
  | error x =>
    rw [valued] at done
    cases done
  | ok x =>
    rw [valued] at done
    cases done
    exact ⟨rfl, rfl, rfl⟩

theorem valueInModel_succeeds (model : e.model = some env)
    (found : e.store.find? n = some (node, sort))
    (valued : e.store.eval env n = .ok x) : valueInModel n e = .ok (x, sort) e := by
  rw [valueInModel_of_found model found, valued]
  rfl

theorem getValue_succeeds (sound : e.Sound) (scalar : sort.IsScalar) (model : e.model = some env)
    (found : e.store.find? n = some (node, sort)) (valued : e.store.eval env n = .ok x) :
    Succeeds (getValue n) e fun m e' => e'.IsDatum sort x m := by
  have holds := NodeStore.holds_eval sound.sorted (sound.model env model) found valued
  rw [getValue, Succeeds, bind_ok (valueInModel_succeeds model found valued)]
  exact (addDatum_reads scalar holds e).mono fun _ _ h => h.1

theorem valued_of_getValue (model : e.model = some env)
    (found : e.store.find? n = some (node, sort)) {m : Handle}
    (done : getValue n e = .ok m e') : ∃ x, e.store.eval env n = .ok x := by
  obtain ⟨⟨x, sort'⟩, e₁, read, -⟩ := of_bind_ok done
  exact ⟨x, (valueInModel_ok model found read).2.2⟩

theorem valued_of_getArrayValues (model : e.model = some env)
    (found : e.store.find? n = some (node, sort))
    {raw : ArrayModel Handle} (done : getArrayValues n e = .ok raw e') :
    ∃ x, e.store.eval env n = .ok x := by
  obtain ⟨⟨x, sort'⟩, e₁, read, -⟩ := of_bind_ok done
  exact ⟨x, (valueInModel_ok model found read).2.2⟩

theorem getArrayValues_succeeds (sound : e.Sound) (scalar : element.IsScalar)
    (model : e.model = some env)
    (honest : e.faulty = false) (found : e.store.find? n = some (node, .array index element))
    (valued : e.store.eval env n = .ok x) :
    Succeeds (getArrayValues n) e fun raw e' => ∃ w first rest b, index = .bitVec w ∧
      (first :: rest).length = 1 <<< w.toNat ∧ x = .array (first :: rest) ∧ raw.base = some b ∧
      e'.IsDatum element first b ∧
      List.Forall₂ (e'.IsCell index element w) (Datum.differences first 1 rest) raw.cells := by
  have holds := NodeStore.holds_eval sound.sorted (sound.model env model) found valued
  obtain ⟨w, cells, rfl, rfl, length, each⟩ := LogicSort.eq_array_of_holds holds
  cases cells with
  | nil =>
    rw [Nat.one_shiftLeft] at length
    exact absurd length (Nat.ne_of_lt (Nat.two_pow_pos _))
  | cons first rest =>
    obtain ⟨head, tail⟩ := List.forall_mem_cons.mp each
    obtain ⟨b, e₁, based, isBase, later₁⟩ := addDatum_reads scalar head e
    obtain ⟨made, e₂, added, areCells, later₂⟩ := addCells_reads w first scalar tail 1 e₁
    have honest₂ : e₂.faulty = false := by
      rw [((builds_addCells _ _ _ _ _ _ e₁).answer added).1.faulty,
        ((builds_addDatum _ _ e).answer based).1.faulty, honest]
    rw [getArrayValues, Succeeds, bind_ok (valueInModel_succeeds model found valued)]
    show Succeeds (addDatum element first >>= fun base => do
      let cells ← addCells (.bitVec w) element w first 1 rest
      return ⟨if (← get).faulty then none else some base, cells⟩ :
        Action Enumerator (ArrayModel Handle)) e _
    rw [Succeeds, bind_ok based, bind_ok added]
    refine ⟨⟨some b, made⟩, e₂, ?_, w, first, rest, b, rfl, length, rfl, rfl,
      isBase.later later₂, areCells⟩
    show (pure ⟨if e₂.faulty then none else some b, made⟩ : Action Enumerator (ArrayModel Handle))
      e₂ = _
    rw [honest₂]
    rfl

end Enumerator

end FormulaGraph

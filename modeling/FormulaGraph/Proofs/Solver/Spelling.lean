import FormulaGraph.Proofs.Enumeration.Readout
import FormulaGraph.Proofs.Solver.Verdicts

/-!
Terms that spell out a datum: a literal does so for a truth value or a bit-vector, a constant array
that is overwritten in the order of the index for an array. They are closed, their value is the
datum whatever the symbols stand for, and a session has one of them for each datum of a sort.
-/

namespace FormulaGraph

/-- The sorts whose elements have a spelling: truth values, bit-vectors, and arrays of these whose
cells can be counted in a machine word. -/
def LogicSort.IsReadable : LogicSort → Prop
  | .array (.bitVec w) element => w < 64 ∧ element.IsScalar
  | sort => sort.IsScalar

theorem LogicSort.cases_of_readable {sort : LogicSort} (readable : sort.IsReadable) :
    (∃ w element, sort = .array (.bitVec w) element ∧ w < 64 ∧ element.IsScalar) ∨
      ¬ sort.isArray = true ∧ sort.IsScalar := by
  cases sort with
  | array index element =>
    cases index with
    | bitVec w => exact .inl ⟨w, element, rfl, readable⟩
    | _ => cases readable
  | _ => exact .inr ⟨nofun, readable⟩

namespace Datum

/-- The index of a position. -/
def ofPosition (width : UInt64) (p : Nat) : Word := BitVec.ofNat 128 p &&& mask width

variable {w : UInt64} {p : Nat}

theorem toNat_ofPosition (narrow : w < 64) (bound : p < 1 <<< w.toNat) :
    (ofPosition w p).toNat = p := by
  have narrow : w.toNat < 64 := UInt64.lt_iff_toNat_lt.mp narrow
  have small : 2 ^ w.toNat < 2 ^ 128 := Nat.pow_lt_pow_right (by decide) (by omega)
  rw [Nat.one_shiftLeft] at bound
  rw [ofPosition, toNat_and_mask _ (UInt64.le_iff_toNat_le.mpr (by show w.toNat ≤ 128; omega)),
    BitVec.toNat_ofNat, Nat.one_shiftLeft, Nat.mod_eq_of_lt (Nat.lt_trans bound small),
    Nat.mod_eq_of_lt bound]

theorem position_ofPosition (narrow : w < 64) (bound : p < 1 <<< w.toNat) :
    position (ofPosition w p) = p := by
  have narrow' : w.toNat < 64 := UInt64.lt_iff_toNat_lt.mp narrow
  have small : 2 ^ w.toNat < 2 ^ 64 := Nat.pow_lt_pow_right (by decide) narrow'
  rw [position, toNat_ofPosition narrow bound]
  rw [Nat.one_shiftLeft] at bound
  exact Nat.mod_eq_of_lt (Nat.lt_trans bound small)

theorem evalNode_literal {store : NodeStore} {env : Assignment} {n : Handle}
    {sort : LogicSort} {x : Datum}
    {l : Literal} (told : x.literal? = some l) (holds : sort.Holds x) :
    store.evalNode env n sort (.value l) = .ok x := by
  cases x with
  | bool b =>
    cases told
    rfl
  | bitVec v bits =>
    cases told
    cases sort with
    | bitVec w =>
      obtain ⟨rfl, masked⟩ := holds
      show Except.ok (Datum.bitVec v ((bits &&& mask v) &&& mask v)) = _
      rw [masked, masked]
    | _ => cases holds
  | array => cases told

end Datum

namespace Term

variable {u v : Term} {sort : LogicSort} {x : Datum}

/-- The term is the literal of this element of the sort. -/
structure IsLiteral (u : Term) (sort : LogicSort) (x : Datum) : Prop where
  op : u.op = .null
  sort_eq : u.sort = sort
  kind : ∃ l, x.literal? = some l ∧ u.kind = .value l
  children : u.children = []

/-- The literals of a position and of the cell there. -/
structure IsCell (width : UInt64) (element : LogicSort) (d : Nat × Datum) (c : Term × Term) :
    Prop where
  index : c.1.IsLiteral (.bitVec width) (.bitVec width (Datum.ofPosition width d.1))
  cell : c.2.IsLiteral element d.2

/-- The term is the array of this sort that is the same everywhere. -/
structure IsFilled (u : Term) (sort : LogicSort) (fill : Term) : Prop where
  op : u.op = .null
  sort_eq : u.sort = sort
  kind : u.kind = .constArray
  children : u.children = [fill]

/-- The term spells out an element of the sort. -/
inductive Spells (u : Term) : LogicSort → Datum → Prop
  | literal {sort : LogicSort} {x : Datum} (isLiteral : u.IsLiteral sort x) : Spells u sort x
  | chain {w : UInt64} {element : LogicSort} {first : Datum} {rest : List Datum} {fill start : Term}
      {cells : List (Term × Term)} (filled : fill.IsLiteral element first)
      (starts : start.IsFilled (.array (.bitVec w) element) fill)
      (areCells : List.Forall₂ (IsCell w element) (first.differences 1 rest) cells)
      (overwrites : Solver.Overwrites start cells u) :
      Spells u (.array (.bitVec w) element) (.array (first :: rest))

/-- No symbol occurs in the term. -/
def IsClosed (u : Term) : Prop := ∀ a : Term, a.OccursIn u → a.isSymbol = false

theorem isClosed_of_children (kind : ∀ name, u.kind ≠ .symbol name)
    (closed : ∀ c ∈ u.children, c.IsClosed) : u.IsClosed := by
  intro a occurs
  obtain rfl | ⟨c, child, occurs⟩ := occursIn_iff.mp occurs
  · rw [isSymbol, symbolName?]
    split
    · rename_i name same
      exact absurd same (kind name)
    · rfl
  · exact closed c child a occurs

theorem IsLiteral.isClosed (isLiteral : u.IsLiteral sort x) : u.IsClosed := by
  obtain ⟨l, -, kind⟩ := isLiteral.kind
  refine isClosed_of_children (fun name same => ?_) fun c hc => ?_
  · rw [kind] at same
    cases same
  · rw [isLiteral.children] at hc
    cases hc

end Term

namespace Solver

open FormulaGraph.Action

variable {s : Solver Enumerator LogicSort Handle} {u v array last : Term}
    {cells : List (Term × Term)}
  {env : Assignment} {sort element : LogicSort} {x : Datum}

theorem Overwrites.occurs (overwrites : Overwrites array cells last) :
    array.OccursIn last ∧ ∀ c ∈ cells, c.1.OccursIn last ∧ c.2.OccursIn last := by
  induction overwrites with
  | nil => exact ⟨.here, fun c hc => absurd hc List.not_mem_nil⟩
  | @cons array next last i x cells op kind children rest ih =>
    have each : ∀ c ∈ [array, i, x], c.OccursIn last := fun c hc => ih.1.child (children ▸ hc)
    simp only [List.mem_cons, List.not_mem_nil, or_false, forall_eq_or_imp, forall_eq] at each
    refine ⟨each.1, fun c hc => ?_⟩
    cases List.mem_cons.mp hc with
    | inl same => exact same ▸ each.2
    | inr hc => exact ih.2 c hc

theorem Overwrites.isClosed (overwrites : Overwrites array cells last) (closed : array.IsClosed)
    (cellsClosed : ∀ c ∈ cells, c.1.IsClosed ∧ c.2.IsClosed) : last.IsClosed := by
  induction overwrites with
  | nil => exact closed
  | @cons array next last i x cells op kind children rest ih =>
    obtain ⟨⟨index, cell⟩, others⟩ := List.forall_mem_cons.mp cellsClosed
    refine ih (Term.isClosed_of_children (fun name same => ?_) ?_) others
    · rw [kind] at same
      cases same
    · rw [children]
      simp only [List.mem_cons, List.not_mem_nil, or_false, forall_eq_or_imp, forall_eq]
      exact ⟨closed, index, cell⟩

theorem Overwrites.sort_eq (overwrites : Overwrites array cells last)
    (coherent : s.Coherent Enumerator.contract) (has : s.session.Has last) :
    last.sort = array.sort := by
  induction overwrites with
  | nil => rfl
  | @cons array next last i x cells op kind children rest ih =>
    rw [ih has]
    have there := coherent.canonical.has_of_occursIn has rest.occurs.1
    have derived := derived_of_has coherent there kind
    rw [op, children] at derived
    obtain ⟨_, _, -, first, -⟩ := Op.sorts_of_writing (Op.signature_of_resultSort derived)
    exact (Option.some.inj first).symm

theorem Overwrites.unique (overwrites : Overwrites array cells u)
    (others : Overwrites array cells v)
    (coherent : s.Coherent Enumerator.contract) (hu : s.session.Has u) (hv : s.session.Has v) :
    u = v := by
  induction overwrites generalizing v with
  | nil =>
    cases others
    rfl
  | @cons array next u i x cells op kind children rest ih =>
    cases others with
    | @cons _ next' _ _ _ _ op' kind' children' rest' =>
      have there := coherent.canonical.has_of_occursIn hu rest.occurs.1
      have there' := coherent.canonical.has_of_occursIn hv rest'.occurs.1
      have derived := derived_of_has coherent there kind
      have derived' := derived_of_has coherent there' kind'
      rw [op, children] at derived
      rw [op', children', derived] at derived'
      have sorts : next.sort = next'.sort := Option.some.inj (Except.ok.inj derived')
      have same : next = next' := there.eq_of_key there' <| by
        rw [Term.key, Term.key, op, op', sorts, kind, kind', children, children']
      exact ih (same ▸ rest') hu hv

theorem unique_of_literal (first : u.IsLiteral sort x) (second : v.IsLiteral sort x)
    (hu : s.session.Has u) (hv : s.session.Has v) : u = v := by
  obtain ⟨l, told, kind⟩ := first.kind
  obtain ⟨l', told', kind'⟩ := second.kind
  cases told.symm.trans told'
  refine hu.eq_of_key hv ?_
  rw [Term.key, Term.key, first.op, second.op, first.sort_eq, second.sort_eq, kind, kind',
    first.children, second.children]

theorem unique_of_filled {fill : Term} (first : u.IsFilled sort fill)
    (second : v.IsFilled sort fill) (hu : s.session.Has u) (hv : s.session.Has v) : u = v := by
  refine hu.eq_of_key hv ?_
  rw [Term.key, Term.key, first.op, second.op, first.sort_eq, second.sort_eq,
    first.kind, second.kind, first.children, second.children]

theorem unique_of_cells {w : UInt64} {ds : List (Nat × Datum)} {cells cells' : List (Term × Term)}
    (first : List.Forall₂ (Term.IsCell w element) ds cells)
    (second : List.Forall₂ (Term.IsCell w element) ds cells')
    (known : ∀ c ∈ cells, s.session.Has c.1 ∧ s.session.Has c.2)
    (known' : ∀ c ∈ cells', s.session.Has c.1 ∧ s.session.Has c.2) : cells = cells' := by
  induction first generalizing cells' with
  | nil =>
    cases second
    rfl
  | cons isCell _ ih =>
    cases second with
    | cons isCell' rest' =>
      obtain ⟨⟨hi, hx⟩, others⟩ := List.forall_mem_cons.mp known
      obtain ⟨⟨hi', hx'⟩, others'⟩ := List.forall_mem_cons.mp known'
      rw [ih rest' others others', Prod.ext (unique_of_literal isCell.index isCell'.index hi hi')
        (unique_of_literal isCell.cell isCell'.cell hx hx')]

/-- A session has one term that spells out an element of a sort. -/
theorem unique_of_spells (coherent : s.Coherent Enumerator.contract) (first : u.Spells sort x)
    (second : v.Spells sort x) (hu : s.session.Has u) (hv : s.session.Has v) : u = v := by
  have none : ∀ {xs : List Datum} {t : Term} {sort : LogicSort},
      ¬ t.IsLiteral sort (.array xs) := by
    intro xs t sort isLiteral
    obtain ⟨l, told, -⟩ := isLiteral.kind
    cases told
  have below : ∀ {a t : Term}, s.session.Has t → a.OccursIn t → s.session.Has a :=
    coherent.canonical.has_of_occursIn
  cases first with
  | literal isLiteral =>
    cases second with
    | literal isLiteral' => exact unique_of_literal isLiteral isLiteral' hu hv
    | chain => exact absurd isLiteral none
  | chain filled starts areCells overwrites =>
    cases second with
    | literal isLiteral' => exact absurd isLiteral' none
    | chain filled' starts' areCells' overwrites' =>
      obtain ⟨start, cells⟩ := overwrites.occurs
      obtain ⟨start', cells'⟩ := overwrites'.occurs
      have fill := start.child (starts.children ▸ List.mem_singleton_self _)
      have fill' := start'.child (starts'.children ▸ List.mem_singleton_self _)
      obtain rfl := unique_of_literal filled filled' (below hu fill) (below hv fill')
      obtain rfl := unique_of_filled starts starts' (below hu start) (below hv start')
      obtain rfl := unique_of_cells areCells areCells'
        (fun c hc => ⟨below hu (cells c hc).1, below hu (cells c hc).2⟩)
        (fun c hc => ⟨below hv (cells' c hc).1, below hv (cells' c hc).2⟩)
      exact overwrites.unique overwrites' coherent hu hv

theorem valueUnder_literal (coherent : s.Coherent Enumerator.contract) (hu : s.session.Has u)
    (isLiteral : u.IsLiteral sort x) (holds : sort.Holds x) : s.valueUnder env u = .ok x := by
  obtain ⟨n, ns, node, recorded, -, found, built⟩ := coherent.node hu
  obtain ⟨l, told, kind⟩ := isLiteral.kind
  rw [kind] at built
  obtain rfl := built.of_value
  rw [valueUnder_eq (coherent.canonical.numbered u hu) recorded, NodeStore.eval_of_find? found]
  exact Datum.evalNode_literal told (isLiteral.sort_eq.symm ▸ holds)

theorem valueUnder_filled {w : UInt64} {fill : Term} (coherent : s.Coherent Enumerator.contract)
    (hu : s.session.Has u) (narrow : w < 64) (filled : u.IsFilled (.array (.bitVec w) element) fill)
    (value : s.valueUnder env fill = .ok x) :
    s.valueUnder env u = .ok (.array (List.replicate (1 <<< w.toNat) x)) := by
  obtain ⟨n, ns, node, recorded, renders, found, built⟩ := coherent.node hu
  rw [filled.kind] at built
  rw [filled.children] at renders
  obtain ⟨m, rfl, rfl⟩ := built.of_constArray
  have below :=
    (coherent.canonical.children u hu fill (filled.children ▸ List.mem_singleton_self _)).1
  cases renders with
  | cons first _ =>
    rw [valueUnder_eq (coherent.canonical.numbered fill below) first] at value
    have count : NodeStore.cellCount (.array (.bitVec w) element) = .ok (1 <<< w.toNat) :=
      LogicSort.positions_of_lt (UInt64.lt_iff_toNat_lt.mp narrow)
    rw [valueUnder_eq (coherent.canonical.numbered u hu) recorded, NodeStore.eval_of_find? found,
      filled.sort_eq, NodeStore.evalNode, value, bind_of_ok count]
    rfl

theorem valueUnder_store {w : UInt64} {bits : Word} {i y : Term} {xs : List Datum}
    (coherent : s.Coherent Enumerator.contract) (hu : s.session.Has u) (op : u.op = PrimOp.store)
    (kind : u.kind = .application) (children : u.children = [array, i, y])
    (value : s.valueUnder env array = .ok (.array xs))
    (index : s.valueUnder env i = .ok (.bitVec w bits)) (cell : s.valueUnder env y = .ok x) :
    s.valueUnder env u = .ok (.array (xs.set (Datum.position bits) x)) := by
  rw [valueUnder_application coherent hu kind children
    (.cons value (.cons index (.cons cell .nil))), op]
  rfl

theorem Overwrites.valueUnder {w : UInt64} {ds : List (Nat × Datum)} {xs : List Datum}
    (overwrites : Overwrites array cells last) (coherent : s.Coherent Enumerator.contract)
    (has : s.session.Has last) (areCells : List.Forall₂ (Term.IsCell w element) ds cells)
    (narrow : w < 64) (bounds : ∀ d ∈ ds, d.1 < 1 <<< w.toNat ∧ element.Holds d.2)
    (value : s.valueUnder env array = .ok (.array xs)) :
    s.valueUnder env last = .ok (.array (ds.foldl (fun cells d => cells.set d.1 d.2) xs)) := by
  induction overwrites generalizing ds xs with
  | nil =>
    cases areCells
    exact value
  | @cons array next last i y cells op kind children rest ih =>
    cases areCells with
    | @cons d _ ds _ isCell others =>
      obtain ⟨⟨bound, holds⟩, bounds⟩ := List.forall_mem_cons.mp bounds
      have there := coherent.canonical.has_of_occursIn has rest.occurs.1
      have below : ∀ c ∈ [array, i, y], s.session.Has c := fun c hc =>
        (coherent.canonical.children next there c (children ▸ hc)).1
      simp only [List.mem_cons, List.not_mem_nil, or_false, forall_eq_or_imp, forall_eq] at below
      have index : s.valueUnder env i = .ok (.bitVec w (Datum.ofPosition w d.1)) :=
        valueUnder_literal coherent below.2.1 isCell.index (LogicSort.holds_ofBits w _)
      have cell : s.valueUnder env y = .ok d.2 :=
        valueUnder_literal coherent below.2.2 isCell.cell holds
      have next := valueUnder_store coherent there op kind children value index cell
      rw [Datum.position_ofPosition narrow bound] at next
      rw [List.foldl_cons]
      exact ih has others bounds next

/-- A term has the value that it spells out, whatever the symbols stand for. -/
theorem valueUnder_spells (coherent : s.Coherent Enumerator.contract) (hu : s.session.Has u)
    (spells : u.Spells sort x) (readable : sort.IsReadable) (holds : sort.Holds x) :
    s.valueUnder env u = .ok x := by
  cases spells with
  | literal isLiteral => exact valueUnder_literal coherent hu isLiteral holds
  | @chain w element first rest fill start cells filled starts areCells overwrites =>
    have narrow : w < 64 := readable.1
    obtain ⟨⟨_, ⟨⟩, length⟩, each⟩ := holds
    obtain ⟨head, tail⟩ := List.forall_mem_cons.mp each
    have there := coherent.canonical.has_of_occursIn hu overwrites.occurs.1
    have below := (coherent.canonical.children start there fill
      (starts.children ▸ List.mem_singleton_self _)).1
    have constant : s.valueUnder env start = .ok (.array (List.replicate (1 <<< w.toNat) first)) :=
      valueUnder_filled coherent there narrow starts (valueUnder_literal coherent below filled head)
    have bounds : ∀ d ∈ first.differences 1 rest, d.1 < 1 <<< w.toNat ∧ element.Holds d.2 := by
      intro d hd
      obtain ⟨-, bound, cell⟩ := Datum.bounds_of_difference hd
      rw [← length, List.length_cons]
      exact ⟨by omega, tail d.2 cell⟩
    rw [overwrites.valueUnder coherent hu areCells narrow bounds constant, ← length]
    exact congrArg (Except.ok ∘ Datum.array) (Datum.overwrite_differences first [first] rest)

theorem sort_of_spells (coherent : s.Coherent Enumerator.contract) (hu : s.session.Has u)
    (spells : u.Spells sort x) : u.sort = sort := by
  cases spells with
  | literal isLiteral => exact isLiteral.sort_eq
  | chain _ starts _ overwrites => rw [overwrites.sort_eq coherent hu, starts.sort_eq]

theorem isClosed_of_spells (spells : u.Spells sort x) : u.IsClosed := by
  cases spells with
  | literal isLiteral => exact isLiteral.isClosed
  | chain filled starts areCells overwrites =>
    refine overwrites.isClosed (Term.isClosed_of_children (fun name same => ?_) fun c hc => ?_)
      fun c hc => ?_
    · rw [starts.kind] at same
      cases same
    · rw [starts.children, List.mem_singleton] at hc
      exact hc ▸ filled.isClosed
    · obtain ⟨d, -, isCell⟩ := exists_of_forall₂ areCells hc
      exact ⟨isCell.index.isClosed, isCell.cell.isClosed⟩

theorem chain_of_spells (spells : u.Spells sort x) (readable : sort.IsReadable)
    (holds : sort.Holds x)
    (array : sort.isArray = true) : ∃ w fill start cells indices, Term.IsFilled start sort fill ∧
      Overwrites start cells u ∧
      List.Forall₂ (fun c i => c.1.kind = .value (.bitVec w i)) cells indices ∧
      indices.Pairwise (· < ·) := by
  cases spells with
  | literal isLiteral =>
    obtain ⟨l, told, -⟩ := isLiteral.kind
    cases sort with
    | array =>
      obtain ⟨_, _, -, rfl, -⟩ := LogicSort.eq_array_of_holds holds
      cases told
    | _ => cases array
  | @chain w element first rest fill start cells _ starts areCells overwrites =>
    have narrow : w < 64 := readable.1
    obtain ⟨⟨_, ⟨⟩, length⟩, -⟩ := holds
    refine ⟨w, fill, start, cells, (first.differences 1 rest).map fun d =>
      Datum.ofPosition w d.1, starts, overwrites, ?_, ?_⟩
    · refine List.forall₂_map_right_iff.mpr (areCells.flip.imp fun c d isCell => ?_)
      obtain ⟨l, told, kind⟩ := isCell.index.kind
      cases told
      rw [kind, Literal.ofBits, Datum.ofPosition, BitVec.and_assoc, BitVec.and_self]
    · have increase := Datum.differences_increase first 1 rest
      rw [List.pairwise_map] at increase ⊢
      have bound : ∀ d ∈ first.differences 1 rest, d.1 < 1 <<< w.toNat := fun d hd => by
        obtain ⟨-, bound, -⟩ := Datum.bounds_of_difference hd
        rw [← length, List.length_cons]
        omega
      refine increase.imp_of_mem fun {d d'} hd hd' before => ?_
      rw [BitVec.lt_def, Datum.toNat_ofPosition narrow (bound d hd),
        Datum.toNat_ofPosition narrow (bound d' hd')]
      exact before

end Solver

end FormulaGraph

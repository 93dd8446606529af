import FormulaGraph.Proofs.Enumeration.Numbering
import FormulaGraph.Proofs.Solver.EqualLiterals
import FormulaGraph.Proofs.Solver.Verdicts

/-!
Evaluation is sound for sorts. Whatever values of their sorts the symbols have, the value of a term
is an inhabitant of the sort of the term; where there is none, it is for want of an operator or of a
sort that can be counted, or because a word would have to be shifted by its width or more, and never
because a datum is not of the sort that was promised.
-/

namespace FormulaGraph

/-- The positions of an array with this index can be counted, by a shift of one bit. -/
def LogicSort.PositionsFit (index : LogicSort) : Prop := ∀ w, index = .bitVec w → w.toNat < 64

/-- An element of the sort can be read off a number, down to the last cell of an array, without
shifting a word by its width or more. -/
def LogicSort.ShiftsFit : LogicSort → Prop
  | .array index element => index.PositionsFit ∧
    (∀ count step, index.positions = .ok count → element.searchBits = .ok step →
      ∀ i < count, i * step < 128) ∧ element.ShiftsFit
  | _ => True

/-- The node itself has its value without shifting a word by its width or more. -/
def Term.ShiftsFit (a : Term) : Prop :=
  match a.kind with
  | .symbol _ => a.sort.ShiftsFit
  | .value _ => True
  | .constArray => ∀ index, a.sort.index? = some index → index.PositionsFit
  | .application => a.op.shiftsFit (a.children.map Term.sort) = true

/-- The error does not say that an invariant is broken, unless by arithmetic that left its machine
word, as it does not fit. -/
def Error.Outward (fits : Prop) (e : Error) : Prop :=
  e.kind ≠ .internal ∨ e = .internal .overflow ∧ ¬ fits

section Outward

variable {fits fits' : Prop} {e : Error}

theorem Error.Outward.weaken (outward : e.Outward fits) (implies : fits' → fits) :
    e.Outward fits' :=
  outward.imp_right (And.imp_right fun unfit => unfit ∘ implies)

theorem Error.outward_unexpectedSort (expected : String) (found : LogicSort) :
    Error.Outward fits (.unexpectedSort expected found) :=
  .inl (by simp [Error.kind])

theorem Error.outward_unsupported (cause : Limitation) : Error.Outward fits (.unsupported cause) :=
  .inl (by simp [Error.kind])

theorem outward_within {limit n : Nat} (below : fits → n < limit) :
    FailsOnly (Error.Outward fits) (within limit n) := by
  unfold within
  split
  · exact .ok n
  · rename_i above
    exact .error (.inr ⟨rfl, above ∘ below⟩)

theorem FailsOnly.weaken {α : Type} {r : Except Error α}
    (fails : FailsOnly (Error.Outward fits) r) (implies : fits' → fits) :
    FailsOnly (Error.Outward fits') r :=
  fails.mono fun _ outward => outward.weaken implies

end Outward

namespace LogicSort

variable {sort : LogicSort} {bits : Nat}

theorem searchBits_lt (counted : sort.searchBits = .ok bits) : bits < UInt64.size := by
  cases sort with
  | bool =>
    cases counted
    decide
  | bitVec w =>
    cases counted
    exact w.toNat_lt
  | array index element =>
    rw [searchBits] at counted
    obtain ⟨w, -, counted⟩ := ok_of_bind counted
    dsimp only at counted
    split at counted
    · cases counted
    · obtain ⟨step, -, counted⟩ := ok_of_bind counted
      obtain ⟨rfl, below⟩ := within_ok counted
      exact below
  | _ => cases counted

theorem outward_expectBitVec {fits : Prop} (sort : LogicSort) :
    FailsOnly (Error.Outward fits) sort.expectBitVec := by
  unfold expectBitVec
  split
  · exact .ok _
  · exact .error (Error.outward_unexpectedSort _ _)

theorem outward_positions (index : LogicSort) :
    FailsOnly (Error.Outward index.PositionsFit) index.positions :=
  .bind_ok (outward_expectBitVec index) fun w width =>
    .bind (outward_within fun fits => fits w (expectBitVec_ok width)) fun _ => .pure _

/-- Where the bits of an array are too many to be counted, a cell is too far away to be read. -/
theorem outward_searchBits (sort : LogicSort) :
    FailsOnly (Error.Outward sort.ShiftsFit) sort.searchBits := by
  match sort with
  | .bool | .bitVec _ => exact .ok _
  | .array index element =>
    rw [searchBits]
    refine .bind_ok (outward_expectBitVec index) fun w width => ?_
    dsimp only
    split
    · exact .error (Error.outward_unsupported _)
    · rename_i few
      obtain rfl := expectBitVec_ok width
      have small : w.toNat ≤ 8 := UInt64.le_iff_toNat_le.mp (UInt64.not_lt.mp few)
      refine .bind_ok ((outward_searchBits element).weaken fun fits => fits.2.2) fun step counted =>
        outward_within fun fits => ?_
      have reach := fits.2.1 _ step (positions_of_lt (by omega)) counted 1
      rw [Nat.one_shiftLeft] at reach ⊢
      cases positive : w.toNat with
      | zero => simpa using searchBits_lt counted
      | succ n =>
        have many : 1 < 2 ^ w.toNat := Nat.one_lt_two_pow (by omega)
        have cells : 2 ^ w.toNat ≤ 2 ^ 8 := Nat.pow_le_pow_right (by decide) small
        have near : step < 128 := by simpa using reach many
        rw [← positive]
        calc
          2 ^ w.toNat * step ≤ 2 ^ 8 * 128 := Nat.mul_le_mul cells near.le
          _ < UInt64.size := by decide
  | .int | .real | .function _ _ | .uninterpreted _ _ | .datatype _ | .param _ | .unresolved _ =>
    exact .error (Error.outward_unsupported _)

theorem outward_decode (sort : LogicSort) (bits : Nat) :
    FailsOnly (Error.Outward sort.ShiftsFit) (sort.decode bits) := by
  match sort with
  | .bool | .bitVec _ => exact .ok _
  | .array index element =>
    rw [decode]
    refine .bind_ok ((outward_positions index).weaken And.left) fun count positions => ?_
    refine .bind_ok ((outward_searchBits element).weaken fun fits => fits.2.2)
      fun step counted => .bind (.mapM fun i hi => ?_) fun _ => .pure _
    have reach : (array index element).ShiftsFit → i * step < 128 := fun fits =>
      fits.2.1 count step positions counted i (List.mem_range.mp hi)
    exact .bind (outward_within reach) fun _ =>
      (outward_decode element _).weaken fun fits => fits.2.2
  | .int | .real | .function _ _ | .uninterpreted _ _ | .datatype _ | .param _ | .unresolved _ =>
    exact .error (Error.outward_unsupported _)

end LogicSort

namespace Datum

variable {op : Op} {sorts : List LogicSort} {args : List Datum} {sort : LogicSort}

theorem apply_of_not_evaluated (unknown : op.prim.isEvaluated = false) :
    apply op args sort = .error (.unsupported (.opNotEvaluated op.prim)) := by
  obtain ⟨prim, indices⟩ := op
  cases prim with
  | not | and | or | xor | implies | iff | ite | equal | distinct => cases unknown
  | bvNot | bvNeg | bvAnd | bvOr | bvXor | bvAdd | bvSub | bvMul => cases unknown
  | bvUlt | bvUle | bvUgt | bvUge | bvSlt | bvSle => cases unknown
  | concat | extract | zeroExtend | select | store => cases unknown
  | _ => rfl

/-- At elements of the sorts that it was promised, an operator gives a value, or is not known, or
breaks off. -/
theorem outward_apply (fill : Fill sorts args) (result : op.resultSort sorts = .ok (some sort)) :
    FailsOnly (Error.Outward (op.shiftsFit sorts = true)) (apply op args sort) := by
  cases evaluated : op.prim.isEvaluated with
  | true =>
    obtain ⟨x, applied⟩ | ⟨unfit, broken⟩ := apply_ends fill result evaluated
    · rw [applied]
      exact .ok x
    · rw [broken]
      exact .error (.inr ⟨rfl, by simp [unfit]⟩)
  | false =>
    rw [apply_of_not_evaluated evaluated]
    exact .error (Error.outward_unsupported _)

end Datum

theorem NodeStore.outward_cellCount (sort : LogicSort) :
    FailsOnly (Error.Outward (∀ index, sort.index? = some index → index.PositionsFit))
      (cellCount sort) := by
  unfold cellCount
  split
  · exact .ok 1
  · rename_i index array
    exact (LogicSort.outward_positions index).weaken fun fits => fits index array

namespace Solver

variable {s : Solver Enumerator LogicSort Handle} {issued : List Term} {t : Term} {env : Assignment}

/-- A shift overflows in the evaluation of the term: at one of its nodes it breaks off, and to have
a value that node has to shift a word by its width or more. -/
def Overshifts (s : Solver Enumerator LogicSort Handle) (env : Assignment) (t : Term) : Prop :=
  ∃ a : Term, a.OccursIn t ∧ s.valueUnder env a = .error (.internal .overflow) ∧ ¬ a.ShiftsFit

theorem Overshifts.inChild {c : Term} (shifts : s.Overshifts env c) (hc : c ∈ t.children) :
    s.Overshifts env t := by
  obtain ⟨a, occurs, broken, unfit⟩ := shifts
  exact ⟨a, .inChild hc occurs, broken, unfit⟩

/-- Evaluating a term of the session breaks no invariant. -/
theorem outward_valueUnder (coherent : s.Coherent Enumerator.contract)
    (admits : s.engine.store.Admits env) (ht : s.session.Has t) :
    FailsOnly (Error.Outward (¬ s.Overshifts env t)) (s.valueUnder env t) := by
  induction t with
  | node t ih =>
    obtain ⟨n, ns, node, recorded, renders, found, built⟩ := coherent.node ht
    have value : s.valueUnder env t = s.engine.store.evalNode env n t.sort node :=
      (valueUnder_eq (coherent.canonical.numbered t ht) recorded).trans
        (NodeStore.eval_of_find? found)
    have operands : ∀ m ∈ ns, FailsOnly (Error.Outward (¬ s.Overshifts env t))
        (s.engine.store.eval env m) := by
      intro m hm
      obtain ⟨c, hc, recorded'⟩ := exists_of_forall₂ renders hm
      have has := (coherent.canonical.children t ht c hc).1
      rw [← valueUnder_eq (coherent.canonical.numbered c has) recorded']
      exact (ih c hc has).weaken fun fits shifts => fits (shifts.inChild hc)
    have sorted := coherent.mirrored.valid.sorted
    -- What goes wrong at the node itself is told apart from what goes wrong below it.
    have fails : FailsOnly
        (fun e => e.Outward t.ShiftsFit ∨ e.Outward (¬ s.Overshifts env t))
        (s.engine.store.evalNode env n t.sort node) := by
      cases kind : t.kind with
      | symbol name =>
        rw [kind] at built
        obtain rfl := built.of_symbol
        rw [NodeStore.evalNode]
        split
        · exact .ok _
        · refine (LogicSort.outward_decode t.sort 0).mono fun _ outward => .inl (outward.weaken ?_)
          rw [Term.ShiftsFit, kind]
          exact id
      | value l =>
        rw [kind] at built
        obtain rfl := built.of_value
        cases l with
        | bool | bitVec => exact .ok _
        | int | real | other => exact .error (.inl (Error.outward_unsupported _))
      | constArray =>
        rw [kind] at built
        obtain ⟨fill, rfl, rfl⟩ := built.of_constArray
        have counts : FailsOnly (Error.Outward t.ShiftsFit) (NodeStore.cellCount t.sort) := by
          rw [Term.ShiftsFit, kind]
          exact NodeStore.outward_cellCount t.sort
        exact .bind (counts.mono fun _ => .inl) fun _ =>
          .bind ((operands fill List.mem_cons_self).mono fun _ => .inr) fun _ => .pure _
      | application =>
        rw [kind] at built
        obtain rfl := built.of_application
        obtain ⟨sorts, typed, result⟩ := sorted n _ _ found
        refine .bind_ok (.mapM fun m hm => (operands m hm).mono fun _ => .inr)
          fun values valued => ?_
        have fill : Datum.Fill sorts values := by
          refine forall₂_join typed (forall₂_of_mapM valued) ?_
          rintro a ha sort x ⟨inner, foundArg⟩ evaluatedArg
          exact NodeStore.holds_eval sorted admits foundArg evaluatedArg
        refine (Datum.outward_apply fill result).mono fun _ outward => .inl (outward.weaken ?_)
        rw [Term.ShiftsFit, kind, coherent.sorts_of_operands ht renders typed]
        exact id
    intro e broken
    obtain (plain | ⟨rfl, unfit⟩) | outward := fails e (value.symm.trans broken)
    · exact .inl plain
    · exact .inr ⟨rfl, not_not.mpr ⟨t, .here, broken, unfit⟩⟩
    · exact outward

/-- Whatever values of their sorts the symbols have, a term of the session has an inhabitant of its
sort as its value, or it cannot be evaluated, and that breaks no invariant; unless a shift
overflows. -/
theorem valueUnder_sound (run : Run Enumerator.Fresh s issued) (ht : s.session.Has t)
    (admits : s.engine.store.Admits env) (fits : ¬ s.Overshifts env t) :
    (∃ x, s.valueUnder env t = .ok x ∧ t.sort.Inhabits x) ∨
      ∃ e, s.valueUnder env t = .error e ∧ e.kind ≠ .internal := by
  have coherent := (run.coherent Enumerator.contract_honoured).1
  cases value : s.valueUnder env t with
  | ok x =>
    exact .inl ⟨x, rfl,
      LogicSort.inhabits_of_holds _ (holds_of_valueUnder coherent ht admits value)⟩
  | error e =>
    have outward := outward_valueUnder coherent admits ht e value
    exact .inr ⟨e, rfl, outward.resolve_right fun broken => broken.2 fits⟩

/-- A literal of two bits, written with three: its value has the two lowest. -/
theorem valueUnder_sound_overlong : ∃ (s : Solver Enumerator LogicSort Handle) (t : Term),
    t.sort = .bitVec 2 ∧ t.kind = .value (.bitVec 2 7) ∧
      s.valueUnder (fun _ => none) t = .ok (.bitVec 2 3) ∧
      LogicSort.Inhabits (.bitVec 2) (.bitVec 2 3) := by
  have new : Run Enumerator.Fresh
      (Solver.new (Enumerator.new "m") {} : Solver Enumerator LogicSort Handle) [] :=
    .new (Enumerator.fresh_new "m") {}
  have begins := (new.coherent Enumerator.contract_honoured).1
  obtain ⟨t, s, made, -⟩ := makeValue_bits_succeeds (Solver.new (Enumerator.new "m") {}) 2 7
  obtain ⟨kept, has, sort, ⟨l, normal, kind⟩, -⟩ :=
    (keeps_literal Enumerator.contract_honoured begins _ _).answer made
  cases normal
  have longer := new.answer_term (.command (.makeValue (.bitVec 2 7) (.bitVec 2)))
    (fun a ha => absurd ha List.not_mem_nil) rfl made kept.extension.number
  have coherent := (longer.coherent Enumerator.contract_honoured).1
  have value : s.valueUnder (fun _ => none) t = .ok (.bitVec 2 3) := by
    obtain ⟨n, ns, node, recorded, -, found, built⟩ := coherent.node has
    rw [kind] at built
    obtain rfl := built.of_value
    rw [valueUnder_eq (coherent.canonical.numbered t has) recorded, NodeStore.eval_of_find? found]
    rfl
  have leaf : t.children = [] := by
    have formed := coherent.canonical.formed t has
    rw [Term.Formed, kind] at formed
    exact formed.2
  have fits : ¬ s.Overshifts (fun _ => none) t := by
    rintro ⟨a, occurs, broken, -⟩
    obtain rfl : a = t := by simpa [Term.occursIn_iff (t := t), leaf] using occurs
    cases value.symm.trans broken
  obtain ⟨x, given, inhabits⟩ | ⟨e, failed, -⟩ :=
    valueUnder_sound longer has (NodeStore.admits_none _) fits
  · cases value.symm.trans given
    exact ⟨s, t, sort, kind, value, sort ▸ inhabits⟩
  · cases value.symm.trans failed

end Solver

end FormulaGraph

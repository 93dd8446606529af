import FormulaGraph.Proofs.Op.Width

/-!
Where the sort of an application comes from. Unless the operator has a width of its own, it is the
sort of an argument or a part of one, or a basic sort. Hence what all arguments have in common, to
be proper or to be without bit-vectors of no bits, the application has as well; the one operator
that can lose it makes a bit-vector of a number and has an index of zero.
-/

namespace FormulaGraph

/-- The sorts that the checked constructors make, without bit-vectors of no bits and functions of no
arguments. -/
inductive LogicSort.Proper : LogicSort → Prop
  | bool : Proper .bool
  | int : Proper .int
  | real : Proper .real
  | bitVec {w : UInt64} (bits : w ≠ 0) : Proper (.bitVec w)
  | array {index element : LogicSort} (ofIndex : index.Proper) (ofElement : element.Proper) :
      Proper (.array index element)
  | function {domain : List LogicSort} {range : LogicSort} (arguments : domain ≠ [])
      (ofDomain : ∀ sort ∈ domain, sort.Proper) (ofRange : range.Proper) :
        Proper (.function domain range)
  | uninterpreted (name : String) (arity : UInt64) : Proper (.uninterpreted name arity)
  | datatype (name : String) : Proper (.datatype name)
  | param (name : String) : Proper (.param name)
  | unresolved (name : String) : Proper (.unresolved name)

/-- The operator does not make a bit-vector of no bits. -/
def Op.Proper (op : Op) : Prop := op ≠ ⟨.intToBv, .one 0⟩

/-- The sorts that can be had of arguments without measuring anything. -/
inductive Drawn (args : List LogicSort) : LogicSort → Prop
  | argument {s : LogicSort} (given : s ∈ args) : Drawn args s
  | element {index element : LogicSort} (given : .array index element ∈ args) : Drawn args element
  | range {domain : List LogicSort} {range : LogicSort} (given : .function domain range ∈ args) :
      Drawn args range
  | bool : Drawn args .bool
  | int : Drawn args .int
  | real : Drawn args .real
  | bit : Drawn args (.bitVec 1)

/-- The signature gives a bit-vector of no width of its own, and converts to basic sorts only. -/
def Signature.draws : Signature → Bool
  | .concatenation | .extraction | .extension | .repetition | .bitsOfNumber => false
  | .conversion _ target => target.isBool || target.isArith
  | _ => true

theorem PrimOp.draws_signature (p : PrimOp) : p.isMeasured = false → p.signature.draws = true := by
  cases p <;> decide

namespace Op

open LogicSort

variable {op : Op} {args : List LogicSort} {sort : LogicSort} {w : UInt64} {i : Nat}

theorem mem_of_argument (given : op.argument args i = .ok sort) : sort ∈ args := by
  unfold argument at given
  split at given
  · cases given
    exact List.mem_of_getElem? ‹_›
  · cases given

theorem mem_of_commonArith (given : op.commonArith args = .ok sort) : sort ∈ args := by
  obtain ⟨s, first, given⟩ := ok_of_bind given
  obtain ⟨_, _, given⟩ := ok_of_bind given
  obtain ⟨_, _, given⟩ := ok_of_bind given
  cases given
  exact mem_of_argument first

theorem mem_of_commonWidth (given : op.commonWidth args = .ok w) : .bitVec w ∈ args := by
  obtain ⟨s, first, given⟩ := ok_of_bind given
  obtain ⟨v, width, given⟩ := ok_of_bind given
  obtain ⟨_, _, given⟩ := ok_of_bind given
  cases given
  exact eq_of_expectBitVec width ▸ mem_of_argument first

theorem drawn_of_applicationSort (given : op.applicationSort args = .ok sort) :
    Drawn args sort := by
  obtain ⟨s, first, given⟩ := ok_of_bind given
  have member := mem_of_argument first
  cases s with
  | function domain range =>
    dsimp only at given
    split at given
    · cases given
    · obtain ⟨_, _, given⟩ := ok_of_bind given
      cases given
      exact .range member
  | _ => cases given

theorem drawn_of_sortBySignature {signature : Signature} (draws : signature.draws = true)
    (given : op.sortBySignature args signature = .ok (some sort)) : Drawn args sort := by
  cases signature with
  | concatenation | extraction | extension | repetition | bitsOfNumber => cases draws
  | nothing | byEngine => cases given
  | connective | agreement | ordering | bitOrdering =>
    obtain ⟨_, _, given⟩ := ok_of_bind given
    cases given
    exact .bool
  | quantification =>
    obtain ⟨_, _, given⟩ := ok_of_bind given
    obtain ⟨_, _, given⟩ := ok_of_bind given
    cases given
    exact .bool
  | choice =>
    obtain ⟨_, _, given⟩ := ok_of_bind given
    obtain ⟨_, _, given⟩ := ok_of_bind given
    obtain ⟨s, second, given⟩ := ok_of_bind given
    obtain ⟨_, _, given⟩ := ok_of_bind given
    obtain ⟨_, _, given⟩ := ok_of_bind given
    cases given
    exact .argument (mem_of_argument second)
  | application =>
    obtain ⟨s, applied, same⟩ := ok_of_map given
    cases same
    exact drawn_of_applicationSort applied
  | arithmetic =>
    obtain ⟨s, common, same⟩ := ok_of_map given
    cases same
    exact .argument (mem_of_commonArith common)
  | signChange | bitUnary =>
    obtain ⟨s, first, given⟩ := ok_of_bind given
    obtain ⟨_, _, given⟩ := ok_of_bind given
    cases given
    exact .argument (mem_of_argument first)
  | division =>
    obtain ⟨_, _, given⟩ := ok_of_bind given
    cases given
    exact .real
  | integral =>
    obtain ⟨_, _, given⟩ := ok_of_bind given
    cases given
    exact .int
  | numberOfBits =>
    obtain ⟨_, _, given⟩ := ok_of_bind given
    obtain ⟨_, _, given⟩ := ok_of_bind given
    cases given
    exact .int
  | conversion source target =>
    obtain ⟨_, _, given⟩ := ok_of_bind given
    obtain ⟨_, _, given⟩ := ok_of_bind given
    cases given
    cases sort with
    | bool => exact .bool
    | int => exact .int
    | real => exact .real
    | _ => cases draws
  | bitwise =>
    obtain ⟨w, common, same⟩ := ok_of_map given
    cases same
    exact .argument (mem_of_commonWidth common)
  | bitComparison =>
    obtain ⟨_, _, given⟩ := ok_of_bind given
    cases given
    exact .bit
  | reading =>
    obtain ⟨s, first, given⟩ := ok_of_bind given
    obtain ⟨⟨index, element⟩, array, given⟩ := ok_of_bind given
    obtain ⟨_, _, given⟩ := ok_of_bind given
    obtain ⟨_, _, given⟩ := ok_of_bind given
    cases given
    exact .element (eq_of_expectArray array ▸ mem_of_argument first)
  | writing =>
    obtain ⟨s, first, given⟩ := ok_of_bind given
    obtain ⟨_, _, given⟩ := ok_of_bind given
    obtain ⟨_, _, given⟩ := ok_of_bind given
    obtain ⟨_, _, given⟩ := ok_of_bind given
    obtain ⟨_, _, given⟩ := ok_of_bind given
    obtain ⟨_, _, given⟩ := ok_of_bind given
    cases given
    exact .argument (mem_of_argument first)

/-- The sort of an application is measured or drawn from the arguments. -/
theorem origin_of_resultSort (answered : op.resultSort args = .ok (some sort)) :
    (∃ w, sort = .bitVec w ∧ Measures op args w.toNat) ∨ Drawn args sort ∧ op.Proper := by
  cases measured : op.prim.isMeasured with
  | true =>
    obtain ⟨w, same, measures⟩ := measures_of_resultSort measured answered
    exact .inl ⟨w, Option.some.inj same, measures⟩
  | false =>
    have given := (resultSort_eq_ok_iff.mp answered).2.2
    refine .inr ⟨drawn_of_sortBySignature (op.prim.draws_signature measured) given, ?_⟩
    rintro rfl
    cases measured

end Op

/-- Of bit-vectors with bits, only a bit-vector of a number can have none. -/
theorem Measures.ne_zero_iff {op : Op} {args : List LogicSort} {n : Nat}
    (measures : Measures op args n) (bits : ∀ w, .bitVec w ∈ args → w ≠ 0) : n ≠ 0 ↔ op.Proper := by
  have nonzero {w : UInt64} (given : .bitVec w ∈ args) : w.toNat ≠ 0 := fun zero =>
    bits w given (UInt64.toNat_inj.mp zero)
  cases measures with
  | @concat _ widths sorts many =>
    refine iff_of_true ?_ nofun
    cases widths with
    | nil => exact absurd many (by decide)
    | cons w widths =>
      have first : w.toNat ≠ 0 := nonzero (by rw [sorts]; exact List.mem_cons_self)
      rw [List.map_cons, List.sum_cons]
      omega
  | extract => exact iff_of_true (Nat.succ_ne_zero _) nofun
  | extend tag =>
    have first := nonzero List.mem_cons_self
    refine iff_of_true (by omega) ?_
    rintro same
    cases same
    cases tag with | inl same | inr same => cases same
  | repetition often =>
    refine iff_of_true (Nat.mul_ne_zero (nonzero List.mem_cons_self) fun zero => ?_) nofun
    exact often (UInt64.toNat_inj.mp zero)
  | @ofNumber w =>
    refine not_congr ?_
    constructor
    · intro zero
      rw [UInt64.toNat_inj.mp (zero.trans UInt64.toNat_zero.symm)]
    · intro same
      cases same
      rfl

namespace LogicSort

theorem Proper.drawn {args : List LogicSort} {sort : LogicSort} (proper : ∀ s ∈ args, s.Proper)
    (drawn : Drawn args sort) : sort.Proper := by
  cases drawn with
  | argument given => exact proper sort given
  | element given =>
    cases proper _ given with
    | array _ ofElement => exact ofElement
  | range given =>
    cases proper _ given with
    | function _ _ ofRange => exact ofRange
  | bool => exact .bool
  | int => exact .int
  | real => exact .real
  | bit => exact .bitVec (by decide)

mutual
/-- The widths of the bit-vectors in the sort, at any depth. -/
def widths : LogicSort → List UInt64
  | .bitVec w => [w]
  | .array index element => index.widths ++ element.widths
  | .function domain range => allWidths domain ++ range.widths
  | .bool | .int | .real | .uninterpreted _ _ | .datatype _ | .param _ | .unresolved _ => []
def allWidths : List LogicSort → List UInt64
  | [] => []
  | s :: ss => s.widths ++ allWidths ss
end

/-- There is no bit-vector of no bits in the sort. -/
def Positive (s : LogicSort) : Prop := ∀ w ∈ s.widths, 0 < w

instance (s : LogicSort) : Decidable s.Positive := List.decidableBAll _ s.widths

theorem positive_bitVec_iff {w : UInt64} : (bitVec w).Positive ↔ w ≠ 0 := by
  rw [Positive, widths, List.forall_mem_singleton]
  exact UInt64.pos_iff_ne_zero

theorem Positive.element {index element : LogicSort} (positive : (array index element).Positive) :
    element.Positive :=
  fun w hw => positive w (by rw [widths]; exact List.mem_append_right _ hw)

theorem Positive.range {domain : List LogicSort} {range : LogicSort}
    (positive : (function domain range).Positive) : range.Positive :=
  fun w hw => positive w (by rw [widths]; exact List.mem_append_right _ hw)

theorem Positive.drawn {args : List LogicSort} {sort : LogicSort}
    (positive : ∀ s ∈ args, s.Positive) (drawn : Drawn args sort) : sort.Positive := by
  cases drawn with
  | argument given => exact positive sort given
  | element given => exact (positive _ given).element
  | range given => exact (positive _ given).range
  | bool | int | real => exact fun w hw => absurd hw List.not_mem_nil
  | bit => exact positive_bitVec_iff.mpr (by decide)

end LogicSort

namespace Op

open LogicSort

variable {op : Op} {args : List LogicSort} {sort : LogicSort}

/-- What an application gives, of arguments of proper sorts. -/
theorem proper_resultSort (used : op.Proper) (proper : ∀ s ∈ args, s.Proper)
    (given : op.resultSort args = .ok (some sort)) : sort.Proper := by
  obtain ⟨w, rfl, measures⟩ | ⟨drawn, -⟩ := origin_of_resultSort given
  · have bits := (measures.ne_zero_iff fun v hv => ?_).mpr used
    · exact .bitVec fun zero => bits (by rw [zero, UInt64.toNat_zero])
    · cases proper _ hv with
      | bitVec bits => exact bits
  · exact .drawn proper drawn

/-- An application to arguments without bit-vectors of no bits is of a sort without, exactly if the
operator does not make a bit-vector of no bits of a number. -/
theorem resultSort_positive_iff (positive : ∀ s ∈ args, s.Positive)
    (answered : op.resultSort args = .ok (some sort)) : sort.Positive ↔ op.Proper := by
  obtain ⟨w, rfl, measures⟩ | ⟨drawn, used⟩ := origin_of_resultSort answered
  · rw [positive_bitVec_iff, ← measures.ne_zero_iff fun v hv =>
      positive_bitVec_iff.mp (positive _ hv)]
    exact not_congr (UInt64.toNat_inj (b := 0)).symm
  · exact iff_of_true (.drawn positive drawn) used

/-- A row of a table of bit-vectors, read at a bit-vector. -/
theorem resultSort_positive_iff_row :
    (∀ s ∈ [array (.bitVec 3) (.array .int (.bitVec 8)), .bitVec 3], s.Positive) ∧
    Op.resultSort ⟨.select, .none⟩ [.array (.bitVec 3) (.array .int (.bitVec 8)), .bitVec 3] =
      .ok (some (.array .int (.bitVec 8))) ∧
    (array .int (.bitVec 8)).Positive := by
  have positive : ∀ s ∈ [array (.bitVec 3) (.array .int (.bitVec 8)), .bitVec 3],
    s.Positive := by decide
  have answered :
    Op.resultSort ⟨.select, .none⟩ [.array (.bitVec 3) (.array .int (.bitVec 8)), .bitVec 3] =
      .ok (some (.array .int (.bitVec 8))) := rfl
  exact ⟨positive, answered, (resultSort_positive_iff positive answered).mpr
    fun same => by cases same⟩

/-- The integers have no bit-vectors in them, but the bit-vector of no bits is had of one. -/
theorem resultSort_not_positive :
    ¬ ∀ (op : Op) (args : List LogicSort) (sort : LogicSort), (∀ s ∈ args, s.Positive) →
      op.resultSort args = .ok (some sort) → sort.Positive := by
  intro every
  have positive := every ⟨.intToBv, .one 0⟩ [.int] (.bitVec 0) (by decide) rfl
  exact absurd positive (by decide)

end Op

end FormulaGraph

import FormulaGraph.Op.ResultSort
import FormulaGraph.Proofs.Error

/-!
What the requirements on sorts and widths have found when they are met; and computing the sort of an
application is plain: it fails by its arguments alone.
-/

namespace FormulaGraph

namespace LogicSort

variable {F : Error → Prop} (s t : LogicSort)

section Expectations

variable {s t}

theorem eq_of_expectBitVec {w : UInt64} (expected : s.expectBitVec = .ok w) : s = .bitVec w := by
  cases s with
  | bitVec v =>
    cases expected
    rfl
  | _ => cases expected

theorem eq_of_expectArray {index element : LogicSort}
    (expected : s.expectArray = .ok (index, element)) :
    s = .array index element := by
  cases s with
  | array i x =>
    cases expected
    rfl
  | _ => cases expected

theorem failsOnly_expectBool (allowed : F (.unexpectedSort "Bool" s)) : FailsOnly F s.expectBool :=
  .ite (.ok _) (.error allowed)

theorem failsOnly_expectBitVec (allowed : F (.unexpectedSort "BitVec" s)) :
    FailsOnly F s.expectBitVec := by
  unfold expectBitVec
  split
  · exact .ok _
  · exact .error allowed

theorem failsOnly_expectArith (allowed : F (.unexpectedSort "Int or Real" s)) :
    FailsOnly F s.expectArith :=
  .ite (.ok _) (.error allowed)

theorem failsOnly_expectSame (allowed : F (.sortMismatch s t)) : FailsOnly F (s.expectSame t) :=
  .ite (.ok _) (.error allowed)

theorem failsOnly_expectArray (allowed : F (.unexpectedSort "Array" s)) :
    FailsOnly F s.expectArray := by
  unfold expectArray
  split
  · exact .ok _
  · exact .error allowed

end Expectations

theorem plainly_expectBool : Plainly s.expectBool := failsOnly_expectBool trivial

theorem plainly_expectBitVec : Plainly s.expectBitVec := failsOnly_expectBitVec trivial

theorem plainly_expectArith : Plainly s.expectArith := failsOnly_expectArith trivial

theorem plainly_expectSame : Plainly (s.expectSame t) := failsOnly_expectSame trivial

theorem plainly_expectArray : Plainly s.expectArray := failsOnly_expectArray trivial

end LogicSort

namespace Op

open LogicSort

variable (op : Op) (args : List LogicSort)

theorem plainly_argument (i : Nat) : Plainly (op.argument args i) := by
  unfold argument
  split
  · exact .ok _
  · exact .error trivial

theorem plainly_index (i : Nat) : Plainly (op.index i) := by
  unfold index
  split
  · exact .ok _
  · exact .error trivial

omit op in
theorem ok_of_widthOrTooWide {op : Op} {w : UInt64} {o : Option UInt64}
    (fits : op.widthOrTooWide o = .ok w) :
    o = some w := by
  unfold widthOrTooWide at fits
  split at fits
  · cases fits
    rfl
  · cases fits

theorem failsOnly_widthOrTooWide {F : Error → Prop} {op : Op} (allowed : F (.usage (.tooWide op)))
    (w : Option UInt64) : FailsOnly F (op.widthOrTooWide w) := by
  unfold widthOrTooWide
  split
  · exact .ok _
  · exact .error allowed

theorem plainly_widthOrTooWide (w : Option UInt64) : Plainly (op.widthOrTooWide w) :=
  failsOnly_widthOrTooWide trivial w

omit op in
theorem plainly_expectAgreement : Plainly (expectAgreement args) := by
  unfold expectAgreement
  split
  · exact .ok _
  · exact .forM (plainly_expectSame _) _

theorem plainly_commonArith : Plainly (op.commonArith args) :=
  .bind (plainly_argument op args 0) fun s => .bind (plainly_expectArith s) fun _ =>
    .bind (plainly_expectAgreement args) fun _ => .pure s

theorem plainly_commonWidth : Plainly (op.commonWidth args) :=
  .bind (plainly_argument op args 0) fun s => .bind (plainly_expectBitVec s) fun w =>
    .bind (plainly_expectAgreement args) fun _ => .pure w

theorem plainly_totalWidth : Plainly (op.totalWidth args) :=
  .foldlM (fun _ s => .bind (plainly_expectBitVec s) fun _ => plainly_widthOrTooWide op _) args 0

theorem plainly_applicationSort : Plainly (op.applicationSort args) := by
  refine .bind (plainly_argument op args 0) fun s => ?_
  split
  · refine .guard trivial (.bind (.forM ?_ _) fun _ => .pure _)
    exact fun pair => plainly_expectSame _ _
  · exact .error trivial

theorem plainly_extractionSort : Plainly (op.extractionSort args) :=
  .bind (plainly_argument op args 0) fun s => .bind (plainly_expectBitVec s) fun _ =>
    .bind (plainly_index op 0) fun _ => .bind (plainly_index op 1) fun _ =>
      .guard trivial (.pure _)

theorem plainly_repetitionSort : Plainly (op.repetitionSort args) :=
  .bind (plainly_index op 0) fun _ => .guard trivial <|
    .bind (plainly_argument op args 0) fun s => .bind (plainly_expectBitVec s) fun _ =>
      .bind (plainly_widthOrTooWide op _) fun _ => .pure _

theorem plainly_sortBySignature (signature : Signature) :
    Plainly (op.sortBySignature args signature) := by
  have arg := plainly_argument op args
  cases signature with
  | nothing => exact .error trivial
  | byEngine => exact .pure none
  | connective => exact .bind (.forM plainly_expectBool args) fun _ => .pure _
  | choice =>
    exact .bind (arg 0) fun s => .bind (plainly_expectBool s) fun _ => .bind (arg 1) fun _ =>
      .bind (arg 2) fun _ => .bind (plainly_expectSame _ _) fun _ => .pure _
  | agreement => exact .bind (plainly_expectAgreement args) fun _ => .pure _
  | application => exact .map (plainly_applicationSort op args) _
  | arithmetic => exact .map (plainly_commonArith op args) _
  | signChange => exact .bind (arg 0) fun s => .bind (plainly_expectArith s) fun _ => .pure _
  | division | ordering => exact .bind (.discard (plainly_commonArith op args)) fun _ => .pure _
  | integral => exact .bind (.forM (plainly_expectSame _) args) fun _ => .pure _
  | conversion source target =>
    exact .bind (arg 0) fun _ => .bind (plainly_expectSame _ _) fun _ => .pure _
  | concatenation => exact .map (plainly_totalWidth op args) _
  | extraction => exact .map (plainly_extractionSort op args) _
  | bitUnary =>
    exact .bind (arg 0) fun s => .bind (.discard (plainly_expectBitVec s)) fun _ => .pure _
  | bitwise => exact .map (plainly_commonWidth op args) _
  | bitComparison | bitOrdering =>
    exact .bind (.discard (plainly_commonWidth op args)) fun _ => .pure _
  | extension =>
    exact .bind (arg 0) fun s => .bind (plainly_expectBitVec s) fun _ =>
      .bind (plainly_index op 0) fun _ => .map (plainly_widthOrTooWide op _) _
  | repetition => exact .map (plainly_repetitionSort op args) _
  | numberOfBits =>
    exact .bind (arg 0) fun s => .bind (.discard (plainly_expectBitVec s)) fun _ => .pure _
  | bitsOfNumber =>
    exact .bind (arg 0) fun _ => .bind (plainly_expectSame _ _) fun _ =>
      .bind (plainly_index op 0) fun _ => .pure _
  | reading =>
    exact .bind (arg 0) fun s => .bind (plainly_expectArray s) fun _ => .bind (arg 1) fun _ =>
      .bind (plainly_expectSame _ _) fun _ => .pure _
  | writing =>
    exact .bind (arg 0) fun s => .bind (plainly_expectArray s) fun _ => .bind (arg 1) fun _ =>
      .bind (plainly_expectSame _ _) fun _ => .bind (arg 2) fun _ =>
        .bind (plainly_expectSame _ _) fun _ => .pure _
  | quantification =>
    exact .bind (arg _) fun s => .bind (plainly_expectBool s) fun _ => .pure _

theorem plainly_resultSort : Plainly (op.resultSort args) :=
  .ite (.error trivial) (.ite (.error trivial) (plainly_sortBySignature op args _))

theorem resultSort_store (index element : LogicSort) :
    (PrimOp.store : Op).resultSort [.array index element, index, element] =
    .ok (some (.array index element)) := by
  have first : index.expectSame index = .ok () := expectSame_eq_ok_iff.mpr rfl
  have second : element.expectSame element = .ok () := expectSame_eq_ok_iff.mpr rfl
  show (index.expectSame index >>= fun _ => element.expectSame element >>= fun _ => _) = _
  rw [first, bind_of_ok rfl, second]
  rfl

end Op

end FormulaGraph

import FormulaGraph.Error

/-!
Requirements on a sort, each with the error that names what was found instead.
-/

namespace FormulaGraph.LogicSort

def expectBool (s : LogicSort) : Except Error Unit :=
  if s.isBool then .ok () else .error (.unexpectedSort "Bool" s)

/-- The width of a bit-vector sort. -/
def expectBitVec (s : LogicSort) : Except Error UInt64 :=
  match s.width? with
  | some w => .ok w
  | none => .error (.unexpectedSort "BitVec" s)

def expectArith (s : LogicSort) : Except Error Unit :=
  if s.isArith then .ok () else .error (.unexpectedSort "Int or Real" s)

def expectSame (s t : LogicSort) : Except Error Unit :=
  if s = t then .ok () else .error (.sortMismatch s t)

theorem expectSame_eq_ok_iff {s t : LogicSort} : s.expectSame t = .ok () ↔ s = t := by
  unfold expectSame
  split <;> simp_all

/-- The index and element sort of an array sort. -/
def expectArray (s : LogicSort) : Except Error (LogicSort × LogicSort) :=
  match s with
  | .array i e => .ok (i, e)
  | other => .error (.unexpectedSort "Array" other)

end FormulaGraph.LogicSort

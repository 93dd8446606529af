import FormulaGraph.LogicSort.Expect

/-!
The sort of an application.

Each tag follows one of a few signatures; `Op.resultSort` first checks that the operator is well
formed and that the number of arguments is right, then applies the signature. The result is absent
for the datatype operators, whose sort only an engine can tell.
-/

namespace FormulaGraph

/-- What an operator asks of the sorts of its arguments, and which sort it gives. -/
inductive Signature where
  /-- Truth values to a truth value. -/
  | connective
  | choice
  /-- Arguments of one sort to a truth value. -/
  | agreement
  | application
  /-- Numbers of one sort to a number of that sort. -/
  | arithmetic
  | signChange
  | division
  /-- Integers to an integer. -/
  | integral
  | ordering
  | conversion (source target : LogicSort)
  | concatenation
  | extraction
  /-- A bit-vector to one of the same width. -/
  | bitUnary
  | bitwise
  | bitComparison
  | bitOrdering
  | extension
  | repetition
  | numberOfBits
  | bitsOfNumber
  | reading
  | writing
  | quantification
  /-- Known to the engine alone. -/
  | byEngine
  | nothing
  deriving DecidableEq

def PrimOp.signature : PrimOp → Signature
  | .and | .or | .xor | .not | .implies | .iff => .connective
  | .ite => .choice
  | .equal | .distinct => .agreement
  | .apply => .application
  | .plus | .minus | .mult | .pow => .arithmetic
  | .negate | .abs => .signChange
  | .div => .division
  | .intDiv | .mod => .integral
  | .lt | .le | .gt | .ge => .ordering
  | .toReal => .conversion .int .real
  | .toInt => .conversion .real .int
  | .isInt => .conversion .real .bool
  | .concat => .concatenation
  | .extract => .extraction
  | .bvNot | .bvNeg | .rotateLeft | .rotateRight => .bitUnary
  | .bvAnd | .bvOr | .bvXor | .bvNand | .bvNor | .bvXnor | .bvAdd | .bvSub | .bvMul | .bvUdiv
  | .bvSdiv | .bvUrem | .bvSrem | .bvSmod | .bvShl | .bvAshr | .bvLshr => .bitwise
  | .bvComp => .bitComparison
  | .bvUlt | .bvUle | .bvUgt | .bvUge | .bvSlt | .bvSle | .bvSgt | .bvSge => .bitOrdering
  | .zeroExtend | .signExtend => .extension
  | .replicate => .repetition
  | .bvToNat => .numberOfBits
  | .intToBv => .bitsOfNumber
  | .select => .reading
  | .store => .writing
  | .forAll | .thereExists => .quantification
  | .applySelector | .applyTester | .applyConstructor => .byEngine
  | .null => .nothing

namespace Width

/-- The sum of two widths, unless it exceeds what a width can be. -/
def add? (w v : UInt64) : Option UInt64 :=
  if w.toNat + v.toNat < UInt64.size then some (w + v) else none

def mul? (w v : UInt64) : Option UInt64 :=
  if w.toNat * v.toNat < UInt64.size then some (w * v) else none

theorem toNat_of_add? {w v u : UInt64} (h : add? w v = some u) : u.toNat = w.toNat + v.toNat := by
  unfold add? at h
  split at h
  · cases h
    rw [UInt64.toNat_add]
    exact Nat.mod_eq_of_lt ‹_›
  · simp at h

theorem toNat_of_mul? {w v u : UInt64} (h : mul? w v = some u) : u.toNat = w.toNat * v.toNat := by
  unfold mul? at h
  split at h
  · cases h
    rw [UInt64.toNat_mul]
    exact Nat.mod_eq_of_lt ‹_›
  · simp at h

end Width

namespace Op

/-- The sort of an argument; the arity check makes sure that there is one. -/
def argument (op : Op) (args : List LogicSort) (i : Nat) : Except Error LogicSort :=
  match args[i]? with
  | some s => .ok s
  | none => .error (.internal (.missingArgument op i))

def index (op : Op) (i : Nat) : Except Error UInt64 :=
  match op.index? i with
  | some x => .ok x
  | none => .error (.usage (.missingIndex op i))

/-- A width, or the refusal of one that is out of range. -/
def widthOrTooWide (op : Op) (w : Option UInt64) : Except Error UInt64 :=
  match w with
  | some w => .ok w
  | none => .error (.usage (.tooWide op))

/-- All arguments have the sort of the first. -/
def expectAgreement (args : List LogicSort) : Except Error Unit :=
  match args with
  | [] => .ok ()
  | s :: ss => ss.forM s.expectSame

/-- The common sort of numbers of one sort. -/
def commonArith (op : Op) (args : List LogicSort) : Except Error LogicSort := do
  let s ← op.argument args 0
  s.expectArith
  expectAgreement args
  return s

/-- The common width of bit-vectors of one sort. -/
def commonWidth (op : Op) (args : List LogicSort) : Except Error UInt64 := do
  let s ← op.argument args 0
  let w ← s.expectBitVec
  expectAgreement args
  return w

/-- The sum of the widths of bit-vectors, added from the left. -/
def totalWidth (op : Op) (args : List LogicSort) : Except Error UInt64 :=
  args.foldlM (fun sum s => do
    let w ← s.expectBitVec
    op.widthOrTooWide (Width.add? sum w)) 0

/-- The sort that the function symbol in front gives to its arguments. -/
def applicationSort (op : Op) (args : List LogicSort) : Except Error LogicSort := do
  match ← op.argument args 0 with
  | .function domain range =>
    if domain.length + 1 ≠ args.length then
      throw (.arity op s!"{domain.length + 1}" args.length)
    (domain.zip args.tail).forM fun (d, a) => d.expectSame a
    return range
  | other => throw (.unexpectedSort "Function" other)

/-- The sort of the bits from the high to the low index, both included. -/
def extractionSort (op : Op) (args : List LogicSort) : Except Error LogicSort := do
  let s ← op.argument args 0
  let w ← s.expectBitVec
  let high ← op.index 0
  let low ← op.index 1
  if high ≥ w ∨ low > high then throw (.usage (.extractOutside op s))
  return .bitVec (high - low + 1)

def repetitionSort (op : Op) (args : List LogicSort) : Except Error LogicSort := do
  let times ← op.index 0
  if times = 0 then throw (.usage .emptyRepetition)
  let w ← (← op.argument args 0).expectBitVec
  return .bitVec (← op.widthOrTooWide (Width.mul? w times))

/-- The sort that a signature gives, whatever the number of arguments. -/
def sortBySignature (op : Op) (args : List LogicSort) :
    Signature → Except Error (Option LogicSort)
  | .nothing => throw (.usage .nullApplied)
  | .connective => do
    args.forM LogicSort.expectBool
    return some .bool
  | .choice => do
    (← op.argument args 0).expectBool
    let s ← op.argument args 1
    s.expectSame (← op.argument args 2)
    return some s
  | .agreement => do
    expectAgreement args
    return some .bool
  | .application => some <$> op.applicationSort args
  | .arithmetic => some <$> op.commonArith args
  | .signChange => do
    let s ← op.argument args 0
    s.expectArith
    return some s
  | .division => do
    discard (op.commonArith args)
    return some .real
  | .integral => do
    args.forM (LogicSort.expectSame .int)
    return some .int
  | .ordering => do
    discard (op.commonArith args)
    return some .bool
  | .conversion source target => do
    source.expectSame (← op.argument args 0)
    return some target
  | .concatenation => (some ∘ .bitVec) <$> op.totalWidth args
  | .extraction => some <$> op.extractionSort args
  | .bitUnary => do
    let s ← op.argument args 0
    discard s.expectBitVec
    return some s
  | .bitwise => (some ∘ .bitVec) <$> op.commonWidth args
  | .bitComparison => do
    discard (op.commonWidth args)
    return some (.bitVec 1)
  | .bitOrdering => do
    discard (op.commonWidth args)
    return some .bool
  | .extension => do
    let w ← (← op.argument args 0).expectBitVec
    (some ∘ .bitVec) <$> op.widthOrTooWide (Width.add? w (← op.index 0))
  | .repetition => some <$> op.repetitionSort args
  | .numberOfBits => do
    discard (← op.argument args 0).expectBitVec
    return some .int
  | .bitsOfNumber => do
    LogicSort.int.expectSame (← op.argument args 0)
    return some (.bitVec (← op.index 0))
  | .reading => do
    let (index, element) ← (← op.argument args 0).expectArray
    index.expectSame (← op.argument args 1)
    return some element
  | .writing => do
    let array ← op.argument args 0
    let (index, element) ← array.expectArray
    index.expectSame (← op.argument args 1)
    element.expectSame (← op.argument args 2)
    return some array
  | .quantification => do
    (← op.argument args (args.length - 1)).expectBool
    return some .bool
  | .byEngine => return none

/-- The sort of the operator applied to arguments of these sorts, or nothing where only an engine
can tell it. -/
def resultSort (op : Op) (args : List LogicSort) : Except Error (Option LogicSort) :=
  if !op.isWellFormed then throw (.usage (.malformedOp op))
  else if !op.prim.arity.admits args.length then
    throw (.arity op op.prim.arity.text args.length)
  else op.sortBySignature args op.prim.signature

end Op

end FormulaGraph

import FormulaGraph.Enumeration.Store
import FormulaGraph.LogicSort.Expect

/-!
Evaluation of the enumerating engine's terms under an assignment of data to symbols.

Bit-vector operations are done on whole words and truncated once, to the width of the result. A word
cannot be shifted by all of its 128 bits or more: where an operation would have to, it breaks off. A
symbol without a value has the first element of its sort.
-/

namespace FormulaGraph

/-- A number that has to stay below a limit. -/
def within (limit n : Nat) : Except Error Nat :=
  if n < limit then .ok n else .error (.internal .overflow)

/-- Values of symbols; a symbol may be left without one. -/
abbrev Assignment := Handle → Option Datum

namespace Datum

def asBool : Datum → Except Error Bool
  | .bool b => .ok b
  | other => .error (.internal (.notABoolean other))

/-- The width and the bits of a bit-vector. -/
def asBits : Datum → Except Error (UInt64 × Word)
  | .bitVec w bits => .ok (w, bits)
  | other => .error (.internal (.notABitVector other))

/-- The cells of an array. -/
def asCells : Datum → Except Error (List Datum)
  | .array cells => .ok cells
  | other => .error (.internal (.notAnArray other))

/-- The number that the bits of this width denote in two's complement: the sign is moved to the top
of the word and back. Only the low half of the width is looked at. -/
def signed (width : UInt64) (bits : Word) : Except Error Int := do
  if width = 0 then return 0
  let low ← within 129 width.toUInt32.toNat
  let shift ← within 128 (128 - low)
  return ((bits <<< shift).sshiftRight shift).toInt

/-- Compares bit-vectors by their numbers in two's complement. -/
def signedly (r : Int → Int → Bool) (a b : UInt64 × Word) : Except Error Bool :=
  return r (← signed a.1 a.2) (← signed b.1 b.2)

/-- Combines bit-vectors from the left. -/
def foldBits (f : Word → Word → Word) (width : UInt64) (args : List Datum) :
    Except Error Datum := do
  match ← args.mapM asBits with
  | [] => throw (.internal .cellOutOfRange)
  | (_, first) :: rest => return ofBits width (rest.foldl (fun acc b => f acc b.2) first)

def compareBits (f : UInt64 × Word → UInt64 × Word → Except Error Bool) (args : List Datum) :
    Except Error Datum := do
  match ← args.mapM asBits with
  | a :: b :: _ => return .bool (← f a b)
  | _ => throw (.internal .cellOutOfRange)

/-- Adds a bit-vector below the bits gathered so far. -/
def appendBits (acc : Word) (next : UInt64 × Word) : Except Error Word :=
  return acc <<< (← within 128 next.1.toNat) ||| next.2

def allDistinct : List Datum → Bool
  | [] => true
  | x :: xs => xs.all (x ≠ ·) && allDistinct xs

/-- The position that an index names. -/
def position (bits : Word) : Nat := bits.toNat % UInt64.size

def applyCore (op : Op) (args : List Datum) : Except Error Datum :=
  match op.prim, args with
  | .not, [a] => return .bool (!(← a.asBool))
  | .and, args => return .bool ((← args.mapM asBool).all id)
  | .or, args => return .bool ((← args.mapM asBool).any id)
  | .xor, args => return .bool ((← args.mapM asBool).foldl xor false)
  | .implies, [a, b] => do if ← a.asBool then return .bool (← b.asBool) else return .bool true
  | .iff, [a, b] => do
    let a ← a.asBool
    return .bool (a == (← b.asBool))
  | .ite, [c, a, b] => do if ← c.asBool then return a else return b
  | .equal, args => return .bool ((args.zip args.tail).all fun (a, b) => a = b)
  | .distinct, args => return .bool (allDistinct args)
  | prim, _ => throw (.unsupported (.opNotEvaluated prim))

def applyBits (op : Op) (args : List Datum) (width : UInt64) : Except Error Datum :=
  match op.prim, args with
  | .bvNot, [a] => return ofBits width (~~~(← a.asBits).2)
  | .bvNeg, [a] => return ofBits width (-(← a.asBits).2)
  | .bvAnd, args => foldBits (· &&& ·) width args
  | .bvOr, args => foldBits (· ||| ·) width args
  | .bvXor, args => foldBits (· ^^^ ·) width args
  | .bvAdd, args => foldBits (· + ·) width args
  | .bvSub, args => foldBits (· - ·) width args
  | .bvMul, args => foldBits (· * ·) width args
  | .bvUlt, args => compareBits (fun a b => .ok (a.2 < b.2)) args
  | .bvUle, args => compareBits (fun a b => .ok (a.2 ≤ b.2)) args
  | .bvUgt, args => compareBits (fun a b => .ok (b.2 < a.2)) args
  | .bvUge, args => compareBits (fun a b => .ok (b.2 ≤ a.2)) args
  | .bvSlt, args => compareBits (signedly fun a b => a < b) args
  | .bvSle, args => compareBits (signedly fun a b => a ≤ b) args
  | .concat, args => return ofBits width (← (← args.mapM asBits).foldlM appendBits 0)
  | .extract, [a] => do
    let low := (op.index? 1).getD 0
    return ofBits width ((← a.asBits).2 >>> (← within 128 low.toNat))
  | .zeroExtend, [a] => return ofBits width (← a.asBits).2
  | prim, _ => throw (.unsupported (.opNotEvaluated prim))

def applyArray (op : Op) (args : List Datum) : Except Error Datum :=
  match op.prim, args with
  | .select, [a, i] => do
    let i ← i.asBits
    match (← a.asCells)[position i.2]? with
    | some x => return x
    | none => throw (.internal .cellOutOfRange)
  | .store, [a, i, x] => do
    let cells ← a.asCells
    let i ← i.asBits
    return .array (cells.set (position i.2) x)
  | prim, _ => throw (.unsupported (.opNotEvaluated prim))

/-- The value of an application of this sort. -/
def apply (op : Op) (args : List Datum) (sort : LogicSort) : Except Error Datum :=
  match op.prim with
  | .not | .and | .or | .xor | .implies | .iff | .ite | .equal | .distinct => applyCore op args
  | .select | .store => applyArray op args
  | _ => applyBits op args (sort.width?.getD 0)

end Datum

namespace LogicSort

/-- How many bits tell the elements of the sort apart. -/
def searchBits : LogicSort → Except Error Nat
  | .bool => .ok 1
  | .bitVec w => .ok w.toNat
  | .array index element => do
    let w ← index.expectBitVec
    if w > 8 then throw (.unsupported .wideIndex)
    within UInt64.size (1 <<< w.toNat * (← element.searchBits))
  | other => .error (.unsupported (.notEnumerable other))

/-- How many values a sort has as an index. -/
def positions (index : LogicSort) : Except Error Nat := do
  let w ← index.expectBitVec
  return 1 <<< (← within 64 w.toNat)

/-- The element of the sort that the lowest bits of a number tell. The cells of an array follow each
other, the first one lowest; what lies above the bits of a cell is left for the cell to drop. -/
def decode : LogicSort → Nat → Except Error Datum
  | .bool, bits => .ok (.bool (bits.testBit 0))
  | .bitVec w, bits => .ok (Datum.ofBits w (BitVec.ofNat 128 bits))
  | .array index element, bits => do
    let count ← index.positions
    let step ← element.searchBits
    return .array (← (List.range count).mapM fun i => do
      element.decode (bits >>> (← within 128 (i * step))))
  | other, _ => .error (.unsupported (.notEnumerable other))

end LogicSort

namespace NodeStore

/-- How many cells a constant array of this sort has. -/
def cellCount (sort : LogicSort) : Except Error Nat :=
  match sort.index? with
  | none => .ok 1
  | some index => index.positions

def eval (store : NodeStore) (env : Assignment) (t : Handle) : Except Error Datum :=
  if h : t.index < store.nodes.size then
    match hn : store.nodes[t.index] with
    | (.symbol _, sort) =>
      match env t with
      | some x => .ok x
      | none => sort.decode 0
    | (.value (.bool b), _) => .ok (.bool b)
    | (.value (.bitVec w bits), _) => .ok (Datum.ofBits w bits)
    | (.value other, _) => .error (.unsupported (.literalNotEvaluated other))
    | (.constArray fill, sort) => do
      have : fill.index < t.index := store.operands_lt t.index h fill (by simp [hn, Node.operands])
      let n ← cellCount sort
      return .array (List.replicate n (← store.eval env fill))
    | (.application op args, sort) => do
      have before : ∀ a ∈ args, a.index < t.index := fun a ha =>
        store.operands_lt t.index h a (by simpa [hn, Node.operands] using ha)
      let values ← args.attach.mapM fun ⟨a, ha⟩ =>
        have := before a ha
        store.eval env a
      Datum.apply op values sort
  else .error (.usage (.unknownHandle t.index))
termination_by t.index

end NodeStore

end FormulaGraph

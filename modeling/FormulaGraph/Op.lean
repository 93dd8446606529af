/-!
Operators: a primitive tag with up to two numeric indices.

The module fixes the vocabulary of tags, their written names, how many indices and arguments each
takes, and the order of operators. Which sort an application has is a matter of
`FormulaGraph.Op.ResultSort`.
-/

namespace FormulaGraph

/-- The primitive tags, in their order. -/
inductive PrimOp where
  -- core
  | and | or | xor | not | implies | iff | ite | equal | distinct | apply
  -- arithmetic
  | plus | minus | negate | mult | div | intDiv | lt | le | gt | ge | mod | abs | pow
  | toReal | toInt | isInt
  -- bit-vectors
  | concat | extract | bvNot | bvNeg | bvAnd | bvOr | bvXor | bvNand | bvNor | bvXnor | bvComp
  | bvAdd | bvSub | bvMul | bvUdiv | bvSdiv | bvUrem | bvSrem | bvSmod | bvShl | bvAshr | bvLshr
  | bvUlt | bvUle | bvUgt | bvUge | bvSlt | bvSle | bvSgt | bvSge
  | zeroExtend | signExtend | replicate | rotateLeft | rotateRight | bvToNat | intToBv
  -- arrays
  | select | store
  -- quantifiers
  | forAll | thereExists
  -- datatypes
  | applySelector | applyTester | applyConstructor
  /-- Carried by symbols, literals and constant arrays, which apply nothing. -/
  | null
  deriving DecidableEq, Hashable, Ord, Inhabited

/-- How many arguments a tag takes. -/
structure Arity where
  least : Nat
  /-- No limit if absent. -/
  most : Option Nat
  deriving DecidableEq

namespace Arity

def exactly (n : Nat) : Arity := ⟨n, some n⟩

def atLeast (n : Nat) : Arity := ⟨n, none⟩

def admits (a : Arity) (n : Nat) : Bool :=
  a.least ≤ n && a.most.all (n ≤ ·)

def text (a : Arity) : String :=
  match a.most with
  | none => s!"at least {a.least}"
  | some most => if most = a.least then s!"{most}" else s!"{a.least}..{most}"

end Arity

namespace PrimOp

/-- Every tag, in order. -/
def all : List PrimOp :=
  [and, or, xor, not, implies, iff, ite, equal, distinct, apply, plus, minus, negate, mult, div,
    intDiv, lt, le, gt, ge, mod, abs, pow, toReal, toInt, isInt, concat, extract, bvNot, bvNeg,
    bvAnd, bvOr, bvXor, bvNand, bvNor, bvXnor, bvComp, bvAdd, bvSub, bvMul, bvUdiv, bvSdiv, bvUrem,
    bvSrem, bvSmod, bvShl, bvAshr, bvLshr, bvUlt, bvUle, bvUgt, bvUge, bvSlt, bvSle, bvSgt, bvSge,
    zeroExtend, signExtend, replicate, rotateLeft, rotateRight, bvToNat, intToBv, select, store,
    forAll, thereExists, applySelector, applyTester, applyConstructor, null]

/-- The name under which a tag is written. Binary and unary minus share theirs. -/
def name : PrimOp → String
  | and => "and"
  | or => "or"
  | xor => "xor"
  | not => "not"
  | implies => "=>"
  | iff => "<=>"
  | ite => "ite"
  | equal => "="
  | distinct => "distinct"
  | apply => "apply"
  | plus => "+"
  | minus => "-"
  | negate => "-"
  | mult => "*"
  | div => "/"
  | intDiv => "div"
  | lt => "<"
  | le => "<="
  | gt => ">"
  | ge => ">="
  | mod => "mod"
  | abs => "abs"
  | pow => "pow"
  | toReal => "to_real"
  | toInt => "to_int"
  | isInt => "is_int"
  | concat => "concat"
  | extract => "extract"
  | bvNot => "bvnot"
  | bvNeg => "bvneg"
  | bvAnd => "bvand"
  | bvOr => "bvor"
  | bvXor => "bvxor"
  | bvNand => "bvnand"
  | bvNor => "bvnor"
  | bvXnor => "bvxnor"
  | bvComp => "bvcomp"
  | bvAdd => "bvadd"
  | bvSub => "bvsub"
  | bvMul => "bvmul"
  | bvUdiv => "bvudiv"
  | bvSdiv => "bvsdiv"
  | bvUrem => "bvurem"
  | bvSrem => "bvsrem"
  | bvSmod => "bvsmod"
  | bvShl => "bvshl"
  | bvAshr => "bvashr"
  | bvLshr => "bvlshr"
  | bvUlt => "bvult"
  | bvUle => "bvule"
  | bvUgt => "bvugt"
  | bvUge => "bvuge"
  | bvSlt => "bvslt"
  | bvSle => "bvsle"
  | bvSgt => "bvsgt"
  | bvSge => "bvsge"
  | zeroExtend => "zero_extend"
  | signExtend => "sign_extend"
  | replicate => "repeat"
  | rotateLeft => "rotate_left"
  | rotateRight => "rotate_right"
  | bvToNat => "bv2nat"
  | intToBv => "int2bv"
  | select => "select"
  | store => "store"
  | forAll => "forall"
  | thereExists => "exists"
  | applySelector => "apply_selector"
  | applyTester => "apply_tester"
  | applyConstructor => "apply_constructor"
  | null => "null"

instance : ToString PrimOp := ⟨name⟩

/-- How many indices a well-formed operator with this tag carries. -/
def indexCount : PrimOp → Nat
  | extract => 2
  | zeroExtend | signExtend | replicate | rotateLeft | rotateRight | intToBv => 1
  | _ => 0

def arity : PrimOp → Arity
  | null => .exactly 0
  | not | negate | abs | toReal | toInt | isInt | extract | bvNot | bvNeg | zeroExtend | signExtend
  | replicate | rotateLeft | rotateRight | bvToNat | intToBv => .exactly 1
  | implies | iff | div | intDiv | mod | pow | bvComp | bvUdiv | bvSdiv | bvUrem | bvSrem | bvSmod
  | bvShl | bvAshr | bvLshr | bvUlt | bvUle | bvUgt | bvUge | bvSlt | bvSle | bvSgt | bvSge
  | bvNand | bvNor | bvXnor | select => .exactly 2
  | ite | store => .exactly 3
  | apply | applySelector | applyTester => .atLeast 1
  | applyConstructor => .atLeast 0
  | and | or | xor | equal | distinct | plus | minus | mult | lt | le | gt | ge | concat | bvAnd
  | bvOr | bvXor | bvAdd | bvSub | bvMul | forAll | thereExists => .atLeast 2

end PrimOp

/-- No index comes before one, one before two; of equal number, the first that differs decides. -/
inductive Indices where
  | none
  | one (i : UInt64)
  | two (i j : UInt64)
  deriving DecidableEq, Hashable, Ord, Inhabited

/-- An operator. Two are the same exactly if tag, number of indices and indices agree. -/
structure Op where
  prim : PrimOp
  indices : Indices := .none
  deriving DecidableEq, Hashable, Ord, Inhabited

namespace Op

instance : Coe PrimOp Op := ⟨fun p => ⟨p, .none⟩⟩

def null : Op := ⟨.null, .none⟩

def extract (high low : UInt64) : Op := ⟨.extract, .two high low⟩

def isNull (o : Op) : Bool := o.prim = .null

def indexCount (o : Op) : Nat :=
  match o.indices with
  | .none => 0
  | .one _ => 1
  | .two _ _ => 2

/-- The index at a position counted from zero. -/
def index? (o : Op) (i : Nat) : Option UInt64 :=
  match o.indices, i with
  | .one x, 0 | .two x _, 0 => some x
  | .two _ y, 1 => some y
  | _, _ => none

/-- An operator may be written with too few indices; it is then refused wherever it is applied. -/
def isWellFormed (o : Op) : Bool := o.indexCount = o.prim.indexCount

def text (o : Op) : String :=
  match o.indices with
  | .none => o.prim.name
  | .one i => s!"(_ {o.prim} {i})"
  | .two i j => s!"(_ {o.prim} {i} {j})"

instance : ToString Op := ⟨text⟩

/-- The operator with these indices, if their number is the one the tag asks for. -/
def ofIndices? (prim : PrimOp) (indices : List UInt64) : Option Op :=
  if indices.length = prim.indexCount then
    match indices with
    | [] => some ⟨prim, .none⟩
    | [i] => some ⟨prim, .one i⟩
    | [i, j] => some ⟨prim, .two i j⟩
    | _ => none
  else none

theorem isWellFormed_of_ofIndices? {prim : PrimOp} {indices : List UInt64} {o : Op}
    (h : ofIndices? prim indices = some o) : o.isWellFormed := by
  unfold ofIndices? at h
  split at h
  · rename_i count
    split at h <;> simp_all [isWellFormed, indexCount] <;> subst h <;> simp [← count]
  · simp at h

end Op

end FormulaGraph

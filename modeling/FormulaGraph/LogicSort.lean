/-!
Sorts of formulas, with their written form, decidable equality and the usual views.

Equality is structural. A function sort keeps its argument sorts as a list, which may be empty in a
sort that was only written down; an engine never sees such a sort through the checked
constructors.
-/

namespace FormulaGraph

/-- The coarse category of a sort. -/
inductive SortKind where
  | bool | int | real | bitVec | array | function | uninterpreted | datatype | param | unresolved
  deriving DecidableEq, Hashable, Inhabited

namespace SortKind

def name : SortKind → String
  | bool => "Bool"
  | int => "Int"
  | real => "Real"
  | bitVec => "BitVec"
  | array => "Array"
  | function => "Function"
  | uninterpreted => "Uninterpreted"
  | datatype => "Datatype"
  | param => "Param"
  | unresolved => "Unresolved"

instance : ToString SortKind := ⟨name⟩

end SortKind

inductive LogicSort where
  | bool
  | int
  | real
  | bitVec (width : UInt64)
  | array (index element : LogicSort)
  | function (domain : List LogicSort) (range : LogicSort)
  | uninterpreted (name : String) (arity : UInt64)
  | datatype (name : String)
  /-- A parameter of a parametric datatype. -/
  | param (name : String)
  /-- A forward reference to a datatype that is still being declared. -/
  | unresolved (name : String)
  deriving Inhabited

namespace LogicSort

mutual
def beq : LogicSort → LogicSort → Bool
  | bool, bool | int, int | real, real => true
  | bitVec w, bitVec v => w == v
  | array i e, array j f => beq i j && beq e f
  | function d r, function c q => beqList d c && beq r q
  | uninterpreted n a, uninterpreted m b => n == m && a == b
  | datatype n, datatype m | param n, param m | unresolved n, unresolved m => n == m
  | _, _ => false
def beqList : List LogicSort → List LogicSort → Bool
  | [], [] => true
  | s :: ss, t :: ts => beq s t && beqList ss ts
  | _, _ => false
end

mutual
theorem beq_iff_eq : ∀ s t : LogicSort, beq s t = true ↔ s = t
  | bool, t | int, t | real, t => by cases t <;> simp [beq]
  | bitVec w, t => by cases t <;> simp [beq]
  | array i e, t => by cases t <;> simp [beq, beq_iff_eq i, beq_iff_eq e]
  | function d r, t => by cases t <;> simp [beq, beqList_iff_eq d, beq_iff_eq r]
  | uninterpreted n a, t => by cases t <;> simp [beq]
  | datatype n, t | param n, t | unresolved n, t => by cases t <;> simp [beq]
theorem beqList_iff_eq : ∀ ss ts : List LogicSort, beqList ss ts = true ↔ ss = ts
  | [], ts => by cases ts <;> simp [beqList]
  | s :: ss, ts => by cases ts <;> simp [beqList, beq_iff_eq s, beqList_iff_eq ss]
end

instance : DecidableEq LogicSort := fun s t => decidable_of_iff _ (beq_iff_eq s t)

mutual
def hashCode : LogicSort → UInt64
  | bool => 3
  | int => 5
  | real => 7
  | bitVec w => mixHash 11 (hash w)
  | array i e => mixHash 13 (mixHash i.hashCode e.hashCode)
  | function d r => mixHash 17 (mixHash (hashList d) r.hashCode)
  | uninterpreted n a => mixHash 19 (mixHash (hash n) (hash a))
  | datatype n => mixHash 23 (hash n)
  | param n => mixHash 29 (hash n)
  | unresolved n => mixHash 31 (hash n)
def hashList : List LogicSort → UInt64
  | [] => 37
  | s :: ss => mixHash s.hashCode (hashList ss)
end

instance : Hashable LogicSort := ⟨hashCode⟩

mutual
def text : LogicSort → String
  | bool => "Bool"
  | int => "Int"
  | real => "Real"
  | bitVec w => s!"(_ BitVec {w})"
  | array i e => s!"(Array {i.text} {e.text})"
  | function d r => s!"({domainText d}-> {r.text})"
  | uninterpreted n _ | datatype n | param n => n
  | unresolved n => n ++ "?"
/-- Every argument sort is followed by a blank. -/
def domainText : List LogicSort → String
  | [] => ""
  | s :: ss => s.text ++ " " ++ domainText ss
end

instance : ToString LogicSort := ⟨text⟩

def kind : LogicSort → SortKind
  | bool => .bool
  | int => .int
  | real => .real
  | bitVec _ => .bitVec
  | array _ _ => .array
  | function _ _ => .function
  | uninterpreted _ _ => .uninterpreted
  | datatype _ => .datatype
  | param _ => .param
  | unresolved _ => .unresolved

def isBool (s : LogicSort) : Bool := s.kind = .bool

def isBitVec (s : LogicSort) : Bool := s.kind = .bitVec

def isArray (s : LogicSort) : Bool := s.kind = .array

def isFunction (s : LogicSort) : Bool := s.kind = .function

def isArith (s : LogicSort) : Bool := s.kind = .int || s.kind = .real

def width? : LogicSort → Option UInt64
  | bitVec w => some w
  | _ => none

def index? : LogicSort → Option LogicSort
  | array i _ => some i
  | _ => none

def element? : LogicSort → Option LogicSort
  | array _ e => some e
  | _ => none

def domain? : LogicSort → Option (List LogicSort)
  | function d _ => some d
  | _ => none

def range? : LogicSort → Option LogicSort
  | function _ r => some r
  | _ => none

mutual
/-- Whether a parameter or a forward reference occurs in the sort. -/
def isParametric : LogicSort → Bool
  | param _ | unresolved _ => true
  | array i e => i.isParametric || e.isParametric
  | function d r => anyParametric d || r.isParametric
  | bool | int | real | bitVec _ | uninterpreted _ _ | datatype _ => false
def anyParametric : List LogicSort → Bool
  | [] => false
  | s :: ss => s.isParametric || anyParametric ss
end

end LogicSort

end FormulaGraph

import FormulaGraph.Literal
import FormulaGraph.Op
import Std.Data.HashMap
import Std.Data.HashSet

/-!
Terms: the nodes of the formula graph.

A term knows its children, so it is a tree to look at; the identifiers tell which subtrees are one
node. Terms are compared, hashed and ordered by identifier alone, which is the order in which nodes
were made. That this agrees with comparing trees is what a `FormulaGraph.TermTable` provides.
-/

namespace FormulaGraph

/-- What a node is beside its operator. -/
inductive TermKind where
  | symbol (name : String)
  | value (literal : Literal)
  /-- The array that is everywhere its only child. -/
  | constArray
  | application
  deriving DecidableEq, Hashable, Inhabited

structure Term where
  id : Nat
  /-- The session in which the node was made. -/
  session : Nat
  op : Op
  sort : LogicSort
  kind : TermKind
  children : List Term
  deriving Inhabited

namespace Term

instance : BEq Term := ⟨fun a b => a.id == b.id⟩

instance : Hashable Term := ⟨fun t => hash t.id⟩

theorem beq_iff {a b : Term} : (a == b) = true ↔ a.id = b.id := by
  simp [BEq.beq]

instance : EquivBEq Term where
  rfl := by simp [beq_iff]
  symm := by simp only [beq_iff]; exact Eq.symm
  trans := by simp only [beq_iff]; exact Eq.trans

instance : LawfulHashable Term where
  hash_eq a b h := by simp only [beq_iff] at h; simp [Hashable.hash, h]

/-- The order in which nodes were made. -/
def compare (a b : Term) : Ordering := Ord.compare a.id b.id

/-- Literals and constant arrays, which rewriting leaves alone. -/
def isValue (t : Term) : Bool :=
  match t.kind with
  | .value _ | .constArray => true
  | .symbol _ | .application => false

def symbolName? (t : Term) : Option String :=
  match t.kind with
  | .symbol name => some name
  | _ => none

def literal? (t : Term) : Option Literal :=
  match t.kind with
  | .value l => some l
  | _ => none

def isSymbol (t : Term) : Bool := t.symbolName?.isSome

/-- A symbol that is not a function. -/
def isConstant (t : Term) : Bool := t.isSymbol && !t.sort.isFunction

mutual
/-- The number of nodes of the tree, where a shared node counts at each place. -/
def size : Term → Nat
  | ⟨_, _, _, _, _, children⟩ => 1 + sizes children
def sizes : List Term → Nat
  | [] => 0
  | t :: ts => t.size + sizes ts
end

theorem size_eq (t : Term) : t.size = 1 + sizes t.children := by
  cases t; simp [size]

theorem size_pos (t : Term) : 0 < t.size := by
  rw [size_eq]; omega

theorem sizes_append (ss ts : List Term) : sizes (ss ++ ts) = sizes ss + sizes ts := by
  induction ss with
  | nil => simp [sizes]
  | cons s ss ih => simp [sizes, ih, Nat.add_assoc]

theorem sizes_reverse (ts : List Term) : sizes ts.reverse = sizes ts := by
  induction ts with
  | nil => rfl
  | cons t ts ih => simp [sizes, sizes_append, ih, Nat.add_comm]

end Term

/-- A table from terms to terms. -/
abbrev TermMap := Std.HashMap Term Term

end FormulaGraph

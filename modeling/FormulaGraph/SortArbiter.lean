import FormulaGraph.Memo
import FormulaGraph.Notice
import FormulaGraph.Op.ResultSort
import Std.Data.HashMap

/-!
Which sort a node gets: the one derived from the operator and its arguments where there is one, the
engine's report otherwise.

Derivations are memoised in a table of bounded size, which drops some of them as others are entered.
An engine may treat truth values and one-bit vectors as one sort; only for such an engine is a
report of one in place of the other taken as it was meant.
-/

namespace FormulaGraph

/-- What a table of bounded size drops: whether the derivation at a key goes when another is entered
as the n-th. It is up to the cache, and nothing relies on it; whatever a cache drops in the course
of a session, one of these drops the same. -/
def Eviction := Nat → Op × List LogicSort → Bool

/-- A table that keeps everything. -/
def Eviction.never : Eviction := fun _ _ => false

structure SortArbiter where
  /-- Whether the engine treats truth values and one-bit vectors as one sort. -/
  aliasing : Bool
  memo : Std.HashMap (Op × List LogicSort) (Option LogicSort) := {}
  evicts : Eviction := .never
  /-- How many derivations have been entered. -/
  entered : Nat := 0

namespace SortArbiter

/-- Enters a derivation, and drops what goes for it. -/
def remember (op : Op) (args : List LogicSort) (sort : Option LogicSort) (a : SortArbiter) :
    SortArbiter :=
  { a with
    memo := (a.memo.insert (op, args) sort).filter fun key _ => !a.evicts a.entered key
    entered := a.entered + 1 }

instance : Memo SortArbiter (Op × List LogicSort) (Option LogicSort) where
  ask key a := (a.memo[key]?, a)
  tell key sort a := a.remember key.1 key.2 sort

/-- The derived sort of an application, with what was derived before kept in a table; failures are
not remembered. -/
def derive {μ : Type} [Memo μ (Op × List LogicSort) (Option LogicSort)] (op : Op)
    (args : List LogicSort) :
    Action μ (Option LogicSort) :=
  Memo.consult (fun key => key.1.resultSort key.2) (op, args)

/-- Whether an engine's term of sort `reported` may stand for one of sort `expected`. -/
def compatible (a : SortArbiter) (expected reported : LogicSort) : Bool :=
  expected = reported ||
    a.aliasing &&
      match expected, reported with
      | .bool, .bitVec 1 | .bitVec 1, .bool => true
      | _, _ => false

/-- The sort to record, and what there is to report about the choice. -/
def reconcile (a : SortArbiter) (op : Op) (derived : Option LogicSort) (reported : LogicSort) :
    LogicSort × Option Notice :=
  match derived with
  | none => (reported, none)
  | some derived =>
    if !a.compatible derived reported then (derived, some (.reportConflicts op reported derived))
    else if derived ≠ reported then (derived, some (.reportDiffers op reported derived))
    else (derived, none)

/-- Reads a one-bit literal of a truth value as what it stands for. -/
def coerce (a : SortArbiter) (sort : LogicSort) (l : Literal) : Literal :=
  match sort, l with
  | .bool, .bitVec 1 bits => if a.aliasing then .bool (bits = 1#128) else l
  | _, l => l

end SortArbiter

end FormulaGraph

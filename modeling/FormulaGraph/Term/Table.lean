import FormulaGraph.Term

/-!
Tables of canonical terms, one for every structure.

A term's key holds its children by identifier, so two terms with one key have the same children as
nodes. A table is only ever emptied as a whole.
-/

namespace FormulaGraph

/-- What tells canonical terms apart. -/
structure TermKey where
  op : Op
  sort : LogicSort
  kind : TermKind
  children : List Nat
  deriving DecidableEq, Hashable

def Term.key (t : Term) : TermKey := ⟨t.op, t.sort, t.kind, t.children.map Term.id⟩

structure TermTable where
  entries : Std.HashMap TermKey Term := {}

namespace TermTable

instance : Inhabited TermTable := ⟨{}⟩

/-- The canonical term with the structure of the candidate. -/
def find? (table : TermTable) (candidate : Term) : Option Term := table.entries[candidate.key]?

/-- Makes a term canonical, unless its structure has a canonical term already. The answer tells
whether it was added. -/
def insert (table : TermTable) (t : Term) : Bool × TermTable :=
  match table with
  | ⟨entries⟩ =>
    let (known, entries) := entries.containsThenInsertIfNew t.key t
    (!known, ⟨entries⟩)

def size (table : TermTable) : Nat := table.entries.size

def isEmpty (table : TermTable) : Bool := table.entries.isEmpty

theorem find?_insert (table : TermTable) (t u : Term) :
    (table.insert t).2.find? u =
      if t.key = u.key then some ((table.find? t).getD t) else table.find? u := by
  simp only [insert, find?, Std.HashMap.containsThenInsertIfNew_snd,
    Std.HashMap.getElem?_insertIfNew]
  by_cases same : t.key = u.key
  · by_cases known : u.key ∈ table.entries <;> simp [same, known]
  · simp [same]

theorem size_insert (table : TermTable) (t : Term) :
    (table.insert t).2.size = table.size + if (table.insert t).1 then 1 else 0 := by
  simp only [insert, size, Std.HashMap.containsThenInsertIfNew_fst,
    Std.HashMap.containsThenInsertIfNew_snd]
  rw [Std.HashMap.size_insertIfNew]
  by_cases known : t.key ∈ table.entries <;> simp [known]

end TermTable

end FormulaGraph

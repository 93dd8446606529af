import FormulaGraph.Literal

/-!
The elements of the sorts that can be enumerated: truth values, bit-vectors, and arrays given by all
of their cells in the order of the index.
-/

namespace FormulaGraph

inductive Datum where
  | bool (b : Bool)
  | bitVec (width : UInt64) (bits : Word)
  | array (cells : List Datum)
  deriving Inhabited

namespace Datum

mutual
def beq : Datum → Datum → Bool
  | bool a, bool b => a == b
  | bitVec w a, bitVec v b => w == v && a == b
  | array xs, array ys => beqCells xs ys
  | _, _ => false
def beqCells : List Datum → List Datum → Bool
  | [], [] => true
  | x :: xs, y :: ys => beq x y && beqCells xs ys
  | _, _ => false
end

mutual
theorem beq_iff_eq : ∀ x y : Datum, beq x y = true ↔ x = y
  | bool a, y => by cases y <;> simp [beq]
  | bitVec w a, y => by cases y <;> simp [beq]
  | array xs, y => by cases y <;> simp [beq, beqCells_iff_eq xs]
theorem beqCells_iff_eq : ∀ xs ys : List Datum, beqCells xs ys = true ↔ xs = ys
  | [], ys => by cases ys <;> simp [beqCells]
  | x :: xs, ys => by cases ys <;> simp [beqCells, beq_iff_eq x, beqCells_iff_eq xs]
end

instance : DecidableEq Datum := fun x y => decidable_of_iff _ (beq_iff_eq x y)

/-- The bit-vector of this width, its bits truncated to it. -/
def ofBits (width : UInt64) (bits : Word) : Datum :=
  .bitVec width (bits &&& mask width)

mutual
/-- The form in which a datum is named in a report of a broken invariant. -/
def text : Datum → String
  | bool b => s!"Bool({b})"
  | bitVec w bits => s!"BitVec({w}, {bits.toNat})"
  | array xs => s!"Array([{cellsText xs}])"
def cellsText : List Datum → String
  | [] => ""
  | [x] => x.text
  | x :: xs => x.text ++ ", " ++ cellsText xs
end

instance : ToString Datum := ⟨text⟩

end Datum

end FormulaGraph

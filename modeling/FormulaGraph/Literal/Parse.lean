import FormulaGraph.Error
import FormulaGraph.Literal.Numeral

/-!
Reading a literal of a given sort from its text in a given base.
-/

namespace FormulaGraph.Literal

/-- A negative numeral wraps around at a bit-vector sort: the bits are the two's complement of the
magnitude, truncated to the width. -/
def readBits? (width : UInt64) (base : Nat) (cs : List Char) : Option Literal :=
  match cs with
  | '-' :: cs => (Numeral.unsigned? base cs).map fun bits => ofBits width (-bits)
  | cs => (Numeral.unsigned? base cs).map (ofBits width)

/-- Only Bool, Int and bit-vectors have literals that can be read. A truth value is a word or a
digit, whatever the base. -/
def parse (repr : String) (sort : LogicSort) (base : Nat) : Except Error Literal :=
  if base < 2 ∨ 36 < base then .error (.usage (.unknownBase base))
  else
    let read (found : Option Literal) : Except Error Literal :=
      match found with
      | some l => .ok l
      | none => .error (.usage (.notANumeral repr base sort))
    match sort with
    | .bool =>
      read (if repr = "true" ∨ repr = "1" then some (.bool true)
        else if repr = "false" ∨ repr = "0" then some (.bool false)
        else none)
    | .int => read ((Numeral.signed? base repr.toList).map .int)
    | .bitVec w => read (readBits? w base repr.toList)
    | _ => .error (.unsupported (.literalsOf sort))

end FormulaGraph.Literal

import FormulaGraph.Error

/-!
The normal form of a literal as an element of a sort: an integer is a fraction over one at sort
Real, and a fraction is in lowest terms with a positive denominator.
-/

namespace FormulaGraph.Literal

/-- The magnitude of a component of a reduced fraction, with its sign. The limit is on the
magnitude, so the one negative number without a positive counterpart is out of range as well. -/
def signedComponent? (negative : Bool) (magnitude : Nat) : Option Int128 :=
  if magnitude < 1 <<< 127 then
    Int128.ofInt? (if negative then -(magnitude : Int) else magnitude)
  else none

/-- The fraction in lowest terms with a positive denominator; the denominator must not be zero. -/
def lowestTerms? (numer denom : Int) : Option Literal := do
  let g := Nat.gcd numer.natAbs denom.natAbs
  let p ← signedComponent? ((numer < 0) != (denom < 0)) (numer.natAbs / g)
  let q ← signedComponent? false (denom.natAbs / g)
  return .real p q

/-- The error names the literal as it was given. -/
def reduce (l : Literal) (numer denom : Int128) : Except Error Literal :=
  if denom = 0 then .error (.usage (.zeroDenominator l))
  else
    match lowestTerms? numer.val denom.val with
    | some reduced => .ok reduced
    | none => .error (.usage (.outOfRange l))

/-- Fractions are reduced whatever the sort; integers become fractions only as reals. -/
def normalize (l : Literal) (sort : LogicSort) : Except Error Literal :=
  match l, sort with
  | .int n, .real => reduce l n 1
  | .real p q, _ => reduce l p q
  | _, _ => .ok l

end FormulaGraph.Literal

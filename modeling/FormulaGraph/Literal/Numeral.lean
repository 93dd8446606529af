import FormulaGraph.Literal

/-!
Numerals: digits in a base from 2 to 36, read as numbers of 128 bits.

Letters of either case stand for the digits from ten on. A numeral has at least one digit and may
have a sign in front: only plus if it is unsigned, plus or minus if it is signed.
-/

namespace FormulaGraph.Numeral

/-- What a character is worth as a digit, if it is one in some base up to 36. -/
def digitValue? (c : Char) : Option Nat :=
  if '0' ≤ c ∧ c ≤ '9' then some (c.toNat - '0'.toNat)
  else if 'a' ≤ c ∧ c ≤ 'z' then some (c.toNat - 'a'.toNat + 10)
  else if 'A' ≤ c ∧ c ≤ 'Z' then some (c.toNat - 'A'.toNat + 10)
  else none

def digit? (base : Nat) (c : Char) : Option Nat :=
  (digitValue? c).filter (· < base)

/-- The number whose leading digits are already read as `n`. -/
def continue? (base n : Nat) : List Char → Option Nat
  | [] => some n
  | c :: cs => do
    let d ← digit? base c
    continue? base (n * base + d) cs

/-- The number that the digits spell; there has to be one. -/
def digits? (base : Nat) : List Char → Option Nat
  | [] => none
  | cs => continue? base 0 cs

/-- Drops a leading plus. -/
def dropPlus : List Char → List Char
  | '+' :: cs => cs
  | cs => cs

/-- An unsigned number of 128 bits, with an optional plus. -/
def unsigned? (base : Nat) (cs : List Char) : Option Word := do
  let n ← digits? base (dropPlus cs)
  if n < 1 <<< 128 then some (BitVec.ofNat 128 n) else none

/-- A signed number of 128 bits, with an optional plus or minus. -/
def signed? (base : Nat) (cs : List Char) : Option Int128 :=
  match cs with
  | '-' :: cs => do Int128.ofInt? (-(← digits? base cs))
  | cs => do Int128.ofInt? (← digits? base (dropPlus cs))

end FormulaGraph.Numeral

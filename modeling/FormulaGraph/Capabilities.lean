/-!
What an engine can do beyond the basic surface, as a set of flags with a fixed bit for each.
-/

namespace FormulaGraph

/-- The flags, in the order of their bits. -/
inductive Capability where
  /-- Terms show their operator and children. -/
  | termIteration
  | integers
  | reals
  | arrayModels
  | constantArrays
  /-- Arrays and functions may range over truth values. -/
  | booleanRanges
  | unsatCores
  | datatypes
  | quantifiers
  /-- Truth values and one-bit vectors are one sort of the engine, so the sorts and literals that it
  reports may be either. -/
  | booleanAliasing
  /-- An interruptible check heeds its token. -/
  | interruption
  /-- The engine keeps a graph of canonical terms of its own. -/
  | logging
  deriving DecidableEq

namespace Capability

def all : List Capability :=
  [termIteration, integers, reals, arrayModels, constantArrays, booleanRanges,
    unsatCores, datatypes, quantifiers, booleanAliasing, interruption, logging]

def name : Capability → String
  | termIteration => "TERM_ITER"
  | integers => "THEORY_INT"
  | reals => "THEORY_REAL"
  | arrayModels => "ARRAY_MODELS"
  | constantArrays => "CONST_ARRAYS"
  | booleanRanges => "ARRAY_FUN_BOOLS"
  | unsatCores => "UNSAT_CORE"
  | datatypes => "DATATYPES"
  | quantifiers => "QUANTIFIERS"
  | booleanAliasing => "BOOL_BV1_ALIASING"
  | interruption => "INTERRUPT"
  | logging => "LOGGING"

/-- The position of the flag's bit. -/
def position : Capability → Nat
  | termIteration => 0
  | integers => 1
  | reals => 2
  | arrayModels => 3
  | constantArrays => 4
  | booleanRanges => 5
  | unsatCores => 6
  | datatypes => 7
  | quantifiers => 8
  | booleanAliasing => 9
  | interruption => 10
  | logging => 11

end Capability

structure Capabilities where
  bits : BitVec 12
  deriving DecidableEq

namespace Capabilities

/-- The set with these bits; bits that belong to no flag are dropped. -/
def ofNat (n : Nat) : Capabilities := ⟨BitVec.ofNat 12 n⟩

def toNat (c : Capabilities) : Nat := c.bits.toNat

def has (c : Capabilities) (flag : Capability) : Bool := c.bits.getLsbD flag.position

def insert (flag : Capability) (c : Capabilities) : Capabilities :=
  ⟨c.bits ||| BitVec.twoPow 12 flag.position⟩

def ofList (flags : List Capability) : Capabilities := flags.foldr insert ⟨0⟩

theorem has_insert (c : Capabilities) (flag other : Capability) :
    (c.insert flag).has other = (c.has other || decide (flag = other)) := by
  cases flag <;> cases other <;> simp [has, insert, Capability.position]

/-- The flags of the set, in the order of their bits. -/
def toList (c : Capabilities) : List Capability := Capability.all.filter c.has

end Capabilities

end FormulaGraph
